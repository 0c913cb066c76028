import Svr32.Stream.Take
import Svr32.Stream.Blocks

/-! flushq: the old chain is walked, and each message goes back onto the queue or is freed. -/
namespace Svr32.Stream
open Svr32.Lib
variable {s s' t : Streams} {k k' k'' : Pool} {ls ch : Nat → List Nat} {q bp m x b d : Nat}
  {l l' rl done old : List Nat} {v : Queue} {flag : Bool}

/- The blocks `l` have been freed. -/
structure Freed (l : List Nat) (k k' : Pool) : Prop where
  same : ∀ x, x ∉ l → k'.mb x = k.mb x
  size : k'.nmblock = k.nmblock
  data : ∀ d, (k'.db d).dbType = (k.db d).dbType ∧ (k'.db d).dbClass = (k.db d).dbClass

theorem Freed.view (h : Freed l k k') (hx : x ∉ l) : k'.view x = k.view x := by
  rw [Pool.view, Pool.view, h.same x hx]
  have hd : ∀ d, ((k'.db d).dbType, (k'.db d).dbClass) = ((k.db d).dbType, (k.db d).dbClass) :=
    fun d => Prod.ext (h.data d).1 (h.data d).2
  simp only [hd]

theorem unref_data (d e : Nat) (k : Pool) : ((unref d k).db e).dbType = (k.db e).dbType ∧
    ((unref d k).db e).dbClass = (k.db e).dbClass := by
  simp only [unref]
  split <;> by_cases he : e = d <;> simp [Pool.setDb, he]

theorem freeb_freed (hd : (k.mb b).bDatap = some d) : ∃ k', freeb b k = some k' ∧
    Freed [b] k k' := by
  obtain ⟨hmb, -, hsize, -⟩ := unref_mb d k
  have heq : freeb b k = some
      (mbfree b ((unref d k).setMb b { (unref d k).mb b with bDatap := none })) := by
    simp only [freeb, hd, Option.bind_eq_bind, Option.bind_some]
    rfl
  refine ⟨_, heq, fun x hx => ?_, hsize, fun e => unref_data d e k⟩
  have hxb : x ≠ b := fun he => hx (by simp [he])
  simp [mbfree, Pool.setMb, hxb, hmb]

/-- freemsg frees the blocks of the message. -/
theorem freemsg_freed (h : Msg k m l) : ∃ k', freemsg (some m) k = some k' ∧ Freed l k k' := by
  have hloop : ∀ {l : List Nat} {fuel : Nat} {k : Pool} {p : Option Nat}, Seg k.cont p l →
      (∀ b ∈ l, ∃ d, (k.mb b).bDatap = some d) → l.Nodup → l.length ≤ fuel →
      ∃ k', freemsgLoop fuel p k = some k' ∧ Freed l k k' := by
    intro l
    induction l with
    | nil =>
      intro fuel k p hs _ _ _
      have hp : p = none := hs
      refine ⟨k, ?_, fun _ _ => rfl, rfl, fun _ => ⟨rfl, rfl⟩⟩
      rw [hp]
      cases fuel <;> rfl
    | cons b l ih =>
      intro fuel k p hs hd hnd hfuel
      obtain ⟨n, rfl⟩ := Nat.exists_eq_succ_of_ne_zero (Nat.ne_zero_of_lt hfuel)
      obtain ⟨hb, hnd⟩ := List.nodup_cons.mp hnd
      obtain ⟨d, hdb⟩ := hd b (by simp)
      obtain ⟨k₁, hk₁, hf₁⟩ := freeb_freed hdb
      have hkeep : ∀ x ∈ l, k₁.mb x = k.mb x := fun x hx =>
        hf₁.same x fun he => hb (List.mem_singleton.mp he ▸ hx)
      have hs₁ : Seg k₁.cont (k.cont b) l := hs.2.congr fun x hx => by
        rw [Pool.cont, hkeep x hx]
        rfl
      obtain ⟨k', hk', hf'⟩ := ih hs₁ (fun x hx => by
        rw [hkeep x hx]
        exact hd x (List.mem_cons_of_mem b hx)) hnd (Nat.le_of_succ_le_succ hfuel)
      refine ⟨k', ?_, fun x hx => ?_, hf'.size.trans hf₁.size, fun d => ?_⟩
      · rw [hs.1]
        simp only [freemsgLoop, hk₁, Option.bind_eq_bind, Option.bind_some]
        exact hk'
      · rw [List.mem_cons, not_or] at hx
        rw [hf'.same x hx.2, hf₁.same x (by simpa using hx.1)]
      · exact ⟨(hf'.data d).1.trans (hf₁.data d).1, (hf'.data d).2.trans (hf₁.data d).2⟩
  exact hloop h.seg h.data h.nodup (length_le_of_nodup h.nodup h.lt)

/- The messages that flushq puts back, and those it frees. -/
def keeps (flag : Bool) (k : Pool) (m : Nat) : Bool := !flag && !datamsg (k.btype m)

def kept (flag : Bool) (k : Pool) (l : List Nat) : List Nat := l.filter (keeps flag k)

def flushed (flag : Bool) (k : Pool) (l : List Nat) : List Nat := l.filter (!keeps flag k ·)

/- Classes never rise along the queue. -/
def Sorted (k : Pool) (l : List Nat) : Prop := l.Pairwise fun x y => k.cls y ≤ k.cls x

theorem Pool.cls_congr (h : k'.view m = k.view m) : k'.cls m = k.cls m := by
  simp only [Pool.cls, Pool.btype, h]

theorem keeps_congr (h : k'.view m = k.view m) : keeps flag k' m = keeps flag k m := by
  simp only [keeps, Pool.btype, h]

theorem Sorted.congr (h : Sorted k l) (hv : ∀ m ∈ l, k'.view m = k.view m) : Sorted k' l := by
  refine List.Pairwise.imp_of_mem (fun {a b} ha hb hab => ?_) h
  rw [Pool.cls_congr (hv a ha), Pool.cls_congr (hv b hb)]
  exact hab

/- In the loop of flushq: `done` is on the queue again, and the chain from `p` on is `old`. -/
structure Flushing (s : Streams) (ls ch : Nat → List Nat) (q : Nat) (done old : List Nat)
    (p : Option Nat) : Prop where
  lists : Lists s (Function.update ls q done) ch
  run : ∃ rl, RunList s rl
  seg : Seg s.pool.next p old
  loose : ∀ m ∈ old, Loose s (Function.update ls q done) ch m
  apart : ∀ m ∈ old, ∀ m' ∈ old, ∀ b ∈ ch m, b ∈ ch m' → m = m'
  nodup : old.Nodup

/-- A message stays loose when another one is put on a queue, or freed. -/
theorem Loose.keep (h : Loose s ls ch m) (hv : ∀ b ∈ ch m, s'.pool.view b = s.pool.view b)
    (hn : s'.pool.nmblock = s.pool.nmblock)
    (hin : ∀ x, ∀ y ∈ Function.update ls q l' x, y ∈ ls x ∨ ∀ b ∈ ch y, b ∉ ch m) :
    Loose s' (Function.update ls q l') ch m := by
  refine ⟨h.msg.congr hv hn, fun x y hy => ?_⟩
  rcases hin x y hy with hy | hout
  · exact h.apart x y hy
  · exact hout

/-- The message is put back. -/
theorem Flushing.keep {p : Option Nat} (h : Flushing s ls ch q done (bp :: old) p)
    (hk : keeps flag s.pool bp) : ∃ t pre post, done = pre ++ post ∧
      flushTurn q flag bp s = some t ∧
      Flushing t ls ch q (pre ++ bp :: post) old (s.pool.next bp) ∧
      Did (Function.update ls q done) ch q (pre ++ bp :: post) []
        ((s.q q).meter.add (s.pool.weight (ch bp))) s t ∧
      (Sorted s.pool (done ++ bp :: old) → post = []) := by
  obtain ⟨rl, hr⟩ := h.run
  have hbp := h.loose bp (by simp)
  have hnd := List.nodup_cons.mp h.nodup
  obtain ⟨d, hd⟩ := hbp.msg.data bp hbp.msg.head_mem
  obtain ⟨t, pre, post, heq, hput, hplace⟩ := putq_spec h.lists hr hbp q
  have hsplit : done = pre ++ post := by simpa using hput.split
  have hview : ∀ y, t.pool.view y = s.pool.view y := fun y => hput.did.view y nofun
  have hdid := hput.did
  have hout : ∀ m ∈ old, m ∉ done ∧ m ≠ bp := fun m hm =>
    ⟨by simpa using (h.loose m (List.mem_cons_of_mem bp hm)).not_mem q, fun he => hnd.1 (he ▸ hm)⟩
  refine ⟨t, pre, post, hsplit, ?_, ⟨?_, hdid.run, ?_, fun m hm => ?_, fun m hm m' hm' =>
    h.apart m (List.mem_cons_of_mem bp hm) m' (List.mem_cons_of_mem bp hm'), hnd.2⟩, hdid,
    fun hs => ?_⟩
  · rw [keeps, Bool.and_eq_true] at hk
    rw [flushTurn, dbType_eq hd, Option.bind_eq_bind, Option.bind_some, if_pos (by simp [hk])]
    exact heq
  · have hl := hdid.lists
    rwa [Function.update_idem] at hl
  · refine h.seg.2.congr fun m hm => hput.next m ?_ (hout m hm).2
    rw [Function.update_self]
    exact (hout m hm).1
  · have hl := @Loose.keep _ t _ _ q _ (pre ++ bp :: post)
      (h.loose m (List.mem_cons_of_mem bp hm)) (fun b _ => hview b) hdid.blocks (fun x y hy => ?_)
    · rwa [Function.update_idem] at hl
    · rcases (mem_insert_queue (by rw [Function.update_self, hsplit])).mp hy with hy | ⟨-, rfl⟩
      · exact .inl hy
      · exact .inr fun b hb hbm => (hout m hm).2 (h.apart y (by simp) m
          (List.mem_cons_of_mem y hm) b hb hbm).symm
  · rcases hplace with ⟨hpost, -⟩ | ⟨-, y, post', rfl, hno⟩
    · exact hpost
    · have hy : y ∈ done := by simp [hsplit]
      exact absurd ((List.pairwise_append.mp hs).2.2 y hy bp (by simp)) hno

/-- The message is freed. -/
theorem Flushing.free {p : Option Nat} (h : Flushing s ls ch q done (bp :: old) p)
    (hk : keeps flag s.pool bp = false) : ∃ t, flushTurn q flag bp s = some t ∧
      Flushing t ls ch q done old (s.pool.next bp) ∧
      Did (Function.update ls q done) ch q done [bp] (s.q q).meter s t := by
  obtain ⟨rl, hr⟩ := h.run
  have hbp := h.loose bp (by simp)
  have hnd := List.nodup_cons.mp h.nodup
  obtain ⟨d, hd⟩ := hbp.msg.data bp hbp.msg.head_mem
  obtain ⟨k', hfree, hf⟩ := freemsg_freed hbp.msg
  have hlinks : ∀ y, y ∉ ch bp → k'.next y = s.pool.next y ∧ k'.prev y = s.pool.prev y :=
    fun y hy => ⟨congrArg Mblk.bNext (hf.same y hy), congrArg Mblk.bPrev (hf.same y hy)⟩
  have hlists : Lists { s with pool := k' } (Function.update ls q done) ch := by
    refine ⟨fun x => (h.lists.queue x).congr fun y hy => ?_, fun x m hm => ?_, h.lists.apart⟩
    · exact hlinks y (hbp.apart x y hy y (h.lists.msg x y hy).head_mem)
    · exact (h.lists.msg x m hm).congr (fun b hb => hf.view (hbp.apart x m hm b hb)) hf.size
  have hold : ∀ m ∈ old, ∀ b ∈ ch m, b ∉ ch bp := fun m hm b hb hbb =>
    hnd.1 (h.apart m (List.mem_cons_of_mem bp hm) bp (by simp) b hb hbb ▸ hm)
  refine ⟨{ s with pool := k' }, ?_, ⟨hlists, ⟨rl, hr.seg, hr.tail, hr.nodup, hr.enab⟩, ?_,
    fun m hm => ?_, fun m hm m' hm' => h.apart m (List.mem_cons_of_mem bp hm) m'
      (List.mem_cons_of_mem bp hm'), hnd.2⟩, ⟨?_, rfl, hf.size, fun _ _ => rfl, rfl,
    ⟨rl, hr.seg, hr.tail, hr.nodup, hr.enab⟩, fun _ hx => hx, fun b hb =>
      hf.view (hb bp (by simp))⟩⟩
  · have hno : ¬ (!flag && !datamsg (s.pool.btype bp)) = true := by
      rw [keeps] at hk
      simp [hk]
    rw [flushTurn, dbType_eq hd, Option.bind_eq_bind, Option.bind_some, if_neg hno, hfree]
    rfl
  · refine h.seg.2.congr fun m hm => (hlinks m ?_).1
    exact hold m hm m (h.loose m (List.mem_cons_of_mem bp hm)).msg.head_mem
  · have hm' := h.loose m (List.mem_cons_of_mem bp hm)
    exact ⟨hm'.msg.congr (fun b hb => hf.view (hold m hm b hb)) hf.size, hm'.apart⟩
  · rw [Function.update_idem]
    exact hlists

/-- One operation after the other. -/
theorem Did.trans {l₁ l₂ fr₁ fr₂ : List Nat} {v₁ v₂ : Queue} (h : Did ls ch q l₁ fr₁ v₁ s t)
    (h' : Did (Function.update ls q l₁) ch q l₂ fr₂ v₂ t s') :
    Did ls ch q l₂ (fr₁ ++ fr₂) v₂ s s' := by
  refine ⟨?_, h'.size.trans h.size, h'.blocks.trans h.blocks,
    fun x hx => (h'.others x hx).trans (h.others x hx), h'.self, h'.run,
    fun x hx => h'.enab x (h.enab x hx), fun b hb => ?_⟩
  · have hl := h'.lists
    rwa [Function.update_idem] at hl
  · rw [h'.view b fun m hm => hb m (List.mem_append_right fr₁ hm),
      h.view b fun m hm => hb m (List.mem_append_left fr₂ hm)]

/- Flow control of a queue that gets messages of the weights `ws`. -/
def Queue.addAll (ws : List Nat) (v : Queue) : Queue := ws.foldl (fun v w => v.add w) v

def weights (k : Pool) (ch : Nat → List Nat) (l : List Nat) : List Nat :=
  l.map fun m => k.weight (ch m)

theorem kept_congr (hv : ∀ m ∈ l, k'.view m = k.view m) : kept flag k' l = kept flag k l :=
  List.filter_congr fun m hm => keeps_congr (hv m hm)

theorem flushed_congr (hv : ∀ m ∈ l, k'.view m = k.view m) :
    flushed flag k' l = flushed flag k l :=
  List.filter_congr fun m hm => by rw [keeps_congr (hv m hm)]

theorem weights_congr (hv : ∀ m ∈ l, ∀ b ∈ ch m, k'.view b = k.view b) :
    weights k' ch l = weights k ch l :=
  List.map_congr_left fun m hm => weight_congr (hv m hm)

theorem kept_mem (h : m ∈ kept flag k l) : m ∈ l := (List.mem_filter.mp h).1

/-- What the loop of flushq does to the old chain. -/
theorem flushLoop_spec {p : Option Nat} {fuel : Nat} (h : Flushing s ls ch q done old p)
    (hfuel : old.length ≤ fuel) : ∃ s' l', flushLoop q flag fuel p s = some s' ∧
      Did (Function.update ls q done) ch q l' (flushed flag s.pool old)
        ((s.q q).meter.addAll (weights s.pool ch (kept flag s.pool old))) s s' ∧
      l'.Perm (done ++ kept flag s.pool old) ∧
      (Sorted s.pool (done ++ old) → l' = done ++ kept flag s.pool old) := by
  induction old generalizing s done p fuel with
  | nil =>
    have hp : p = none := h.seg
    refine ⟨s, done, ?_, ⟨?_, rfl, rfl, fun _ _ => rfl, rfl, h.run, fun _ hx => hx,
      fun _ _ => rfl⟩, ?_, fun _ => ?_⟩
    · rw [hp]
      cases fuel <;> rfl
    · rw [Function.update_idem]
      exact h.lists
    · simp [kept]
    · simp [kept]
  | cons bp old ih =>
    obtain ⟨n, rfl⟩ := Nat.exists_eq_succ_of_ne_zero (Nat.ne_zero_of_lt hfuel)
    have hp : p = some bp := h.seg.1
    have hold : ∀ m ∈ old, ∀ b ∈ ch m, b ∉ ch bp := fun m hm b hb hbb =>
      (List.nodup_cons.mp h.nodup).1
        (h.apart m (List.mem_cons_of_mem bp hm) bp (by simp) b hb hbb ▸ hm)
    have hhead : ∀ m ∈ old, m ∈ ch m := fun m hm =>
      (h.loose m (List.mem_cons_of_mem bp hm)).msg.head_mem
    cases hk : keeps flag s.pool bp with
    | true =>
      obtain ⟨t, pre, post, hdone, heq, hnext, hdid, hsorted⟩ := h.keep hk
      have hview : ∀ b, t.pool.view b = s.pool.view b := fun b => hdid.view b nofun
      obtain ⟨s', l', hs', hdid', hperm, hsame⟩ := ih hnext (Nat.le_of_succ_le_succ hfuel)
      have hkept : kept flag t.pool old = kept flag s.pool old := kept_congr fun m _ => hview m
      have hcons : kept flag s.pool (bp :: old) = bp :: kept flag s.pool old :=
        List.filter_cons_of_pos hk
      have hfl : flushed flag s.pool (bp :: old) = flushed flag t.pool old := by
        rw [(@flushed_congr s.pool t.pool) fun m _ => hview m]
        exact List.filter_cons_of_neg (by simp [hk])
      refine ⟨s', l', ?_, ?_, ?_, fun hs => ?_⟩
      · rw [hp]
        simp only [flushLoop, heq, Option.bind_eq_bind, Option.bind_some]
        exact hs'
      · rw [← Function.update_idem (a := q) (v := done) (f := ls)] at hdid'
        have hd := hdid.trans hdid'
        rw [hkept, weights_congr (k := s.pool) fun m _ b _ => hview b, hdid.self] at hd
        rw [hfl, hcons]
        exact hd
      · rw [hkept] at hperm
        rw [hcons, hdone]
        refine hperm.trans ?_
        simp only [List.append_assoc, List.cons_append]
        refine List.Perm.append_left pre ?_
        exact (List.perm_middle).symm
      · have hpost := hsorted hs
        subst hpost
        rw [List.append_nil] at hdone
        have hst : Sorted t.pool (pre ++ [bp] ++ old) := by
          rw [List.append_assoc, List.singleton_append, ← hdone]
          exact hs.congr fun m _ => hview m
        rw [hsame hst, hkept, hcons, hdone]
        simp
    | false =>
      obtain ⟨t, heq, hnext, hdid⟩ := h.free hk
      have hview : ∀ m ∈ old, ∀ b ∈ ch m, t.pool.view b = s.pool.view b := fun m hm b hb =>
        hdid.view b fun m' hm' => List.mem_singleton.mp hm' ▸ hold m hm b hb
      have hviewm : ∀ m ∈ old, t.pool.view m = s.pool.view m := fun m hm =>
        hview m hm m (hhead m hm)
      obtain ⟨s', l', hs', hdid', hperm, hsame⟩ := ih hnext (Nat.le_of_succ_le_succ hfuel)
      have hkept : kept flag t.pool old = kept flag s.pool old := kept_congr hviewm
      have hcons : kept flag s.pool (bp :: old) = kept flag s.pool old :=
        List.filter_cons_of_neg (by simp [hk])
      have hfl : flushed flag s.pool (bp :: old) = [bp] ++ flushed flag t.pool old := by
        rw [(@flushed_congr s.pool t.pool) hviewm]
        exact List.filter_cons_of_pos (by simp [hk])
      refine ⟨s', l', ?_, ?_, ?_, fun hs => ?_⟩
      · rw [hp]
        simp only [flushLoop, heq, Option.bind_eq_bind, Option.bind_some]
        exact hs'
      · rw [← Function.update_idem (a := q) (v := done) (f := ls)] at hdid'
        have hd := hdid.trans hdid'
        rw [hkept, weights_congr (k := s.pool) fun m hm => hview m (kept_mem hm), hdid.self] at hd
        rw [hfl, hcons]
        exact hd
      · rwa [hcons, ← hkept]
      · have hsub : Sorted s.pool (done ++ old) :=
          List.Pairwise.sublist (List.Sublist.append_left (List.sublist_cons_self bp old) done) hs
        have hst : Sorted t.pool (done ++ old) := hsub.congr fun m hm => by
          rcases List.mem_append.mp hm with hm | hm
          · have hmq : m ∈ Function.update ls q done q := by rwa [Function.update_self]
            exact hdid.view m fun m' hm' => List.mem_singleton.mp hm' ▸
              (h.loose bp (by simp)).apart q m hmq m (h.lists.msg q m hmq).head_mem
          · exact hviewm m hm
        rw [hsame hst, hkept, hcons]

theorem Queue.addAll_flow (ws : List Nat) (v : Queue) :
    (v.addAll ws).wiring = v.wiring ∧ (v.addAll ws).qwantw = v.qwantw ∧
      (v.addAll ws).qLowat = v.qLowat ∧ (v.addAll ws).qHiwat = v.qHiwat := by
  induction ws generalizing v with
  | nil => exact ⟨rfl, rfl, rfl, rfl⟩
  | cons w ws ih => exact ih (v.add w)

theorem Queue.addAll_wantw (ws : List Nat) (v : Queue) (w : Bool) :
    { v with qwantw := w }.addAll ws = { v.addAll ws with qwantw := w } := by
  induction ws generalizing v with
  | nil => rfl
  | cons a ws ih => exact ih (v.add a)

/-- What streams are made of stays. -/
theorem Did.wiring {fr : List Nat} (h : Did ls ch q l' fr v s s')
    (hv : v.wiring = (s.q q).wiring) (x : Nat) : (s'.q x).wiring = (s.q x).wiring := by
  by_cases hx : x = q
  · rw [hx, ← hv, ← h.self]
    rfl
  · exact congrArg (fun u => (u.qNext, u.srvp, u.qreadr)) (h.others x hx)

/- How flushq starts. -/
theorem flushing_start (h : Lists s ls ch) (hr : RunList s rl) (q : Nat) :
    Flushing (s.setQ q { s.q q with
      qFirst := none, qLast := none, qCount := 0, qfull := false, qwantw := false }) ls ch q []
      (ls q) (s.q q).qFirst := by
  have hmem : ∀ x m, m ∈ Function.update ls q [] x → x ≠ q ∧ m ∈ ls x := fun x m hm => by
    by_cases hx : x = q
    · rw [hx, Function.update_self] at hm
      cases hm
    · rw [Function.update_of_ne hx] at hm
      exact ⟨hx, hm⟩
  refine ⟨⟨fun x => ?_, fun x m hm => h.msg x m (hmem x m hm).2, fun x x' m m' b hm hm' =>
    h.apart x x' m m' b (hmem x m hm).2 (hmem x' m' hm').2⟩, ⟨rl, hr.setQ rfl rfl⟩,
    (h.queue q).seg, fun m hm => ⟨h.msg q m hm, fun x m' hm' b hb hbm => ?_⟩,
    fun m hm m' hm' b hb hb' => (h.apart q q m m' b hm hm' hb hb').2, (h.queue q).nodup⟩
  · by_cases hx : x = q
    · rw [hx, Function.update_self, Streams.setQ_self]
      exact Deque.nil _ _
    · rw [Function.update_of_ne hx, Streams.setQ_of_ne hx]
      exact h.queue x
  · exact (hmem x m' hm').1 (h.apart x q m' m b (hmem x m' hm').2 hm hb hbm).1

theorem flushq_eq {s₁ : Streams} (hloop : flushLoop q flag s.pool.nmblock (s.q q).qFirst
    (s.setQ q { s.q q with
      qFirst := none, qLast := none, qCount := 0, qfull := false, qwantw := false }) = some s₁) :
    flushq q flag s = if (s₁.q q).qCount ≤ (s₁.q q).qLowat ∧ (s.q q).qwantw then wakeback q s₁
      else some (s₁.setQ q { s₁.q q with qwantw := (s₁.q q).qwantw || (s.q q).qwantw }) := by
  simp only [flushq, Streams.setQ_pool, hloop, Option.bind_eq_bind, Option.bind_some,
    Option.pure_def]

/-- flushq leaves what it does not free, and wakes writers when little is left. -/
theorem flushq_spec (h : Lists s ls ch) (hr : RunList s rl) (hw : Wired s) (q : Nat)
    (flag : Bool) : ∃ s' l', flushq q flag s = some s' ∧ Woke q s s' ∧
      Did ls ch q l' (flushed flag s.pool (ls q))
        ({ (s.q q).meter with qCount := 0, qfull := false }.addAll
          (weights s.pool ch (kept flag s.pool (ls q)))).low s s' ∧
      l'.Perm (kept flag s.pool (ls q)) ∧
      (Sorted s.pool (ls q) → l' = kept flag s.pool (ls q)) := by
  have hstart := flushing_start h hr q
  obtain ⟨s₁, l', hloop, hdid, hperm, hsame⟩ :=
    @flushLoop_spec _ _ _ _ _ _ flag _ s.pool.nmblock hstart (h.length_le q)
  rw [Streams.setQ_self] at hdid
  have hv₁ : { (s.q q).meter with qCount := 0, qfull := false, qwantw := false }.addAll
      (weights s.pool ch (kept flag s.pool (ls q))) =
      { { (s.q q).meter with qCount := 0, qfull := false }.addAll
        (weights s.pool ch (kept flag s.pool (ls q))) with qwantw := false } :=
    Queue.addAll_wantw _ { (s.q q).meter with qCount := 0, qfull := false } false
  have hdid₁ : Did ls ch q l' (flushed flag s.pool (ls q)) (s₁.q q).meter s s₁ := by
    have hl := hdid.lists
    rw [Function.update_idem] at hl
    refine ⟨hl, hdid.size, hdid.blocks, fun x hx => ?_, rfl, hdid.run, fun x hx =>
      hdid.enab x ?_, hdid.view⟩
    · rw [hdid.others x hx, Streams.setQ_of_ne hx]
    · by_cases hxq : x = q
      · rw [hxq] at hx
        rw [hxq, Streams.setQ_self]
        exact hx
      · rwa [Streams.setQ_of_ne hxq]
  have hself := hdid.self.trans hv₁
  have hwire : ∀ x, (s₁.q x).wiring = (s.q x).wiring :=
    hdid₁.wiring (congrArg Queue.wiring hself |>.trans (Queue.addAll_flow _ _).1)
  have hwant : (s₁.q q).qwantw = false := congrArg (fun u => u.qwantw) hself
  have hcount : (s₁.q q).qCount = ({ (s.q q).meter with qCount := 0, qfull := false }.addAll
      (weights s.pool ch (kept flag s.pool (ls q)))).qCount := congrArg (fun u => u.qCount) hself
  have hlow : (s₁.q q).qLowat = ({ (s.q q).meter with qCount := 0, qfull := false }.addAll
      (weights s.pool ch (kept flag s.pool (ls q)))).qLowat := congrArg (fun u => u.qLowat) hself
  have hold : ({ (s.q q).meter with qCount := 0, qfull := false }.addAll
      (weights s.pool ch (kept flag s.pool (ls q)))).qwantw = (s.q q).qwantw :=
    (Queue.addAll_flow _ _).2.1
  rw [flushq_eq hloop]
  obtain ⟨rl₁, hr₁⟩ := hdid.run
  by_cases hc : (s₁.q q).qCount ≤ (s₁.q q).qLowat ∧ (s.q q).qwantw
  · obtain ⟨s', heq, hs, hon⟩ := wakeback_spec hr₁ (hw.congr hwire hdid.size) q
    have hst : Steady q (s₁.q q) s₁ s' :=
      ⟨hs.pool, hs.size, fun x _ => hs.core x, hs.core q, hs.run, hs.enab⟩
    refine ⟨s', l', by rw [if_pos hc, heq], fun _ _ b hb => hon b (hb.congr hwire), ?_,
      hperm, hsame⟩
    have hd := hdid₁.steady hst rfl rfl
    have hv := Queue.low_of_le (hcount ▸ hlow ▸ hc.1)
    rwa [hself, ← hv] at hd
  · have hrun := hr₁.setQ (q := q)
      (v := { s₁.q q with qwantw := (s₁.q q).qwantw || (s.q q).qwantw }) rfl rfl
    have hst : Steady q { s₁.q q with qwantw := (s₁.q q).qwantw || (s.q q).qwantw } s₁
        (s₁.setQ q { s₁.q q with qwantw := (s₁.q q).qwantw || (s.q q).qwantw }) :=
      .of_sched rfl (.refl hrun)
    refine ⟨_, l', if_neg hc, fun hon hoff => ?_, ?_, hperm, hsame⟩
    · rw [Streams.setQ_self] at hoff
      exact absurd (by simp [hon]) hoff
    · have hd := hdid₁.steady hst rfl rfl
      have hm : { s₁.q q with qwantw := (s₁.q q).qwantw || (s.q q).qwantw }.meter =
          { (s₁.q q).meter with qwantw := (s₁.q q).qwantw || (s.q q).qwantw } := rfl
      have hv := Queue.low_of_not (hold ▸ hcount ▸ hlow ▸ hc)
      rw [hself, hwant, Bool.false_or, ← hold] at hm
      rw [hwant, Bool.false_or, ← hold, hm] at hd
      rw [hv, hwant, Bool.false_or, ← hold]
      exact hd

end Svr32.Stream
