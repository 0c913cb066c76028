import Svr32.Stream.QueueStep

/-! What each action does to the lists, the counts and the flags. -/
namespace Svr32.Stream
open Svr32.Lib
variable {s s' t : Streams} {ls ls' ch ch' : Nat → List Nat} {q bp m x b : Nat}
  {l l' rl fr pre post : List Nat} {v : Queue} {flag : Bool} {a : Act}

theorem weights_middle (k : Pool) (ch : Nat → List Nat) (pre post : List Nat) (bp : Nat) :
    (weights k ch (pre ++ bp :: post)).sum =
      (weights k ch (pre ++ post)).sum + k.weight (ch bp) := by
  rw [weights_perm List.perm_middle, Nat.add_comm]
  rfl

/-- A message has come. -/
theorem Good.put (h : Good s ls ch) (hput : Put ls ch q bp pre post s s')
    (htakes : ∀ x, ¬ a.takes x) (hsorted : ¬ a.inserts q → Sorted s.pool (ls q) →
      Sorted s.pool (pre ++ bp :: post)) :
    Acted a s s' ls (Function.update ls q (pre ++ bp :: post)) ch := by
  have hsum := weights_middle s.pool ch pre post bp
  rw [← hput.split] at hsum
  have hcount := h.count q
  refine h.acted hput.did ⟨rfl, rfl, ?_, fun _ he => absurd he (by simp), nofun⟩ ?_
    (fun x hx => absurd hx (htakes x)) (fun hx => absurd hx (htakes q)) fun hins hlt ho => ?_
  · rw [hsum]
    exact Queue.add_count hcount
  · intro hon hoff
    have hsame : (s'.q q).qwantw = (s.q q).qwantw := congrArg (fun u => u.qwantw) hput.did.self
    exact absurd (hsame.trans hon) hoff
  · rw [hsum] at hlt
    exact ⟨hsorted hins ho.sorted, Queue.add_full hcount hlt ho.full⟩

/-- A message has gone. -/
theorem Good.take {r : Bool} (h : Good s ls ch) (hl : ls q = pre ++ bp :: post)
    (hd : Did ls ch q (pre ++ post) []
      { (s.q q).meter.sub (s.pool.weight (ch bp)) with qwantr := r }.low s s')
    (hwoke : Woke q s s') (htakes : ∀ x, a.takes x → x = q) :
    Acted a s s' ls (Function.update ls q (pre ++ post)) ch := by
  have hsum := weights_middle s.pool ch pre post bp
  rw [← hl] at hsum
  have hcount := h.count q
  rw [hsum] at hcount
  have hless : ((s.q q).meter.sub (s.pool.weight (ch bp))).qCount =
      BitVec.ofNat 16 (weights s.pool ch (pre ++ post)).sum := Queue.sub_count hcount
  refine h.acted hd ⟨rfl, rfl, hless, fun hhi hnil => ?_, nofun⟩ hwoke htakes
    (fun _ => Queue.low_drained) fun hins hlt ho => ?_
  · rw [hnil] at hless
    have hzero : ((s.q q).meter.sub (s.pool.weight (ch bp))).qCount = 0 := hless
    exact ⟨Queue.sub_zero hzero hhi, Queue.low_zero hzero⟩
  · have hfit := ho.fits
    rw [hsum] at hfit
    refine ⟨List.Pairwise.sublist ?_ ho.sorted, Queue.sub_full hcount hfit ho.full⟩
    rw [hl]
    exact List.Sublist.append_left (List.sublist_cons_self bp post) pre

/-- getq has found nothing. -/
theorem Good.wait (h : Good s ls ch) (hl : ls q = [])
    (hd : Did ls ch q [] [] { (s.q q).meter with qwantr := true }.low s s')
    (hwoke : Woke q s s') (htakes : ∀ x, a.takes x → x = q) :
    Acted a s s' ls (Function.update ls q []) ch := by
  have hcount := h.count q
  rw [hl] at hcount
  refine h.acted hd ⟨rfl, rfl, hcount, fun hhi _ => ?_, nofun⟩ hwoke htakes
    (fun _ => Queue.low_drained) fun _ _ ho => ⟨.nil, ho.full⟩
  · obtain ⟨hfull, hwant⟩ := h.quiet q hhi hl
    refine ⟨hfull, ?_⟩
    have hlow : { (s.q q).meter with qwantr := true }.low.qwantw =
        ((s.q q).qwantw && !decide ((s.q q).qCount ≤ (s.q q).qLowat)) := rfl
    rw [hlow, hwant, Bool.false_and]

theorem Sorted.kept {k : Pool} (h : Sorted k l) : Sorted k (kept flag k l) :=
  List.Pairwise.sublist List.filter_sublist h

/-- The queue has been flushed. -/
theorem Good.flush (h : Good s ls ch)
    (hd : Did ls ch q l' (flushed flag s.pool (ls q))
      ({ (s.q q).meter with qCount := 0, qfull := false }.addAll
        (weights s.pool ch (kept flag s.pool (ls q)))).low s s')
    (hperm : l'.Perm (kept flag s.pool (ls q)))
    (hsame : Sorted s.pool (ls q) → l' = kept flag s.pool (ls q))
    (hwoke : Woke q s s') (htakes : ∀ x, a.takes x → x = q) :
    Acted a s s' ls (Function.update ls q l') ch := by
  have hcount : ({ (s.q q).meter with qCount := 0, qfull := false }.addAll
      (weights s.pool ch (kept flag s.pool (ls q)))).qCount =
      BitVec.ofNat 16 (weights s.pool ch l').sum := by
    rw [weights_perm hperm]
    have hall := Queue.addAll_count (v := { (s.q q).meter with qCount := 0, qfull := false })
      (c := 0) (weights s.pool ch (kept flag s.pool (ls q))) rfl
    rwa [Nat.zero_add] at hall
  obtain ⟨hwire, -, -, hhi⟩ := Queue.addAll_flow
    (weights s.pool ch (kept flag s.pool (ls q)))
    { (s.q q).meter with qCount := 0, qfull := false }
  have hmem : ∀ m, m ∈ l' ↔ m ∈ ls q ∧ keeps flag s.pool m := fun m => by
    rw [hperm.mem_iff, kept, List.mem_filter]
  refine h.acted hd ⟨hwire, hhi, hcount, fun _ hnil => ?_, fun x m hm f hf b hb hbf => ?_⟩ hwoke
    htakes (fun _ => Queue.low_drained) fun _ hlt ho => ⟨?_, ?_⟩
  · rw [hnil] at hperm hcount
    have hk : kept flag s.pool (ls q) = [] := hperm.nil_eq.symm
    refine ⟨?_, Queue.low_zero hcount⟩
    rw [hk]
    rfl
  · have hfm := List.mem_filter.mp hf
    have hmf : m = f ∧ x = q := by
      by_cases hx : x = q
      · rw [hx, Function.update_self] at hm
        exact ⟨(h.lists.apart q q m f b ((hmem m).mp hm).1 hfm.1 hb hbf).2, hx⟩
      · rw [Function.update_of_ne hx] at hm
        exact absurd (h.lists.apart x q m f b hm hfm.1 hb hbf).1 hx
    rw [hmf.2, Function.update_self, hmf.1] at hm
    have hkeep := ((hmem f).mp hm).2
    simp [hkeep] at hfm
  · rw [hsame ho.sorted]
    exact ho.sorted.kept
  · rw [weights_perm hperm] at hlt
    refine Queue.addAll_full (v := { (s.q q).meter with qCount := 0, qfull := false }) (c := 0) _ rfl
      (by rwa [Nat.zero_add]) ⟨by rintro ⟨⟩, fun hle => ?_⟩
    exact absurd ho.hiwat (BitVec.not_lt.mpr hle)

/- What an action that moves no message may change of a queue. -/
def Queue.calm (v : Queue) : Queue := { v.core with qnoenb := false }

/-- No message has moved. -/
theorem Good.same (h : Good s ls ch) (hcalm : ∀ x, (s'.q x).calm = (s.q x).calm)
    (hn : s'.nqueue = s.nqueue) (hb : s'.pool.nmblock = s.pool.nmblock)
    (hrun : ∃ rl, RunList s' rl)
    (hlinks : ∀ x, ∀ m ∈ ls x, s'.pool.next m = s.pool.next m ∧ s'.pool.prev m = s.pool.prev m)
    (hview : ∀ x, ∀ m ∈ ls x, ∀ b ∈ ch m, s'.pool.view b = s.pool.view b)
    (htakes : ∀ x, ¬ a.takes x) : Acted a s s' ls ls ch := by
  have hwire : ∀ x, (s'.q x).wiring = (s.q x).wiring := fun x =>
    congrArg (fun u => (u.qNext, u.srvp, u.qreadr)) (hcalm x)
  have hfirst : ∀ x, (s'.q x).qFirst = (s.q x).qFirst := fun x =>
    congrArg (fun u => u.qFirst) (hcalm x)
  have hlast : ∀ x, (s'.q x).qLast = (s.q x).qLast := fun x => congrArg (fun u => u.qLast) (hcalm x)
  have hcount : ∀ x, (s'.q x).qCount = (s.q x).qCount := fun x =>
    congrArg (fun u => u.qCount) (hcalm x)
  have hfull : ∀ x, (s'.q x).qfull = (s.q x).qfull := fun x => congrArg (fun u => u.qfull) (hcalm x)
  have hwant : ∀ x, (s'.q x).qwantw = (s.q x).qwantw := fun x =>
    congrArg (fun u => u.qwantw) (hcalm x)
  have hhi : ∀ x, (s'.q x).qHiwat = (s.q x).qHiwat := fun x =>
    congrArg (fun u => u.qHiwat) (hcalm x)
  have hweights : ∀ x, weights s'.pool ch (ls x) = weights s.pool ch (ls x) := fun x =>
    weights_congr (hview x)
  refine ⟨⟨⟨fun x => ?_, fun x m hm => ?_, h.lists.apart⟩, hrun, h.wired.congr hwire hn,
    fun x => ?_, fun x => ?_⟩, fun x _ hfit ho => ⟨?_, by rwa [hweights], ?_, ?_⟩, hweights,
    fun x hon hoff => ?_, fun x hx => absurd hx (htakes x), hwire, hhi⟩
  · rw [hfirst, hlast]
    exact (h.lists.queue x).congr (hlinks x)
  · exact (h.lists.msg x m hm).congr (hview x m hm) hb
  · rw [hcount, hweights]
    exact h.count x
  · rw [hhi, hfull, hwant]
    exact h.quiet x
  · rw [hhi]
    exact ho.hiwat
  · exact ho.sorted.congr fun m hm => hview x m hm m (h.lists.msg x m hm).head_mem
  · rw [hfull, hhi, hcount]
    exact ho.full
  · rw [hwant] at hoff
    exact absurd hon hoff

/-- queuerun takes the first queue off the run list. -/
theorem runq_spec (hr : RunList s rl) (h : runq s = some (q, s')) :
    (∃ rl', RunList s' rl') ∧ s'.pool = s.pool ∧ s'.nqueue = s.nqueue ∧
      ∀ x, (s'.q x).core = (s.q x).core := by
  cases rl with
  | nil =>
    have hhead : s.qhead = none := hr.seg
    simp [runq, hhead] at h
  | cons y rl =>
    have hhead : s.qhead = some y := hr.seg.1
    have hlink : (s.q y).qLink = rl.head? := hr.seg.2.head
    have hnd := List.nodup_cons.mp hr.nodup
    have hs' : some (q, s') = some (y, { s.setQ y { s.q y with qenab := false } with
        qhead := rl.head?, qtail := rl.getLast? }) := by
      rw [← h]
      cases rl with
      | nil =>
        have hl : (s.q y).qLink = none := hlink
        simp [runq, hhead, hl, Streams.setQ]
      | cons n rl =>
        have hl : (s.q y).qLink = some n := hlink
        have htail := hr.tail
        rw [List.getLast?_cons_cons] at htail
        simp [runq, hhead, hl, Streams.setQ, ← htail]
    cases hs'
    refine ⟨⟨rl, ?_, rfl, hnd.2, fun x => ?_⟩, rfl, rfl, fun x => ?_⟩
    · have hseg := hr.seg.2
      rw [hseg.head] at hseg
      refine Seg.congr hseg fun x _ => ?_
      by_cases hx : x = q <;> simp [Streams.link, Streams.setQ, hx]
    · have hon := hr.enab x
      by_cases hx : x = q
      · simp [Streams.setQ, hx, hnd.1]
      · simpa [Streams.setQ, hx] using hon
    · by_cases hx : x = q <;> simp [Streams.setQ, Queue.core, hx]

/-- canput marks the queue that is full. -/
theorem Good.refuse (h : Good s ls ch) (hf : (s.q x).qfull = true) (htakes : ∀ x, ¬ a.takes x) :
    Acted a s (s.setQ x { s.q x with qwantw := true }) ls ls ch := by
  obtain ⟨rl, hr⟩ := h.run
  have hrun := hr.setQ (q := x) (v := { s.q x with qwantw := true }) rfl rfl
  have hst : Steady x { s.q x with qwantw := true } s (s.setQ x { s.q x with qwantw := true }) :=
    .of_sched rfl (.refl hrun)
  have hrel : Relinked x s s := ⟨rfl, rfl, fun _ => rfl, fun _ _ => ⟨rfl, rfl⟩, rfl, rfl, rfl⟩
  have hd := hrel.did hr ((Function.update_eq_self x ls).symm ▸ h.lists) hst rfl rfl
  have hm : Acted a s (s.setQ x { s.q x with qwantw := true }) ls
      (Function.update ls x (ls x)) ch := by
    refine h.acted hd ⟨rfl, rfl, h.count x, fun hhi hnil => ?_, nofun⟩ (fun _ hoff => ?_)
      (fun y hy => absurd hy (htakes y)) (fun hx => absurd hx (htakes x)) fun _ _ ho =>
        ⟨ho.sorted, ho.full⟩
    · have hno := (h.quiet x hhi hnil).1
      rw [hf] at hno
      cases hno
    · rw [Streams.setQ_self] at hoff
      exact absurd rfl hoff
  rwa [Function.update_eq_self] at hm

/-- putq keeps classes in order: the message goes behind those of its class. -/
theorem Sorted.putq {k : Pool} (h : Sorted k (pre ++ post))
    (hp : (post = [] ∧ ∀ y, pre.getLast? = some y → k.cls bp ≤ k.cls y) ∨
      ((∀ x ∈ pre, k.cls bp ≤ k.cls x) ∧ ∃ y post', post = y :: post' ∧ ¬ k.cls bp ≤ k.cls y)) :
    (∀ x ∈ pre, k.cls bp ≤ k.cls x) ∧ ∀ x ∈ post, ¬ k.cls bp ≤ k.cls x := by
  have hsort := List.pairwise_append.mp h
  rcases hp with ⟨rfl, hlast⟩ | ⟨hpre, y, post', rfl, hno⟩
  · refine ⟨fun x hx => ?_, nofun⟩
    obtain ⟨r, z, rfl⟩ := (List.eq_nil_or_concat' pre).resolve_left (List.ne_nil_of_mem hx)
    have hz := hlast z List.getLast?_concat
    rcases List.mem_append.mp hx with hx | hx
    · exact BitVec.le_trans hz ((List.pairwise_append.mp hsort.1).2.2 x hx z (by simp))
    · exact List.mem_singleton.mp hx ▸ hz
  · refine ⟨hpre, fun x hx hle => ?_⟩
    rcases List.mem_cons.mp hx with rfl | hx
    · exact hno hle
    · exact hno (BitVec.le_trans hle ((List.pairwise_cons.mp hsort.2.1).1 x hx))

theorem Sorted.putbq {k : Pool} (h : Sorted k (pre ++ post))
    (hp : ∀ x, post.head? = some x → ¬ k.cls bp < k.cls x) :
    ∀ x ∈ post, ¬ k.cls bp < k.cls x := by
  intro x hx
  cases post with
  | nil => cases hx
  | cons y post =>
    have hy := hp y rfl
    rcases List.mem_cons.mp hx with rfl | hx
    · exact hy
    · have hle := (List.pairwise_cons.mp (List.pairwise_append.mp h).2.1).1 x hx
      exact fun hlt => hy (BitVec.lt_def.mpr (Nat.lt_of_lt_of_le (BitVec.lt_def.mp hlt) hle))

theorem Sorted.insert {k : Pool} (h : Sorted k (pre ++ post))
    (hpre : ∀ x ∈ pre, k.cls bp ≤ k.cls x) (hpost : ∀ x ∈ post, k.cls x ≤ k.cls bp) :
    Sorted k (pre ++ bp :: post) := by
  have hsort := List.pairwise_append.mp h
  refine List.pairwise_append.mpr ⟨hsort.1, List.pairwise_cons.mpr ⟨hpost, hsort.2.1⟩,
    fun x hx y hy => ?_⟩
  rcases List.mem_cons.mp hy with rfl | hy
  · exact hpre x hx
  · exact hsort.2.2 x hx y hy

/-- putq: the message comes behind those of its class and above. -/
theorem putq_acted (h : Good s ls ch) (hb : Loose s ls ch bp) (q : Nat) :
    ∃ s' pre post, putq q bp s = some s' ∧ ls q = pre ++ post ∧
      (Sorted s.pool (ls q) → (∀ x ∈ pre, s.pool.cls bp ≤ s.pool.cls x) ∧
        ∀ x ∈ post, ¬ s.pool.cls bp ≤ s.pool.cls x) ∧
      Acted (.putq q bp) s s' ls (Function.update ls q (pre ++ bp :: post)) ch := by
  obtain ⟨rl, hr⟩ := h.run
  obtain ⟨s', pre, post, heq, hput, hplace⟩ := putq_spec h.lists hr hb q
  have hsplit := hput.split
  have hcls : Sorted s.pool (ls q) → (∀ x ∈ pre, s.pool.cls bp ≤ s.pool.cls x) ∧
      ∀ x ∈ post, ¬ s.pool.cls bp ≤ s.pool.cls x := fun hs => Sorted.putq (hsplit ▸ hs) hplace
  refine ⟨s', pre, post, heq, hsplit, hcls, h.put hput (by simp [Act.takes]) fun _ hs => ?_⟩
  obtain ⟨hpre, hpost⟩ := hcls hs
  rw [hsplit] at hs
  exact hs.insert hpre fun x hx => (BitVec.le_total _ _).resolve_left (hpost x hx)

/-- putbq: the message comes in front of those of its class and below. -/
theorem putbq_acted (h : Good s ls ch) (hb : Loose s ls ch bp) (q : Nat) :
    ∃ s' pre post, putbq q bp s = some s' ∧ ls q = pre ++ post ∧
      (∀ x ∈ pre, s.pool.cls bp < s.pool.cls x) ∧
      (Sorted s.pool (ls q) → ∀ x ∈ post, ¬ s.pool.cls bp < s.pool.cls x) ∧
      Acted (.putbq q bp) s s' ls (Function.update ls q (pre ++ bp :: post)) ch := by
  obtain ⟨rl, hr⟩ := h.run
  obtain ⟨s', pre, post, heq, hput, hpre, hhead⟩ := putbq_spec h.lists hr hb q
  have hsplit := hput.split
  have hcls : Sorted s.pool (ls q) → ∀ x ∈ post, ¬ s.pool.cls bp < s.pool.cls x := fun hs =>
    Sorted.putbq (hsplit ▸ hs) hhead
  refine ⟨s', pre, post, heq, hsplit, hpre, hcls,
    h.put hput (by simp [Act.takes]) fun _ hs => ?_⟩
  have hpost := hcls hs
  rw [hsplit] at hs
  exact hs.insert (fun x hx => BitVec.le_of_lt (hpre x hx)) fun x hx =>
    BitVec.not_lt.mp (hpost x hx)

theorem insq_acted (h : Good s ls ch) (hb : Loose s ls ch bp) (hl : ls q = pre ++ post) :
    ∃ s', insq q post.head? bp s = some s' ∧
      Acted (.insq q post.head? bp) s s' ls (Function.update ls q (pre ++ bp :: post)) ch := by
  obtain ⟨rl, hr⟩ := h.run
  obtain ⟨s', heq, hput⟩ := insq_spec h.lists hr hb hl
  exact ⟨s', heq, h.put hput (by simp [Act.takes]) fun hno => absurd ⟨_, _, rfl⟩ hno⟩

/-- getq: the first message goes, if there is one. -/
theorem getq_acted (h : Good s ls ch) (q : Nat) : ∃ s', getq q s = some ((ls q).head?, s') ∧
    Acted (.getq q) s s' ls (Function.update ls q (ls q).tail) ch := by
  obtain ⟨rl, hr⟩ := h.run
  have htakes : ∀ x, (Act.getq q).takes x → x = q := fun x hx => by
    rcases hx with hx | ⟨y, hx⟩ | ⟨y, hx⟩ <;> cases hx
    rfl
  rcases getq_spec h.lists hr h.wired q with ⟨hl, s', heq, hwoke, hd⟩ | ⟨bp, l, s', hl, heq, hwoke, hd⟩
  · rw [hl]
    exact ⟨s', heq, h.wait hl hd hwoke htakes⟩
  · rw [hl]
    exact ⟨s', heq, (@Good.take _ _ _ _ _ _ []) h hl hd hwoke htakes⟩

/-- rmvq: the message goes that is to go. -/
theorem rmvq_acted (h : Good s ls ch) (hl : ls q = pre ++ bp :: post) :
    ∃ s', rmvq q bp s = some s' ∧
      Acted (.rmvq q bp) s s' ls (Function.update ls q (pre ++ post)) ch := by
  obtain ⟨rl, hr⟩ := h.run
  have htakes : ∀ x, (Act.rmvq q bp).takes x → x = q := fun x hx => by
    rcases hx with hx | ⟨y, hx⟩ | ⟨y, hx⟩ <;> cases hx
    rfl
  obtain ⟨s', heq, hwoke, hd⟩ := rmvq_spec h.lists hr h.wired hl
  exact ⟨s', heq, h.take hl hd hwoke htakes⟩

/-- flushq: what is no data message stays. -/
theorem flushq_acted (h : Good s ls ch) (q : Nat) (flag : Bool) :
    ∃ s' l', flushq q flag s = some s' ∧
      (Sorted s.pool (ls q) → l' = kept flag s.pool (ls q)) ∧
      Acted (.flushq q flag) s s' ls (Function.update ls q l') ch := by
  obtain ⟨rl, hr⟩ := h.run
  have htakes : ∀ x, (Act.flushq q flag).takes x → x = q := fun x hx => by
    rcases hx with hx | ⟨y, hx⟩ | ⟨y, hx⟩ <;> cases hx
    rfl
  obtain ⟨s', l', heq, hwoke, hd, hperm, hsame⟩ := flushq_spec h.lists hr h.wired q flag
  exact ⟨s', l', heq, hsame, h.flush hd hperm hsame hwoke htakes⟩

/-- canput sets QWANTW on a full queue that has messages, or changes nothing. -/
theorem canput_acted (h : Good s ls ch) (o : Option Nat) :
    ∃ r s', canput o s = some (r, s') ∧ Acted (.canput o) s s' ls ls ch := by
  have htakes : ∀ x, ¬ (Act.canput o).takes x := by simp [Act.takes]
  have hsame : Acted (.canput o) s s ls ls ch :=
    h.same (fun _ => rfl) rfl rfl h.run (fun _ _ _ => ⟨rfl, rfl⟩) (fun _ _ _ _ _ => rfl) htakes
  cases o with
  | none => exact ⟨false, s, rfl, hsame⟩
  | some q =>
    obtain ⟨x, hx, -⟩ := nextsrv_spec h.wired q
    by_cases hf : (s.q x).qfull
    · exact ⟨false, _, by simp [canput, hx, hf], h.refuse hf htakes⟩
    · exact ⟨true, s, by simp [canput, hx, hf], hsame⟩

/-- What holds of the queues is kept by every action. -/
theorem step_acted (h : Good s ls ch) (hst : Step a s s') :
    ∃ ls' ch', (∀ q, ∀ m ∈ ls q, ch' m = ch m) ∧ Acted a s s' ls ls' ch' := by
  obtain ⟨rl, hr⟩ := h.run
  have hkeep : ∀ {bp : Nat} {l : List Nat}, Idle s bp l → ∀ q, ∀ m ∈ ls q,
      Function.update ch bp l m = ch m := fun {bp l} hb q m hm =>
    Function.update_of_ne (fun he : m = bp => (h.loose hb).2.1.not_mem q (he ▸ hm)) _ _
  cases hst with
  | @putq _ _ q bp l hb heq =>
    obtain ⟨hg, hloose, -⟩ := h.loose hb
    obtain ⟨t, pre, post, heq', -, -, hm⟩ := putq_acted hg hloose q
    cases heq.symm.trans heq'
    exact ⟨_, _, hkeep hb, hm⟩
  | @putbq _ _ q bp l hb heq =>
    obtain ⟨hg, hloose, -⟩ := h.loose hb
    obtain ⟨t, pre, post, heq', -, -, -, hm⟩ := putbq_acted hg hloose q
    cases heq.symm.trans heq'
    exact ⟨_, _, hkeep hb, hm⟩
  | @insq _ _ q mp emp l hb hemp heq =>
    obtain ⟨hg, hloose, -⟩ := h.loose hb
    obtain ⟨pre, post, hl, he⟩ : ∃ pre post, ls q = pre ++ post ∧ post.head? = emp := by
      cases emp with
      | none => exact ⟨ls q, [], by simp, rfl⟩
      | some e =>
        obtain ⟨pre, post, hl⟩ := List.append_of_mem (h.lists.queued_iff.mp (hemp e rfl))
        exact ⟨pre, e :: post, hl, rfl⟩
    obtain ⟨t, heq', hm⟩ := insq_acted hg hloose hl
    rw [he] at heq' hm
    cases heq.symm.trans heq'
    exact ⟨_, _, hkeep hb, hm⟩
  | @getq _ _ q r heq =>
    obtain ⟨t, heq', hm⟩ := getq_acted h q
    cases heq.symm.trans heq'
    exact ⟨_, _, fun _ _ _ => rfl, hm⟩
  | @rmvq _ _ q mp hq heq =>
    obtain ⟨pre, post, hl⟩ := List.append_of_mem (h.lists.queued_iff.mp hq)
    obtain ⟨t, heq', hm⟩ := rmvq_acted h hl
    cases heq.symm.trans heq'
    exact ⟨_, _, fun _ _ _ => rfl, hm⟩
  | @flushq _ _ q flag heq =>
    obtain ⟨t, l', heq', -, hm⟩ := flushq_acted h q flag
    cases heq.symm.trans heq'
    exact ⟨_, _, fun _ _ _ => rfl, hm⟩
  | @canput _ _ o r heq =>
    obtain ⟨r', t, heq', hm⟩ := canput_acted h o
    cases heq.symm.trans heq'
    exact ⟨_, _, fun _ _ _ => rfl, hm⟩
  | @qenable _ _ q heq =>
    obtain ⟨t, heq', hs, -⟩ := qenable_spec hr q
    cases heq.symm.trans heq'
    refine ⟨ls, ch, fun _ _ _ => rfl, h.same (fun x => ?_) hs.size (by rw [hs.pool]) hs.run
      (fun _ _ _ => by rw [hs.pool]; exact ⟨rfl, rfl⟩) (fun _ _ _ _ _ => by rw [hs.pool])
      (by simp [Act.takes])⟩
    rw [Queue.calm, hs.core x]
    rfl
  | noenable q b =>
    refine ⟨ls, ch, fun _ _ _ => rfl, h.same (fun x => ?_) rfl rfl ⟨rl, hr.setQ rfl rfl⟩
      (fun _ _ _ => ⟨rfl, rfl⟩) (fun _ _ _ _ _ => rfl) (by simp [Act.takes])⟩
    by_cases hx : x = q
    · rw [hx, Streams.setQ_self]
      rfl
    · rw [Streams.setQ_of_ne hx]
  | @queuerun _ _ q heq =>
    obtain ⟨hrun, hp, hn, hcore⟩ := runq_spec hr heq
    refine ⟨ls, ch, fun _ _ _ => rfl, h.same (fun x => ?_) hn (by rw [hp]) hrun
      (fun _ _ _ => by rw [hp]; exact ⟨rfl, rfl⟩) (fun _ _ _ _ _ => by rw [hp])
      (by simp [Act.takes])⟩
    rw [Queue.calm, hcore x]
    rfl
  | other k hk hq =>
    refine ⟨ls, ch, fun _ _ _ => rfl, h.same (fun _ => rfl) rfl hk
      ⟨rl, hr.seg, hr.tail, hr.nodup, hr.enab⟩ (fun x m hm => ?_) (fun x m hm b hb => ?_)
      (by simp [Act.takes])⟩
    · have hm' := hq x m (h.lists.queued_iff.mpr hm)
      exact ⟨hm'.1, hm'.2.1⟩
    · exact (hq x m (h.lists.queued_iff.mpr hm)).2.2 b ((h.lists.within_iff hm).mpr hb)

end Svr32.Stream
