import Svr32.Stream.Place

/-! Enabling queues: the run list, and the nearest back queue that has a service procedure. -/
namespace Svr32.Stream
open Svr32.Lib
variable {s s' : Streams} {q b x : Nat} {rl : List Nat}

/- The links of the run list. -/
def Streams.link (s : Streams) (q : Nat) : Option Nat := (s.q q).qLink

theorem Streams.setQ_self (q : Nat) (v : Queue) (s : Streams) : (s.setQ q v).q q = v :=
  Function.update_self _ _ _

theorem Streams.setQ_of_ne (h : x ≠ q) (v : Queue) (s : Streams) : (s.setQ q v).q x = s.q x :=
  Function.update_of_ne h _ _

@[simp] theorem Streams.setQ_pool (q : Nat) (v : Queue) (s : Streams) :
    (s.setQ q v).pool = s.pool := rfl

@[simp] theorem Streams.setQ_nqueue (q : Nat) (v : Queue) (s : Streams) :
    (s.setQ q v).nqueue = s.nqueue := rfl

@[simp] theorem Streams.setQ_qhead (q : Nat) (v : Queue) (s : Streams) :
    (s.setQ q v).qhead = s.qhead := rfl

@[simp] theorem Streams.setQ_qtail (q : Nat) (v : Queue) (s : Streams) :
    (s.setQ q v).qtail = s.qtail := rfl

/- The run list has the enabled queues. -/
structure RunList (s : Streams) (rl : List Nat) : Prop where
  seg : Seg s.link s.qhead rl
  tail : s.qtail = rl.getLast?
  nodup : rl.Nodup
  enab : ∀ q, (s.q q).qenab = true ↔ q ∈ rl

/- All of a queue but its place on the run list. -/
def Queue.core (v : Queue) : Queue := { v with qLink := none, qenab := false }

/- Queues have been enabled, and nothing else has changed. -/
structure Sched (s s' : Streams) : Prop where
  pool : s'.pool = s.pool
  size : s'.nqueue = s.nqueue
  core : ∀ x, (s'.q x).core = (s.q x).core
  run : ∃ rl, RunList s' rl
  enab : ∀ x, (s.q x).qenab → (s'.q x).qenab

theorem Sched.refl (h : RunList s rl) : Sched s s :=
  ⟨rfl, rfl, fun _ => rfl, ⟨rl, h⟩, fun _ hx => hx⟩

/-- qenable puts a queue with a service procedure at the end of the run list, once. -/
theorem qenable_spec (h : RunList s rl) (q : Nat) :
    ∃ s', qenable q s = some s' ∧ Sched s s' ∧ ((s.q q).srvp → (s'.q q).qenab) := by
  by_cases hsrv : (s.q q).srvp
  swap
  · exact ⟨s, by simp [qenable, hsrv], .refl h, fun hs => absurd hs hsrv⟩
  by_cases hen : (s.q q).qenab
  · exact ⟨s, by simp [qenable, hen], .refl h, fun _ => hen⟩
  have hq : q ∉ rl := fun hm => hen ((h.enab q).mpr hm)
  have hseg : Seg (Function.update s.link q none) s.qhead rl :=
    h.seg.congr fun y hy => Function.update_of_ne (fun he : y = q => hq (he ▸ hy)) _ _
  rcases List.eq_nil_or_concat' rl with rfl | ⟨pre, t, rfl⟩
  · have hhead : s.qhead = none := h.seg
    have heq : qenable q s = some { s.setQ q { s.q q with qenab := true, qLink := none } with
        qhead := some q, qtail := some q, qrunflag := true } := by
      simp [qenable, enlist, hsrv, hen, hhead, Streams.setQ]
    refine ⟨_, heq, ⟨rfl, rfl, fun x => ?_, ⟨[q], ?_⟩, fun x hx => ?_⟩,
      fun _ => by simp [Streams.setQ]⟩
    · by_cases hx : x = q <;> simp [Streams.setQ, Queue.core, hx]
    · refine ⟨⟨rfl, by simp [Seg, Streams.link, Streams.setQ]⟩, rfl, by simp, fun x => ?_⟩
      by_cases hx : x = q
      · simp [Streams.setQ, hx]
      · have hoff : (s.q x).qenab = true ↔ False := by simpa using h.enab x
        simp [Streams.setQ, hx, hoff]
    · by_cases hxq : x = q
      · simp [Streams.setQ, hxq]
      · simpa [Streams.setQ, hxq] using hx
  · have htail : s.qtail = some t := by rw [h.tail, List.getLast?_concat]
    have htq : t ≠ q := fun he => hq (by simp [he])
    have hsome : s.qhead ≠ none := by
      rw [h.seg.head]
      simp
    have heq : qenable q s = some { ((s.setQ q { s.q q with qenab := true }).setQ t
        { s.q t with qLink := some q }).setQ q { s.q q with qenab := true, qLink := none } with
        qtail := some q, qrunflag := true } := by
      obtain ⟨f, hhead⟩ := Option.ne_none_iff_exists'.mp hsome
      simp [qenable, enlist, hsrv, hen, hhead, htail, Streams.setQ_self, Streams.setQ_of_ne htq,
        Streams.setQ_of_ne (Ne.symm htq)]
    refine ⟨_, heq, ⟨rfl, rfl, fun x => ?_, ⟨pre ++ [t, q], ?_⟩, fun x hx => ?_⟩,
      fun _ => by simp [Streams.setQ]⟩
    · by_cases hx : x = q
      · simp [Streams.setQ, Queue.core, hx]
      · by_cases hxt : x = t <;> simp [Streams.setQ, Queue.core, hx, hxt, htq]
    · have happ := hseg.append h.nodup hq (Function.update_self _ _ _)
      refine ⟨?_, by simp, ?_, fun x => ?_⟩
      · refine Seg.congr happ fun y _ => ?_
        by_cases hy : y = q
        · simp [Streams.link, Streams.setQ, hy, Ne.symm htq]
        · by_cases hyt : y = t <;> simp [Streams.link, Streams.setQ, hy, hyt, htq]
      · have hnd : (pre ++ [t] ++ [q]).Nodup := List.nodup_append.mpr
          ⟨h.nodup, by simp, fun a ha b hb => by
            rw [List.mem_singleton.mp hb]
            exact fun he => hq (he ▸ ha)⟩
        simpa using hnd
      · have hon := h.enab x
        by_cases hx : x = q
        · simp [Streams.setQ, hx]
        · by_cases hxt : x = t
          · simp [Streams.setQ, hxt, htq, (h.enab t).mpr (by simp)]
          · simp only [List.mem_append, List.mem_singleton, hxt, or_false] at hon
            simp [Streams.setQ, hx, hxt, hon]
    · by_cases hxq : x = q
      · simp [Streams.setQ, hxq]
      · by_cases hxt : x = t <;> simpa [Streams.setQ, hxq, hxt, htq] using hx

/- How queues are linked into streams: backq goes back along q_next, and each stream ends. -/
structure Wired (s : Streams) : Prop where
  back : ∀ q b, backq s q = some b ↔ (s.q b).qNext = some q
  rank : ∃ r : Nat → Nat, (∀ q, r q < s.nqueue) ∧ ∀ q n, (s.q q).qNext = some n → r n < r q

/- What a stream is made of. -/
def Queue.wiring (v : Queue) : Option Nat × Bool × Bool := (v.qNext, v.srvp, v.qreadr)

theorem otherq_congr (hw : ∀ x, (s'.q x).wiring = (s.q x).wiring) (q : Nat) :
    otherq q s' = otherq q s := by
  have hr : (s'.q q).qreadr = (s.q q).qreadr := congrArg (fun v => v.2.2) (hw q)
  rw [otherq, otherq, hr]

theorem backq_congr (hw : ∀ x, (s'.q x).wiring = (s.q x).wiring) (q : Nat) :
    backq s' q = backq s q := by
  have hn : (s'.q (otherq q s)).qNext = (s.q (otherq q s)).qNext :=
    congrArg Prod.fst (hw (otherq q s))
  rw [backq, backq, otherq_congr hw, hn]
  exact congrArg (fun f => Option.map f _) (funext fun x => otherq_congr hw x)

theorem Wired.congr (h : Wired s) (hw : ∀ x, (s'.q x).wiring = (s.q x).wiring)
    (hn : s'.nqueue = s.nqueue) : Wired s' := by
  have hnext : ∀ x, (s'.q x).qNext = (s.q x).qNext := fun x => congrArg Prod.fst (hw x)
  obtain ⟨r, hr, hlt⟩ := h.rank
  refine ⟨fun q b => ?_, r, ?_, fun q n hq => ?_⟩
  · rw [backq_congr hw, hnext]
    exact h.back q b
  · rw [hn]
    exact hr
  · rw [hnext] at hq
    exact hlt q n hq

/- The nearest back queue of `q` with a service procedure is `b`. -/
inductive Nearest (s : Streams) : Nat → Nat → Prop
  | here {q b : Nat} : backq s q = some b → (s.q b).srvp → Nearest s q b
  | skip {q a b : Nat} : backq s q = some a → ¬ (s.q a).srvp → Nearest s a b → Nearest s q b

theorem Nearest.congr (h : Nearest s q b) (hw : ∀ x, (s'.q x).wiring = (s.q x).wiring) :
    Nearest s' q b := by
  have hsrv : ∀ x, (s'.q x).srvp = (s.q x).srvp := fun x => congrArg (fun v => v.2.1) (hw x)
  induction h with
  | here hb hs => exact .here (by rw [backq_congr hw, hb]) (by rwa [hsrv])
  | skip hb hs _ ih => exact .skip (by rw [backq_congr hw, hb]) (by rwa [hsrv]) ih

theorem Nearest.srvp (h : Nearest s q b) : (s.q b).srvp := by
  induction h with
  | here _ hs => exact hs
  | skip _ _ _ ih => exact ih

theorem backsrv_loop (h : Wired s) {r : Nat → Nat} (hr : ∀ q, r q < s.nqueue)
    (hlt : ∀ q n, (s.q q).qNext = some n → r n < r q) (fuel q : Nat)
    (hfuel : s.nqueue ≤ r q + fuel + 1) :
    ∃ o, backsrv s fuel (backq s q) = some o ∧ ∀ b, Nearest s q b → o = some b := by
  induction fuel generalizing q with
  | zero =>
    have hb : backq s q = none := by
      cases hb : backq s q with
      | none => rfl
      | some b =>
        have hrank := hlt b q ((h.back q b).mp hb)
        have hrb := hr b
        omega
    refine ⟨none, by rw [hb]; rfl, fun b hn => ?_⟩
    cases hn with
    | here hq _ => cases hb.symm.trans hq
    | skip hq _ _ => cases hb.symm.trans hq
  | succ n ih =>
    cases hb : backq s q with
    | none =>
      refine ⟨none, rfl, fun b hn => ?_⟩
      cases hn with
      | here hq _ => cases hb.symm.trans hq
      | skip hq _ _ => cases hb.symm.trans hq
    | some a =>
      have hrank := hlt a q ((h.back q a).mp hb)
      by_cases hs : (s.q a).srvp
      · refine ⟨some a, by simp [backsrv, hs], fun b hn => ?_⟩
        cases hn with
        | here hq _ => exact hb.symm.trans hq
        | skip hq hno _ =>
          cases hb.symm.trans hq
          exact absurd hs hno
      · obtain ⟨o, ho, hnear⟩ := ih a (by omega)
        refine ⟨o, by simpa [backsrv, hs] using ho, fun b hn => ?_⟩
        cases hn with
        | here hq hsb =>
          cases hb.symm.trans hq
          exact absurd hsb hs
        | skip hq _ hn =>
          cases hb.symm.trans hq
          exact hnear b hn

/-- The nearest back queue with a service procedure is enabled. -/
theorem wakeback_spec (h : RunList s rl) (hw : Wired s) (q : Nat) :
    ∃ s', wakeback q s = some s' ∧ Sched s s' ∧ ∀ b, Nearest s q b → (s'.q b).qenab := by
  obtain ⟨r, hr, hlt⟩ := hw.rank
  obtain ⟨o, ho, hnear⟩ := backsrv_loop hw hr hlt s.nqueue q (by omega)
  cases o with
  | none =>
    refine ⟨s, by simp [wakeback, ho], .refl h, fun b hb => ?_⟩
    cases hnear b hb
  | some a =>
    obtain ⟨s', hen, hsch, hon⟩ := qenable_spec h a
    refine ⟨s', by simp [wakeback, ho, hen], hsch, fun b hb => ?_⟩
    cases hnear b hb
    exact hon hb.srvp

/-- canput looks at a queue that `q` leads to; whoever is nearest behind `q` is nearest behind it. -/
theorem nextsrv_spec (hw : Wired s) (q : Nat) :
    ∃ x, nextsrv s s.nqueue q = some x ∧ ∀ w, Nearest s q w → Nearest s x w := by
  obtain ⟨r, hr, hlt⟩ := hw.rank
  have hloop : ∀ fuel q, r q < fuel → ∃ x, nextsrv s fuel q = some x ∧
      ∀ w, Nearest s q w → Nearest s x w := by
    intro fuel
    induction fuel with
    | zero => exact fun q hq => absurd hq (Nat.not_lt_zero _)
    | succ n ih =>
      intro q hfuel
      cases hq : (s.q q).qNext with
      | none => exact ⟨q, by simp only [nextsrv, hq], fun w hn => hn⟩
      | some a =>
        by_cases hs : (s.q q).srvp
        · exact ⟨q, by simp only [nextsrv, hq, hs, if_true], fun w hn => hn⟩
        · have hrank := hlt q a hq
          obtain ⟨x, hx, hnear⟩ := ih a (by omega)
          refine ⟨x, by simp [nextsrv, hq, hs, hx], fun w hn => ?_⟩
          exact hnear w (.skip ((hw.back a q).mpr hq) hs hn)
  exact hloop s.nqueue q (hr q)

end Svr32.Stream

/-! putq, putbq, insq, getq and rmvq: the list, the weighted count and the flags together. -/
namespace Svr32.Stream
open Svr32.Lib
variable {s s' t : Streams} {ls ch : Nat → List Nat} {q bp w x : Nat} {l l' rl pre post : List Nat}
  {v : Queue}

namespace Queue

/- Flow control of a queue that gets a message of the weight `w`. -/
def add (w : Nat) (v : Queue) : Queue :=
  { v with
    qCount := v.qCount + BitVec.ofNat 16 w
    qfull := v.qfull || decide (v.qHiwat ≤ v.qCount + BitVec.ofNat 16 w) }

/- Flow control of a queue that loses one. -/
def sub (w : Nat) (v : Queue) : Queue :=
  { v with
    qCount := v.qCount - BitVec.ofNat 16 w
    qfull := v.qfull && !decide (v.qCount - BitVec.ofNat 16 w < v.qHiwat) }

/- Nobody waits to write once the count is down to q_lowat. -/
def low (v : Queue) : Queue := { v with qwantw := v.qwantw && !decide (v.qCount ≤ v.qLowat) }

/- A queue without its place on lists. -/
def meter (v : Queue) : Queue :=
  { v with qFirst := none, qLast := none, qLink := none, qenab := false }

theorem low_of_le (h : v.qCount ≤ v.qLowat) : v.low = { v with qwantw := false } := by
  simp [low, h]

theorem low_of_not (h : ¬ (v.qCount ≤ v.qLowat ∧ v.qwantw)) : v.low = v := by
  by_cases hc : v.qCount ≤ v.qLowat
  · have hw : v.qwantw = false := by simpa [hc] using h
    rw [low_of_le hc, ← hw]
  · simp [low, hc]

@[simp] theorem meter_core (v : Queue) : v.core.meter = v.meter := rfl

@[simp] theorem meter_flow (v : Queue) : v.flow.meter = v.meter := rfl

end Queue

theorem addCount_eq (h : Msg s.pool bp l) (q : Nat) :
    addCount q bp s = some (s.setQ q ((s.q q).add (s.pool.weight l))) := by
  simp only [addCount, h.weigh, Option.bind_eq_bind, Option.bind_some, Option.pure_def]
  by_cases hf : (s.q q).qHiwat ≤ (s.q q).qCount + BitVec.ofNat 16 (s.pool.weight l)
  · simp [Queue.add, hf]
  · simp [Queue.add, hf]

theorem subCount_eq (h : Msg s.pool bp l) (q : Nat) :
    subCount q bp s = some (s.setQ q ((s.q q).sub (s.pool.weight l))) := by
  simp only [subCount, h.weigh, Option.bind_eq_bind, Option.bind_some, Option.pure_def]
  by_cases hf : (s.q q).qCount - BitVec.ofNat 16 (s.pool.weight l) < (s.q q).qHiwat
  · simp [Queue.sub, hf]
  · simp [Queue.sub, hf]

/- The queue `q` is `v` now, but for its place on the run list, and queues may have been enabled. -/
structure Steady (q : Nat) (v : Queue) (s s' : Streams) : Prop where
  pool : s'.pool = s.pool
  size : s'.nqueue = s.nqueue
  others : ∀ x, x ≠ q → (s'.q x).core = (s.q x).core
  self : (s'.q q).core = v.core
  run : ∃ rl, RunList s' rl
  enab : ∀ x, (s.q x).qenab → (s'.q x).qenab

theorem RunList.setQ (h : RunList s rl) (hl : v.qLink = (s.q q).qLink)
    (he : v.qenab = (s.q q).qenab) : RunList (s.setQ q v) rl := by
  refine ⟨h.seg.congr fun y _ => ?_, h.tail, h.nodup, fun y => ?_⟩
  · by_cases hy : y = q
    · rw [Streams.link, hy, Streams.setQ_self, hl]
      rfl
    · rw [Streams.link, Streams.setQ_of_ne hy]
      rfl
  · by_cases hy : y = q
    · rw [hy, Streams.setQ_self, he]
      exact h.enab q
    · rw [Streams.setQ_of_ne hy]
      exact h.enab y

/-- A queue is set, and then queues are enabled. -/
theorem Steady.of_sched (he : v.qenab = (s.q q).qenab) (h : Sched (s.setQ q v) s') :
    Steady q v s s' := by
  refine ⟨h.pool, h.size, fun x hx => ?_, ?_, h.run, fun x hx => h.enab x ?_⟩
  · rw [h.core, Streams.setQ_of_ne hx]
  · rw [h.core, Streams.setQ_self]
  · by_cases hxq : x = q
    · rw [hxq] at hx
      rwa [hxq, Streams.setQ_self, he]
    · rwa [Streams.setQ_of_ne hxq]

/- The writers behind `q` have been woken when they waited. -/
def Woke (q : Nat) (s s' : Streams) : Prop :=
  (s.q q).qwantw → ¬ (s'.q q).qwantw → ∀ b, Nearest s q b → (s'.q b).qenab

theorem Queue.core_wantw {v v' : Queue} (h : v.core = v'.core) : v.qwantw = v'.qwantw :=
  congrArg (fun u => u.qwantw) h

theorem setQ_wiring (hv : v.wiring = (s.q q).wiring) (x : Nat) :
    ((s.setQ q v).q x).wiring = (s.q x).wiring := by
  by_cases hx : x = q
  · rw [hx, Streams.setQ_self, hv]
  · rw [Streams.setQ_of_ne hx]

/-- Low water: QWANTW goes, and the nearest back queue with a service procedure is enabled. -/
theorem lowWater_spec (h : RunList s rl) (hw : Wired s) (q : Nat) :
    ∃ s', lowWater q s = some s' ∧ Steady q (s.q q).low s s' ∧ Woke q s s' := by
  by_cases hl : (s.q q).qCount ≤ (s.q q).qLowat ∧ (s.q q).qwantw
  · have hv := Queue.low_of_le hl.1
    have hrun := h.setQ (q := q) (v := { s.q q with qwantw := false }) rfl rfl
    have hwire := setQ_wiring (s := s) (q := q) (v := { s.q q with qwantw := false }) rfl
    obtain ⟨s', heq, hs, hon⟩ := wakeback_spec hrun (hw.congr hwire rfl) q
    refine ⟨s', by rw [lowWater, if_pos hl, heq], ?_, fun _ _ b hb => hon b (hb.congr hwire)⟩
    rw [hv]
    exact .of_sched rfl hs
  · have hv := Queue.low_of_not hl
    refine ⟨s, by rw [lowWater, if_neg hl], ?_, fun hon hoff => absurd hon hoff⟩
    rw [hv]
    exact ⟨rfl, rfl, fun _ _ => rfl, rfl, ⟨rl, h⟩, fun _ hx => hx⟩

/- An operation on the queue `q` has left the messages `l'` on it, and its flow control is `v`.
   The messages `fr` have been freed. -/
structure Did (ls ch : Nat → List Nat) (q : Nat) (l' fr : List Nat) (v : Queue)
    (s s' : Streams) : Prop where
  lists : Lists s' (Function.update ls q l') ch
  size : s'.nqueue = s.nqueue
  blocks : s'.pool.nmblock = s.pool.nmblock
  others : ∀ x, x ≠ q → (s'.q x).core = (s.q x).core
  self : (s'.q q).meter = v
  run : ∃ rl, RunList s' rl
  enab : ∀ x, (s.q x).qenab → (s'.q x).qenab
  view : ∀ b, (∀ m ∈ fr, b ∉ ch m) → s'.pool.view b = s.pool.view b

theorem Lists.congr (h : Lists s ls ch) (hp : s'.pool = s.pool)
    (hf : ∀ x, (s'.q x).qFirst = (s.q x).qFirst) (hl : ∀ x, (s'.q x).qLast = (s.q x).qLast) :
    Lists s' ls ch := by
  refine ⟨fun x => ?_, fun x m hm => ?_, h.apart⟩
  · rw [hp, hf, hl]
    exact h.queue x
  · rw [hp]
    exact h.msg x m hm

theorem Queue.core_ends {v v' : Queue} (h : v.core = v'.core) :
    v.qFirst = v'.qFirst ∧ v.qLast = v'.qLast :=
  ⟨congrArg (fun u => u.qFirst) h, congrArg (fun u => u.qLast) h⟩

theorem Relinked.runList (h : Relinked q s s') (hr : RunList s rl) : RunList s' rl := by
  have hlink : ∀ x, (s'.q x).qLink = (s.q x).qLink := fun x => congrArg (fun u => u.qLink) (h.flow x)
  have henab : ∀ x, (s'.q x).qenab = (s.q x).qenab := fun x => congrArg (fun u => u.qenab) (h.flow x)
  refine ⟨?_, ?_, hr.nodup, fun x => ?_⟩
  · rw [h.run.2.1]
    exact hr.seg.congr fun y _ => hlink y
  · rw [h.run.2.2, hr.tail]
  · rw [henab]
    exact hr.enab x

theorem Relinked.wiring (h : Relinked q s s') (x : Nat) : (s'.q x).wiring = (s.q x).wiring :=
  congrArg (fun u => (u.qNext, u.srvp, u.qreadr)) (h.flow x)

theorem Relinked.wired (h : Relinked q s s') (hw : Wired s) : Wired s' :=
  hw.congr h.wiring h.run.1

/-- After an operation the flow control of the queue changes once more. -/
theorem Did.steady {fr : List Nat} {u : Queue} (h : Did ls ch q l' fr u s t)
    (hs : Steady q v t s') (hf : v.qFirst = (t.q q).qFirst) (hla : v.qLast = (t.q q).qLast) :
    Did ls ch q l' fr v.meter s s' := by
  have hself := Queue.core_ends hs.self
  have hother : ∀ x, x ≠ q → (s'.q x).qFirst = (t.q x).qFirst ∧ (s'.q x).qLast = (t.q x).qLast :=
    fun x hx => Queue.core_ends (hs.others x hx)
  refine ⟨h.lists.congr hs.pool (fun x => ?_) fun x => ?_, hs.size.trans h.size, ?_,
    fun x hx => (hs.others x hx).trans (h.others x hx), ?_, hs.run,
    fun x hx => hs.enab x (h.enab x hx), fun b hb => ?_⟩
  · by_cases hx : x = q
    · rw [hx, hself.1, hf]
    · exact (hother x hx).1
  · by_cases hx : x = q
    · rw [hx, hself.2, hla]
    · exact (hother x hx).2
  · rw [hs.pool, h.blocks]
  · rw [← Queue.meter_core, hs.self, Queue.meter_core]
  · rw [hs.pool, h.view b hb]

/-- First the links of messages change, then the flow control. -/
theorem Relinked.did (h : Relinked q s t) (hr : RunList s rl)
    (hl : Lists t (Function.update ls q l') ch) (hs : Steady q v t s')
    (hf : v.qFirst = (t.q q).qFirst) (hla : v.qLast = (t.q q).qLast) :
    Did ls ch q l' [] v.meter s s' := by
  have hbase : Did ls ch q l' [] (t.q q).meter s t := by
    refine ⟨hl, h.run.1, h.size, fun x hx => ?_, rfl, ⟨rl, h.runList hr⟩, fun x hx => ?_,
      fun b _ => by rw [h.view]⟩
    · have hflow := congrArg Queue.core (h.flow x)
      have hends := h.ends x hx
      have hcore : ∀ u : Queue, u.core = { u.flow.core with qFirst := u.qFirst, qLast := u.qLast } :=
        fun _ => rfl
      rw [hcore (t.q x), hflow, hends.1, hends.2]
      rfl
    · rwa [show (t.q x).qenab = (s.q x).qenab from congrArg (fun u => u.qenab) (h.flow x)]
  exact hbase.steady hs hf hla

theorem Relinked.meter (h : Relinked q s s') (x : Nat) : (s'.q x).meter = (s.q x).meter := by
  rw [← Queue.meter_flow, h.flow, Queue.meter_flow]

/-- How putq, putbq and insq end: the weight counts, and the queue may be enabled. -/
theorem put_end (h : RunList s rl) (hm : Msg s.pool bp l) (q : Nat) (c : Streams → Prop)
    [DecidablePred c] :
    ∃ s', (addCount q bp s).bind (fun s => if c s then qenable q s else some s) = some s' ∧
      Steady q ((s.q q).add (s.pool.weight l)) s s' := by
  have hrun := h.setQ (q := q) (v := (s.q q).add (s.pool.weight l)) rfl rfl
  rw [addCount_eq hm, Option.bind_some]
  by_cases hc : c (s.setQ q ((s.q q).add (s.pool.weight l)))
  · obtain ⟨s', heq, hs, -⟩ := qenable_spec hrun q
    exact ⟨s', by rw [if_pos hc, heq], .of_sched rfl hs⟩
  · exact ⟨_, if_neg hc, .of_sched rfl (.refl hrun)⟩

/- A message has come between `pre` and `post`. -/
structure Put (ls ch : Nat → List Nat) (q bp : Nat) (pre post : List Nat)
    (s s' : Streams) : Prop where
  split : ls q = pre ++ post
  did : Did ls ch q (pre ++ bp :: post) [] ((s.q q).meter.add (s.pool.weight (ch bp))) s s'
  next : ∀ y, y ∉ ls q → y ≠ bp → s'.pool.next y = s.pool.next y

/-- A message is linked, and then it counts. -/
theorem Inserted.put (hi : Inserted q bp pre post s t) (h : Lists s ls ch)
    (hr : RunList s rl) (hb : Loose s ls ch bp) (hl : ls q = pre ++ post)
    (c : Streams → Prop) [DecidablePred c] :
    ∃ s', (addCount q bp t).bind (fun s => if c s then qenable q s else some s) = some s' ∧
      Put ls ch q bp pre post s s' := by
  have hlt := h.insert hb hl hi
  have hm : Msg t.pool bp (ch bp) := hlt.msg q bp (by simp)
  obtain ⟨s', heq, hs⟩ := put_end (hi.toRelinked.runList hr) hm q c
  refine ⟨s', heq, hl, ?_, fun y hy hyb => ?_⟩
  · have hd := hi.toRelinked.did hr hlt hs rfl rfl
    have hw : t.pool.weight (ch bp) = s.pool.weight (ch bp) :=
      weight_congr fun b _ => by rw [hi.view]
    have hv : ((t.q q).add (t.pool.weight (ch bp))).meter =
        (s.q q).meter.add (s.pool.weight (ch bp)) := by
      rw [hw, ← hi.toRelinked.meter q]
      rfl
    rwa [hv] at hd
  · rw [hs.pool, hi.next y hyb, if_neg]
    intro he
    exact hy (hl ▸ List.mem_append_left post (List.mem_of_mem_getLast? he))

/-- putq puts a message behind those of its class and above, or at the end. -/
theorem putq_spec (h : Lists s ls ch) (hr : RunList s rl) (hb : Loose s ls ch bp) (q : Nat) :
    ∃ s' pre post, putq q bp s = some s' ∧ Put ls ch q bp pre post s s' ∧
      ((post = [] ∧ ∀ y, pre.getLast? = some y → s.pool.cls bp ≤ s.pool.cls y) ∨
        ((∀ x ∈ pre, s.pool.cls bp ≤ s.pool.cls x) ∧
          ∃ y post', post = y :: post' ∧ ¬ s.pool.cls bp ≤ s.pool.cls y)) := by
  obtain ⟨t, pre, post, hlink, hl, hi, hplace⟩ := putqLink_spec h (hb.not_mem q) (s.pool.cls bp)
  obtain ⟨s', heq, hput⟩ := hi.put h hr hb hl fun s =>
    QNORM < t.pool.cls bp ∨ (!(s.q q).qnoenb ∧ (s.q q).qwantr)
  have hcls : t.pool.cls bp = s.pool.cls bp := by
    simp only [Pool.cls, Pool.btype, hi.view]
  rw [hcls] at heq
  refine ⟨s', pre, post, ?_, hput, hplace⟩
  simp only [putq, hb.msg.queclass, hlink, Option.bind_eq_bind, Option.bind_some]
  exact heq

/-- putbq puts a message in front of those of its class and below. -/
theorem putbq_spec (h : Lists s ls ch) (hr : RunList s rl) (hb : Loose s ls ch bp) (q : Nat) :
    ∃ s' pre post, putbq q bp s = some s' ∧ Put ls ch q bp pre post s s' ∧
      (∀ x ∈ pre, s.pool.cls bp < s.pool.cls x) ∧
      ∀ x, post.head? = some x → ¬ s.pool.cls bp < s.pool.cls x := by
  obtain ⟨t, pre, post, hlink, hl, hi, hplace⟩ := putbqLink_spec h (hb.not_mem q) (s.pool.cls bp)
  obtain ⟨s', heq, hput⟩ := hi.put h hr hb hl fun u =>
    QNORM < s.pool.cls bp ∨ (!(u.q q).qnoenb ∧ (u.q q).qwantr)
  refine ⟨s', pre, post, ?_, hput, hplace⟩
  simp only [putbq, hb.msg.queclass, hlink, Option.bind_eq_bind, Option.bind_some]
  exact heq

/-- insq puts a message in front of `emp`, or at the end. -/
theorem insq_spec (h : Lists s ls ch) (hr : RunList s rl) (hb : Loose s ls ch bp)
    (hl : ls q = pre ++ post) :
    ∃ s', insq q post.head? bp s = some s' ∧ Put ls ch q bp pre post s s' := by
  have hi := insqLink_spec h (hb.not_mem q) hl rfl
  exact hi.put h hr hb hl fun u => !(u.q q).qnoenb ∧ (u.q q).qwantr

/-- How getq and rmvq end. -/
theorem take_end (hi : Relinked q s t) (hr : RunList s rl) (hw : Wired s)
    (hl : Lists t (Function.update ls q l') ch) (c : BitVec 16) (f r : Bool) :
    ∃ s', lowWater q (t.setQ q { t.q q with qCount := c, qfull := f, qwantr := r }) = some s' ∧
      Did ls ch q l' [] { (s.q q).meter with qCount := c, qfull := f, qwantr := r }.low s s' ∧
      Woke q s s' := by
  have hwire := setQ_wiring (s := t) (q := q)
    (v := { t.q q with qCount := c, qfull := f, qwantr := r }) rfl
  have hrun := (hi.runList hr).setQ (q := q)
    (v := { t.q q with qCount := c, qfull := f, qwantr := r }) rfl rfl
  obtain ⟨s', heq, hs, hwoke⟩ := lowWater_spec hrun ((hi.wired hw).congr hwire rfl) q
  have hst : Steady q { t.q q with qCount := c, qfull := f, qwantr := r }.low t s' := by
    refine ⟨hs.pool, hs.size, fun x hx => ?_, ?_, hs.run, fun x hx => hs.enab x ?_⟩
    · rw [hs.others x hx, Streams.setQ_of_ne hx]
    · rw [hs.self, Streams.setQ_self]
    · by_cases hxq : x = q
      · rw [hxq] at hx
        rw [hxq, Streams.setQ_self]
        exact hx
      · rwa [Streams.setQ_of_ne hxq]
  refine ⟨s', heq, ?_, fun hon hoff b hb => hwoke ?_ hoff b ?_⟩
  · have hd := hi.did hr hl hst rfl rfl
    rw [← hi.meter q]
    exact hd
  · rw [Streams.setQ_self]
    have hsame : (t.q q).qwantw = (s.q q).qwantw := congrArg (fun u => u.qwantw) (hi.flow q)
    exact hsame.trans hon
  · exact (hb.congr hi.wiring).congr hwire

end Svr32.Stream
