import Svr32.Lib.System
import Svr32.Callout.Code

/-! Runs of timeout, untimeout, clock ticks and timein. The table never looks at
c_arg, so each entry's argument carries the call that queued it. -/
namespace Svr32.Callout
open Svr32.Lib
variable {F A : Type*}

/- The `serial`-th call of timeout, made at tick `queued`. -/
structure Call (F A : Type*) where
  serial : Nat
  fn : F
  arg : A
  tim : Int
  queued : Nat

def Call.deadline (c : Call F A) : Int := c.queued + c.tim

/- Earlier deadline first, then order of insertion. -/
def Call.before (c d : Call F A) : Prop :=
  c.deadline < d.deadline ∨ (c.deadline = d.deadline ∧ c.serial < d.serial)

/- `busy` while timein runs; `fired` and `cancelled` record the past. -/
structure World (F A : Type*) where
  callout : List (Callo F (Call F A))
  timeid : Int
  busy : Bool
  now : Nat
  serial : Nat
  fired : List (Callo F (Call F A) × Nat)
  cancelled : List (Call F A)

/- The entry untimeout(id) removes. -/
def victim (id : Int) (callout : List (Callo F (Call F A))) : Option (Call F A) :=
  ((callout.takeWhile fun c => c.cFunc.isSome).find? fun c => decide (c.cId = id)).map (·.cArg)

/- Everything but the clock may also happen while timein runs: its callbacks call
   timeout and untimeout. -/
inductive Step (vCall : Nat) : World F A → World F A → Prop where
  | timeout {w : World F A} {fn : F} {arg : A} {tim id : Int}
      {l : List (Callo F (Call F A))} (htim : 0 ≤ tim) (hint : tim < 2 ^ 31)
      (hcall : timeout vCall w.callout w.timeid fn ⟨w.serial, fn, arg, tim, w.now⟩ tim =
        .ok (l, id)) :
      Step vCall w { w with callout := l, timeid := id, serial := w.serial + 1 }
  | untimeout {w : World F A} {id : Int} {l : List (Callo F (Call F A))}
      (hcall : untimeout id w.callout = .ok l) :
      Step vCall w { w with
        callout := l, cancelled := w.cancelled ++ (victim id w.callout).toList }
  | tick {w : World F A} {l : List (Callo F (Call F A))} {poke : Bool}
      (hcall : clock w.callout = .ok (l, poke)) :
      Step vCall w { w with callout := l, now := w.now + 1 }
  | enter {w : World F A} (hbusy : w.busy = false) : Step vCall w { w with busy := true }
  | fire {w : World F A} {svcall : Callo F (Call F A)} {l : List (Callo F (Call F A))}
      (hbusy : w.busy = true) (hcall : timeinTurn w.callout = .ok (some (svcall, l))) :
      Step vCall w { w with callout := l, fired := w.fired ++ [(svcall, w.now)] }
  | leave {w : World F A} (hbusy : w.busy = true) (hcall : timeinTurn w.callout = .ok none) :
      Step vCall w { w with busy := false }

/- v.v_call: the check for a full table reads slot v_call-2. -/
structure VCall where
  slots : Nat
  two_le : 2 ≤ slots

/- At boot every slot is null and timeid is 0; the slots' other words are free. -/
def system (n : VCall) : System (World F A) where
  init w := w.callout.length = n.slots ∧ (∀ c ∈ w.callout, c.cFunc.isNone) ∧ w.timeid = 0 ∧
    w.busy = false ∧ w.now = 0 ∧ w.serial = 0 ∧ w.fired = [] ∧ w.cancelled = []
  step := Step n.slots

/- What a pending entry with key `r` knows about its call. -/
structure Pending (now serial : Nat) (r : Int × Ticket F (Call F A)) : Prop where
  key : r.1 = max 0 (r.2.arg.deadline - now)
  fn : r.2.fn = r.2.arg.fn
  id : r.2.id = i32 (r.2.arg.serial + 1)
  tim : 0 ≤ r.2.arg.tim ∧ r.2.arg.tim < 2 ^ 31
  queued : r.2.arg.queued ≤ now
  young : r.2.arg.serial < serial

/- What the log knows about an entry `f.1` that fired at tick `f.2`. -/
structure Fired (now serial : Nat) (f : Callo F (Call F A) × Nat) : Prop where
  fn : f.1.cFunc = some f.1.cArg.fn
  due : f.1.cArg.deadline ≤ f.2
  past : f.2 ≤ now
  young : f.1.cArg.serial < serial

/- The serials of all calls so far: still pending, fired, cancelled. -/
def serials (w : World F A) (pending : List (Int × Ticket F (Call F A))) : List Nat :=
  pending.map (·.2.arg.serial) ++ (w.fired.map (·.1.cArg.serial) ++ w.cancelled.map (·.serial))

/- The run invariant, over the entries `es` of the table. -/
structure Good (n : VCall) (w : World F A) (es : List (Int × Ticket F (Call F A))) : Prop where
  holds : Holds n.slots w.callout es
  nonneg : ∀ e ∈ es, 0 ≤ e.1
  timeid : w.timeid = i32 w.serial
  pending : ∀ r ∈ due 0 es, Pending w.now w.serial r
  order : (due 0 es).Pairwise fun r r' => r.2.arg.before r'.2.arg
  fired : ∀ f ∈ w.fired, Fired w.now w.serial f
  firedOrder : w.fired.Pairwise fun f f' => f.1.cArg.before f'.1.cArg
  firedFirst : ∀ f ∈ w.fired, ∀ r ∈ due 0 es, f.1.cArg.before r.2.arg
  once : (serials w (due 0 es)).Perm (List.range w.serial)

theorem Good.small {n : VCall} {w : World F A} {es : List (Int × Ticket F (Call F A))}
    (h : Good n w es) : ∀ r ∈ due 0 es, r.1 < 2 ^ 31 := by
  intro r hr
  have hp := h.pending r hr
  have hk := hp.key
  have ht := hp.tim
  have hq := hp.queued
  simp only [Call.deadline] at hk
  omega

theorem i32_succ (k : Nat) : i32 (i32 k + 1) = i32 ((k + 1 : Nat) : Int) := by
  simp only [i32]
  rw [Int.bmod_add_bmod, Nat.cast_add, Nat.cast_one]

theorem good_init {n : VCall} {w : World F A} (h : (system n).init w) : Good n w [] := by
  obtain ⟨hlen, hnull, htid, -, hnow, hser, hf, hc⟩ := h
  have hne : w.callout ≠ [] := by
    intro he
    have := n.two_le
    rw [he] at hlen
    simp only [List.length_nil] at hlen
    omega
  exact {
    holds := ⟨⟨w.callout, hne, hnull, rfl⟩, hlen⟩
    nonneg := by simp
    timeid := by rw [htid, hser]; rfl
    pending := by simp [due]
    order := by simp [due]
    fired := by simp [hf]
    firedOrder := by simp [hf]
    firedFirst := by simp [due]
    once := by simp [serials, hf, hc, hser, due] }

/-- A call that queues `c` now keeps the run invariant. -/
theorem good_timeout {n : VCall} {w : World F A} {es : List (Int × Ticket F (Call F A))}
    (h : Good n w es) {fn : F} {arg : A} {tim : Int} (htim : 0 ≤ tim) (hint : tim < 2 ^ 31)
    {l : List (Callo F (Call F A))}
    (hl : Holds n.slots l (insertDelta tim
      ⟨i32 (w.timeid + 1), ⟨w.serial, fn, arg, tim, w.now⟩, fn⟩ es)) :
    Good n { w with callout := l, timeid := i32 (w.timeid + 1), serial := w.serial + 1 }
      (insertDelta tim ⟨i32 (w.timeid + 1), ⟨w.serial, fn, arg, tim, w.now⟩, fn⟩ es) := by
  let c : Call F A := ⟨w.serial, fn, arg, tim, w.now⟩
  obtain ⟨l₁, l₂, hd, hins, h₁, h₂⟩ := insertLate_split tim
    (⟨i32 (w.timeid + 1), c, fn⟩ : Ticket F (Call F A)) (due_sorted 0 h.nonneg)
  have hdue : due 0 (insertDelta tim ⟨i32 (w.timeid + 1), c, fn⟩ es) =
      l₁ ++ (tim, ⟨i32 (w.timeid + 1), c, fn⟩) :: l₂ := by
    rw [due_insertDelta, zero_add, hins]
  have hord := h.order
  rw [hd] at hord
  obtain ⟨ho₁, ho₂, ho⟩ := List.pairwise_append.mp hord
  have hmem : ∀ r, r ∈ due 0 es ↔ r ∈ l₁ ∨ r ∈ l₂ := by simp [hd]
  have hpend : ∀ r ∈ due 0 es, Pending w.now (w.serial + 1) r :=
    fun r hr => { h.pending r hr with young := (h.pending r hr).young.trans (Nat.lt_succ_self _) }
  -- an entry in front of the new one has no later deadline, and is older
  have hfront : ∀ r ∈ l₁, r.2.arg.before c := by
    intro r hr
    have hp := h.pending r ((hmem r).mpr (.inl hr))
    have hk := hp.key
    have hle := h₁ r hr
    have hs := hp.young
    simp only [Call.before, Call.deadline, c] at hk ⊢
    omega
  have hback : ∀ r ∈ l₂, c.before r.2.arg := by
    intro r hr
    have hp := h.pending r ((hmem r).mpr (.inr hr))
    have hk := hp.key
    have hlt := h₂ r hr
    simp only [Call.before, Call.deadline, c] at hk ⊢
    omega
  exact {
    holds := hl
    nonneg := insertDelta_nonneg htim _ h.nonneg
    timeid := by rw [h.timeid, i32_succ]
    pending := by
      rw [hdue]
      intro r hr
      rcases List.mem_append.mp hr with hr | hr
      · exact hpend r ((hmem r).mpr (.inl hr))
      · rcases List.mem_cons.mp hr with rfl | hr
        · refine ⟨?_, rfl, ?_, ⟨htim, hint⟩, le_rfl, Nat.lt_succ_self _⟩
          · simp only [Call.deadline, c]
            omega
          · simp only [h.timeid, i32_succ, c, Nat.cast_add, Nat.cast_one]
        · exact hpend r ((hmem r).mpr (.inr hr))
    order := by
      rw [hdue]
      refine List.pairwise_append.mpr ⟨ho₁, List.pairwise_cons.mpr ⟨hback, ho₂⟩, ?_⟩
      intro r hr r' hr'
      rcases List.mem_cons.mp hr' with rfl | hr'
      · exact hfront r hr
      · exact ho r hr r' hr'
    fired := fun f hf =>
      { h.fired f hf with young := (h.fired f hf).young.trans (Nat.lt_succ_self _) }
    firedOrder := h.firedOrder
    firedFirst := by
      rw [hdue]
      intro f hf r hr
      rcases List.mem_append.mp hr with hr | hr
      · exact h.firedFirst f hf r ((hmem r).mpr (.inl hr))
      · rcases List.mem_cons.mp hr with rfl | hr
        · have hfd := (h.fired f hf).due
          have hfp := (h.fired f hf).past
          have hfs := (h.fired f hf).young
          simp only [Call.before, Call.deadline, c] at hfd ⊢
          omega
        · exact h.firedFirst f hf r ((hmem r).mpr (.inr hr))
    once := by
      have honce := h.once
      rw [hd] at honce
      rw [hdue, List.range_succ]
      simp only [serials, List.map_append, List.map_cons, List.append_assoc,
        List.cons_append] at honce ⊢
      exact (List.perm_middle.trans (honce.cons _)).trans (List.perm_append_singleton _ _).symm }

theorem find_eraseP_perm {β : Type*} (p : β → Bool) (l : List β) :
    ((l.find? p).toList ++ l.eraseP p).Perm l := by
  induction l with
  | nil => simp
  | cons b l ih =>
    cases h : p b with
    | true => simp [h]
    | false =>
      simp only [List.find?_cons, h, List.eraseP_cons, cond_false]
      exact List.perm_middle.trans (ih.cons b)

/-- The victim of untimeout(id) is the first entry that carries the id. -/
theorem victim_eq {n : VCall} {w : World F A} {es : List (Int × Ticket F (Call F A))}
    (h : Holds n.slots w.callout es) (id : Int) :
    victim id w.callout =
      ((due 0 es).find? fun r => decide (r.2.id = id)).map fun r => r.2.arg := by
  obtain ⟨⟨junk, hne, hnull, hc⟩, -⟩ := h
  obtain ⟨q, junk, rfl⟩ := List.exists_cons_of_ne_nil hne
  have hq : q.cFunc.isSome = false := by simpa using hnull q (by simp)
  have htake : w.callout.takeWhile (fun c => c.cFunc.isSome) = es.map slotOf := by
    have hsome : ∀ c ∈ es.map slotOf, c.cFunc.isSome = true := by
      intro c hc
      obtain ⟨e, -, rfl⟩ := List.mem_map.mp hc
      rfl
    rw [hc, List.takeWhile_append_of_pos hsome]
    simp [hq]
  have hfind : ∀ (b : Int) (l : List (Int × Ticket F (Call F A))),
      ((l.map slotOf).find? fun c => decide (c.cId = id)).map (·.cArg) =
        ((due b l).find? fun r => decide (r.2.id = id)).map fun r => r.2.arg := by
    intro b l
    induction l generalizing b with
    | nil => rfl
    | cons e l ih =>
      by_cases he : e.2.id = id
      · simp [due, he, slotOf]
      · simpa [due, he] using ih (b + e.1)
  rw [victim, htake, hfind 0]

/-- untimeout keeps the run invariant. -/
theorem good_untimeout {n : VCall} {w : World F A} {es : List (Int × Ticket F (Call F A))}
    (h : Good n w es) (id : Int) {l : List (Callo F (Call F A))}
    (hl : Holds n.slots l (eraseDelta (fun y => decide (y.id = id)) es)) :
    Good n { w with callout := l, cancelled := w.cancelled ++ (victim id w.callout).toList }
      (eraseDelta (fun y => decide (y.id = id)) es) := by
  have hdue := due_eraseDelta 0 (fun y : Ticket F (Call F A) => decide (y.id = id)) es
  have hsub : (due 0 es).eraseP (fun r => decide (r.2.id = id)) ⊆ due 0 es := List.eraseP_subset
  exact {
    holds := hl
    nonneg := eraseDelta_nonneg _ h.nonneg
    timeid := h.timeid
    pending := by
      rw [hdue]
      intro r hr
      exact h.pending r (hsub hr)
    order := by
      rw [hdue]
      exact h.order.sublist List.eraseP_sublist
    fired := h.fired
    firedOrder := h.firedOrder
    firedFirst := by
      rw [hdue]
      exact fun f hf r hr => h.firedFirst f hf r (hsub hr)
    once := by
      have hp := (find_eraseP_perm (fun r => decide (r.2.id = id)) (due 0 es)).map
        fun r => r.2.arg.serial
      rw [hdue, victim_eq h.holds]
      refine List.Perm.trans ?_ h.once
      simp only [serials, List.map_append] at hp ⊢
      have hv : ∀ o : Option (Int × Ticket F (Call F A)),
          (o.map fun r => r.2.arg).toList.map (·.serial) =
            o.toList.map fun r => r.2.arg.serial := by
        intro o
        cases o <;> rfl
      rw [hv, ← List.append_assoc, ← List.append_assoc, ← List.append_assoc]
      refine (List.perm_append_comm.trans ?_)
      simpa only [List.append_assoc] using hp.append_right _ }

/-- A tick keeps the run invariant: every key that is still positive drops by one. -/
theorem good_tick {n : VCall} {w : World F A} {es : List (Int × Ticket F (Call F A))}
    (h : Good n w es) {l : List (Callo F (Call F A))} (hl : Holds n.slots l (tickDelta es)) :
    Good n { w with callout := l, now := w.now + 1 } (tickDelta es) := by
  have hdue := due_tickDelta h.nonneg
  have hmem : ∀ r ∈ due 0 (tickDelta es), ∃ r₀ ∈ due 0 es,
      r₀.2 = r.2 ∧ r.1 = max 0 (r₀.1 - 1) := by
    rw [hdue]
    intro r hr
    obtain ⟨r₀, hr₀, rfl⟩ := List.mem_map.mp hr
    exact ⟨r₀, hr₀, rfl, rfl⟩
  exact {
    holds := hl
    nonneg := tickDelta_nonneg h.nonneg
    timeid := h.timeid
    pending := by
      intro r hr
      obtain ⟨r₀, hr₀, h2, h1⟩ := hmem r hr
      have hp := h.pending r₀ hr₀
      rw [show r₀ = (r₀.1, r.2) from Prod.ext rfl h2] at hp
      have hk : r₀.1 = max 0 (r.2.arg.deadline - w.now) := hp.key
      refine ⟨?_, hp.fn, hp.id, hp.tim, hp.queued.trans (Nat.le_succ _), hp.young⟩
      simp only [Nat.cast_add, Nat.cast_one]
      omega
    order := by
      rw [hdue]
      exact List.pairwise_map.mpr h.order
    fired := fun f hf => { h.fired f hf with past := (h.fired f hf).past.trans (Nat.le_succ _) }
    firedOrder := h.firedOrder
    firedFirst := by
      intro f hf r hr
      obtain ⟨r₀, hr₀, h2, -⟩ := hmem r hr
      exact h2 ▸ h.firedFirst f hf r₀ hr₀
    once := by
      have hs : serials { w with callout := l, now := w.now + 1 } (due 0 (tickDelta es)) =
          serials w (due 0 es) := by
        simp [serials, hdue, Function.comp_def]
      exact hs ▸ h.once }

/-- Firing the first entry keeps the run invariant. -/
theorem good_fire {n : VCall} {w : World F A} {e : Int × Ticket F (Call F A)}
    {es : List (Int × Ticket F (Call F A))} (h : Good n w (e :: es)) (he : e.1 ≤ 0)
    {l : List (Callo F (Call F A))} (hl : Holds n.slots l es) :
    Good n { w with callout := l, fired := w.fired ++ [(slotOf e, w.now)] } es := by
  obtain ⟨d, y⟩ := e
  have hd : d = 0 := le_antisymm he (h.nonneg (d, y) (by simp))
  subst hd
  have hdue : due 0 ((0, y) :: es) = (0, y) :: due 0 es := by simp [due]
  have hp := h.pending (0, y) (by simp [hdue])
  have hord := h.order
  rw [hdue] at hord
  obtain ⟨hhead, htail⟩ := List.pairwise_cons.mp hord
  have hsub : ∀ r ∈ due 0 es, r ∈ due 0 ((0, y) :: es) := fun r hr => by simp [hdue, hr]
  exact {
    holds := hl
    nonneg := fun a ha => h.nonneg a (by simp [ha])
    timeid := h.timeid
    pending := fun r hr => h.pending r (hsub r hr)
    order := htail
    fired := by
      intro f hf
      rcases List.mem_append.mp hf with hf | hf
      · exact h.fired f hf
      · obtain rfl := List.mem_singleton.mp hf
        have hk := hp.key
        refine ⟨congrArg some hp.fn, ?_, le_rfl, hp.young⟩
        simp only [slotOf] at hk ⊢
        omega
    firedOrder := by
      refine List.pairwise_append.mpr ⟨h.firedOrder, by simp, ?_⟩
      intro f hf g hg
      obtain rfl := List.mem_singleton.mp hg
      exact h.firedFirst f hf (0, y) (by simp [hdue])
    firedFirst := by
      intro f hf r hr
      rcases List.mem_append.mp hf with hf | hf
      · exact h.firedFirst f hf r (hsub r hr)
      · obtain rfl := List.mem_singleton.mp hf
        exact hhead r hr
    once := by
      refine List.Perm.trans ?_ h.once
      rw [hdue]
      simp only [serials, List.map_append, List.map_cons, List.map_nil, List.append_assoc,
        List.cons_append, List.nil_append, slotOf]
      exact (List.perm_middle.append_left _ |>.trans List.perm_middle) }

theorem good_step {n : VCall} {w w' : World F A} (h : ∃ es, Good n w es)
    (hst : Step n.slots w w') : ∃ es, Good n w' es := by
  obtain ⟨es, h⟩ := h
  cases hst with
  | timeout htim hint hcall =>
    rcases timeout_holds n.two_le h.holds h.nonneg h.small w.timeid _ _ htim hint with hp | ⟨l, hl, hh⟩
    · rw [hp] at hcall
      cases hcall
    · rw [hl] at hcall
      cases hcall
      exact ⟨_, good_timeout h htim hint hh⟩
  | @untimeout id _ hcall =>
    obtain ⟨l, hl, hh⟩ := untimeout_holds h.holds h.nonneg h.small id
    rw [hl] at hcall
    cases hcall
    exact ⟨_, good_untimeout h id hh⟩
  | tick hcall =>
    obtain ⟨l, poke, hl, hh⟩ := clock_holds h.holds h.nonneg h.small
    rw [hl] at hcall
    cases hcall
    exact ⟨_, good_tick h hh⟩
  | enter => exact ⟨es, { h with }⟩
  | fire _ hcall =>
    rcases timeinTurn_holds h.holds with ⟨hn, -⟩ | ⟨e, es', l, rfl, he, hl, hh⟩
    · rw [hn] at hcall
      cases hcall
    · rw [hl] at hcall
      cases hcall
      exact ⟨es', good_fire h he hh⟩
  | leave => exact ⟨es, { h with }⟩

theorem reachable_good {n : VCall} {w : World F A} (h : (system n).Reachable w) :
    ∃ es, Good n w es :=
  System.invariant (fun w => ∃ es, Good n w es) (fun _ hi => ⟨[], good_init hi⟩)
    (fun _ _ hi hst => good_step hi hst) h

/-- Ids repeat only after 2^32 calls of timeout. -/
theorem i32_repeat {a b : Nat} (hab : a < b) (h : i32 ((a : Int) + 1) = i32 ((b : Int) + 1)) :
    a + 2 ^ 32 ≤ b := by
  rw [i32, i32, Int.bmod_def, Int.bmod_def] at h
  split at h <;> split at h <;> omega

/-- The callout table along every run. `es` are the pending entries, `due 0 es`
their prefix sums; `serials` lists every call of timeout so far. -/
theorem callout_run (n : VCall) {w : World F A} (h : (system n).Reachable w) :
    ∃ es : List (Int × Ticket F (Call F A)),
      Holds n.slots w.callout es ∧
      (∀ r ∈ due 0 es, r.2.fn = r.2.arg.fn ∧
        r.1 = max 0 (r.2.arg.tim - ((w.now : Int) - r.2.arg.queued))) ∧
      (serials w (due 0 es)).Perm (List.range w.serial) ∧
      (timeinTurn w.callout = .ok none → ∀ r ∈ due 0 es, (w.now : Int) < r.2.arg.deadline) ∧
      (∀ f ∈ w.fired, f.1.cFunc = some f.1.cArg.fn ∧
        (f.1.cArg.queued : Int) + f.1.cArg.tim ≤ f.2) ∧
      (w.fired.Pairwise fun f f' => f.1.cArg.before f'.1.cArg) ∧
      (∀ id, ∃ l es', untimeout id w.callout = .ok l ∧ Holds n.slots l es' ∧
        due 0 es' = (due 0 es).eraseP fun r => decide (r.2.id = id)) ∧
      (∀ r ∈ due 0 es, ∀ r' ∈ due 0 es, r.2.id = r'.2.id →
        r.2.arg.serial < r'.2.arg.serial → r.2.arg.serial + 2 ^ 32 ≤ r'.2.arg.serial) ∧
      (∀ fn arg tim, 0 ≤ tim → tim < 2 ^ 31 →
        timeout n.slots w.callout w.timeid fn arg tim ≠ .error .wild) := by
  obtain ⟨es, hg⟩ := reachable_good h
  refine ⟨es, hg.holds, ?_, hg.once, ?_, ?_, hg.firedOrder, ?_, ?_, ?_⟩
  · intro r hr
    have hp := hg.pending r hr
    have hk := hp.key
    simp only [Call.deadline] at hk
    exact ⟨hp.fn, by omega⟩
  · intro hturn r hr
    have hk := (hg.pending r hr).key
    have hpos : 0 < r.1 := by
      rcases timeinTurn_holds hg.holds with ⟨-, hhead⟩ | ⟨e, es', l, rfl, -, hl, -⟩
      · cases es with
        | nil => simp [due] at hr
        | cons e es =>
          have he : 0 < e.1 := by simpa using hhead
          have hle := due_le e.1 es (fun a ha => hg.nonneg a (by simp [ha]))
          rcases List.mem_cons.mp hr with rfl | hr
          · simpa using he
          · exact he.trans_le (hle r (by simpa using hr))
      · rw [hturn] at hl
        cases hl
    omega
  · exact fun f hf => ⟨(hg.fired f hf).fn, (hg.fired f hf).due⟩
  · intro id
    obtain ⟨l, hl, hh⟩ := untimeout_holds hg.holds hg.nonneg hg.small id
    exact ⟨l, _, hl, hh, due_eraseDelta 0 _ es⟩
  · intro r hr r' hr' hid hlt
    have hr := (hg.pending r hr).id
    have hr' := (hg.pending r' hr').id
    exact i32_repeat hlt (hr.symm.trans (hid.trans hr'))
  · intro fn arg tim htim hint
    rcases timeout_holds n.two_le hg.holds hg.nonneg hg.small w.timeid fn arg htim hint with
      hp | ⟨l, hl, -⟩
    · simp [hp]
    · simp [hl]

/- A table of three slots, one timeout of two ticks, one tick. -/
theorem callout_run_ticked :
    ∃ es : List (Int × Ticket Nat (Call Nat Nat)),
      Holds 3 [⟨1, 1, ⟨0, 7, 9, 2, 0⟩, some 7⟩, ⟨-2, 0, ⟨0, 0, 0, 0, 0⟩, none⟩,
        ⟨0, 0, ⟨0, 0, 0, 0, 0⟩, none⟩] es ∧
      ∀ r ∈ due 0 es, r.1 = max 0 (r.2.arg.tim - (((1 : Nat) : Int) - r.2.arg.queued)) := by
  let c₀ : Call Nat Nat := ⟨0, 0, 0, 0, 0⟩
  let null : Callo Nat (Call Nat Nat) := ⟨0, 0, c₀, none⟩
  let w₀ : World Nat Nat := ⟨[null, null, null], 0, false, 0, 0, [], []⟩
  have h₀ : (system ⟨3, by decide⟩).Reachable w₀ :=
    System.reachable_init ⟨rfl, by decide, rfl, rfl, rfl, rfl, rfl, rfl⟩
  have h₁ := System.reachable_step h₀ (Step.timeout (w := w₀) (l := [⟨2, 1, ⟨0, 7, 9, 2, 0⟩, some 7⟩,
    ⟨-2, 0, c₀, none⟩, null]) (by decide : (0 : Int) ≤ 2) (by decide) rfl)
  have h₂ := System.reachable_step h₁ (Step.tick (l := [⟨1, 1, ⟨0, 7, 9, 2, 0⟩, some 7⟩,
    ⟨-2, 0, c₀, none⟩, null]) rfl)
  obtain ⟨es, hh, hk, -⟩ := callout_run ⟨3, by decide⟩ h₂
  exact ⟨es, hh, fun r hr => (hk r hr).2⟩

end Svr32.Callout
