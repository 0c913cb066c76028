import Mathlib.Data.List.Basic
import Svr32.Lib.Word
import Svr32.Lib.Delta

/-! The callout table of os/clock.c. The table is the list of its v_call slots; a
slot with a null c_func ends it. A pointer into the table is the rest of the list.
`wild` is an access behind the last slot. -/
namespace Svr32.Callout
open Svr32.Lib
variable {F A : Type*}

structure Callo (F A : Type*) where
  cTime : Int
  cId : Int
  cArg : A
  cFunc : Option F
deriving DecidableEq, Repr

inductive Fault where
  | panic
  | wild
deriving DecidableEq, Repr

/- Move `p` and everything up to the terminator one slot up. -/
def shiftUp (p : Callo F A) : List (Callo F A) → Except Fault (List (Callo F A))
  | [] => .error .wild
  | q :: cs => if p.cFunc.isNone then .ok (p :: cs) else (shiftUp q cs).map (p :: ·)

/- do *p1++ = *p2++; while (p1->c_func != NULL), with p2 in front of the list. -/
def closeUp : List (Callo F A) → Except Fault (List (Callo F A))
  | [] => .error .wild
  | q :: cs => if q.cFunc.isNone then .ok (q :: q :: cs) else (closeUp cs).map (q :: ·)

/- The scan of timeout: `t` is what is left of the time in front of the slot. -/
def insertScan (fn : F) (arg : A) (id : Int) (t : Int) :
    List (Callo F A) → Except Fault (List (Callo F A))
  | [] => .error .wild
  | p :: cs =>
    if p.cFunc.isSome ∧ p.cTime ≤ t then
      (insertScan fn arg id (i32 (t - p.cTime)) cs).map (p :: ·)
    else (shiftUp { p with cTime := i32 (p.cTime - t) } cs).map (⟨t, id, arg, some fn⟩ :: ·)

/- timeout(fun, arg, tim): the new table and the new timeid, which is the id returned. -/
def timeout (vCall : Nat) (callout : List (Callo F A)) (timeid : Int) (fn : F) (arg : A)
    (tim : Int) : Except Fault (List (Callo F A) × Int) :=
  match callout[vCall - 2]? with
  | none => .error .wild
  | some c =>
    if c.cFunc.isSome then .error .panic
    else
      let id := i32 (timeid + 1)
      (insertScan fn arg id tim callout).map fun l => (l, id)

def untimeout (id : Int) : List (Callo F A) → Except Fault (List (Callo F A))
  | [] => .error .wild
  | p1 :: cs =>
    if p1.cFunc.isNone then .ok (p1 :: cs)
    else if p1.cId = id then
      match cs with
      | [] => .error .wild
      | p2 :: cs => closeUp ({ p2 with cTime := i32 (p2.cTime + p1.cTime) } :: cs)
    else (untimeout id cs).map (p1 :: ·)

/- clock: update the first non-zero time, if any callout is active. -/
def tickScan : List (Callo F A) → Except Fault (List (Callo F A))
  | [] => .error .wild
  | c :: cs =>
    if c.cTime ≤ 0 ∧ c.cFunc.isSome then (tickScan cs).map (c :: ·)
    else .ok ({ c with cTime := i32 (c.cTime - 1) } :: cs)

/- The callout part of clock: the table, and whether timepoke was called. -/
def clock (callout : List (Callo F A)) : Except Fault (List (Callo F A) × Bool) :=
  match callout with
  | [] => .error .wild
  | c :: _ =>
    let ticked := if c.cFunc.isSome then tickScan callout else .ok callout
    ticked.map fun l => (l, l.head?.any fun c => decide (c.cTime ≤ 0))

/- One turn of timein's loop: the entry to call and the table it leaves, or `none`
   when the loop ends. The entries move up before the call. -/
def timeinTurn (callout : List (Callo F A)) :
    Except Fault (Option (Callo F A × List (Callo F A))) :=
  match callout with
  | [] => .error .wild
  | svcall :: cs =>
    if svcall.cFunc.isSome ∧ svcall.cTime ≤ 0 then
      (closeUp cs).map fun l => some (svcall, l)
    else .ok none

theorem except_map_ok {α β : Type*} {x : Except Fault α} {f : α → β} {b : β}
    (h : x.map f = .ok b) : ∃ a, x = .ok a ∧ f a = b := by
  cases x with
  | error e => simp [Except.map] at h
  | ok a => exact ⟨a, rfl, by simpa [Except.map] using h⟩

theorem shiftUp_length {p : Callo F A} {cs l : List (Callo F A)} (h : shiftUp p cs = .ok l) :
    l.length = cs.length := by
  induction cs generalizing p l with
  | nil => simp [shiftUp] at h
  | cons q cs ih =>
    by_cases hp : p.cFunc.isNone
    · obtain rfl : p :: cs = l := by simpa [shiftUp, hp] using h
      simp
    · simp only [shiftUp, hp] at h
      obtain ⟨l', hl', rfl⟩ := except_map_ok h
      simp [ih hl']

theorem closeUp_length {cs l : List (Callo F A)} (h : closeUp cs = .ok l) :
    l.length = cs.length + 1 := by
  induction cs generalizing l with
  | nil => simp [closeUp] at h
  | cons q cs ih =>
    by_cases hq : q.cFunc.isNone
    · obtain rfl : q :: q :: cs = l := by simpa [closeUp, hq] using h
      simp
    · simp only [closeUp, hq] at h
      obtain ⟨l', hl', rfl⟩ := except_map_ok h
      simp [ih hl']

theorem insertScan_length {fn : F} {arg : A} {id t : Int} {cs l : List (Callo F A)}
    (h : insertScan fn arg id t cs = .ok l) : l.length = cs.length := by
  induction cs generalizing t l with
  | nil => simp [insertScan] at h
  | cons p cs ih =>
    by_cases hp : p.cFunc.isSome ∧ p.cTime ≤ t
    · simp only [insertScan, hp, and_self, if_true] at h
      obtain ⟨l', hl', rfl⟩ := except_map_ok h
      simp [ih hl']
    · simp only [insertScan, hp, if_false] at h
      obtain ⟨l', hl', rfl⟩ := except_map_ok h
      simp [shiftUp_length hl']

theorem untimeout_length {id : Int} {cs l : List (Callo F A)} (h : untimeout id cs = .ok l) :
    l.length = cs.length := by
  induction cs generalizing l with
  | nil => simp [untimeout] at h
  | cons p cs ih =>
    by_cases hp : p.cFunc.isNone
    · obtain rfl : p :: cs = l := by simpa [untimeout, hp] using h
      rfl
    · by_cases hid : p.cId = id
      · cases cs with
        | nil => simp [untimeout, hp, hid] at h
        | cons q cs =>
          simp only [untimeout, hp, hid, if_true] at h
          simpa using closeUp_length h
      · simp only [untimeout, hp, hid, if_false] at h
        obtain ⟨l', hl', rfl⟩ := except_map_ok h
        simp [ih hl']

theorem tickScan_length {cs l : List (Callo F A)} (h : tickScan cs = .ok l) :
    l.length = cs.length := by
  induction cs generalizing l with
  | nil => simp [tickScan] at h
  | cons c cs ih =>
    by_cases hc : c.cTime ≤ 0 ∧ c.cFunc.isSome
    · simp only [tickScan, hc, and_self, if_true] at h
      obtain ⟨l', hl', rfl⟩ := except_map_ok h
      simp [ih hl']
    · obtain rfl : _ :: cs = l := by simpa only [tickScan, hc, if_false, Except.ok.injEq] using h
      simp

end Svr32.Callout

/-! The table as a difference-coded queue: timeout, untimeout, clock and the turns
of timein are its edits, and none of them leaves the table. -/
namespace Svr32.Callout
open Svr32.Lib
variable {F A : Type*}

/-- What a slot carries besides its time. -/
structure Ticket (F A : Type*) where
  id : Int
  arg : A
  fn : F
deriving DecidableEq, Repr

/- A pending entry: its time difference and its ticket. -/
def slotOf (e : Int × Ticket F A) : Callo F A := ⟨e.1, e.2.id, e.2.arg, some e.2.fn⟩

@[simp] theorem slotOf_cTime (e : Int × Ticket F A) : (slotOf e).cTime = e.1 := rfl
@[simp] theorem slotOf_cId (e : Int × Ticket F A) : (slotOf e).cId = e.2.id := rfl
@[simp] theorem slotOf_cFunc (e : Int × Ticket F A) : (slotOf e).cFunc = some e.2.fn := rfl

/- The table holds the entries `es`, then only slots with a null c_func. -/
structure Holds (vCall : Nat) (callout : List (Callo F A)) (es : List (Int × Ticket F A)) :
    Prop where
  table : ∃ junk, junk ≠ [] ∧ (∀ c ∈ junk, c.cFunc.isNone) ∧ callout = es.map slotOf ++ junk
  length : callout.length = vCall

theorem shiftUp_entries (p : Callo F A) (es : List (Int × Ticket F A))
    {q₀ : Callo F A} (q : Callo F A) (junk : List (Callo F A)) (hq : q₀.cFunc.isNone) (hp : p.cFunc.isSome) :
    shiftUp p (es.map slotOf ++ q₀ :: q :: junk) = .ok (p :: (es.map slotOf ++ q₀ :: junk)) := by
  have hp' : p.cFunc.isNone = false := by simpa [Option.isSome_iff_ne_none] using hp
  induction es generalizing p with
  | nil => simp [shiftUp, hp', hq, Except.map]
  | cons e es ih => simp [shiftUp, hp', ih (slotOf e) (by simp) (by simp), Except.map]

theorem closeUp_entries (es : List (Int × Ticket F A)) {q : Callo F A}
    (junk : List (Callo F A)) (hq : q.cFunc.isNone) :
    closeUp (es.map slotOf ++ q :: junk) = .ok (es.map slotOf ++ q :: q :: junk) := by
  induction es with
  | nil => simp [closeUp, hq]
  | cons e es ih => simp [closeUp, ih, Except.map]

/-- timeout inserts into the difference code. -/
theorem insertScan_entries (fn : F) (arg : A) (id : Int) {t : Int}
    {es : List (Int × Ticket F A)} {q₀ : Callo F A} (q : Callo F A) (junk : List (Callo F A)) (hq : q₀.cFunc.isNone)
    (hes : ∀ e ∈ es, 0 ≤ e.1 ∧ e.1 < 2 ^ 31) (ht : 0 ≤ t) (ht' : t < 2 ^ 31) :
    ∃ q₀' : Callo F A, q₀'.cFunc.isNone ∧
      insertScan fn arg id t (es.map slotOf ++ q₀ :: q :: junk) =
        .ok ((insertDelta t ⟨id, arg, fn⟩ es).map slotOf ++ q₀' :: junk) := by
  induction es generalizing t with
  | nil =>
    have hs : q₀.cFunc.isSome = false := by simpa using hq
    refine ⟨{ q₀ with cTime := i32 (q₀.cTime - t) }, hq, ?_⟩
    simp [insertScan, insertDelta, hs, shiftUp, hq, Except.map, slotOf]
  | cons e es ih =>
    obtain ⟨d, y⟩ := e
    have hd := hes (d, y) (by simp)
    simp only at hd
    have hes' : ∀ e ∈ es, 0 ≤ e.1 ∧ e.1 < 2 ^ 31 := fun e he => hes e (by simp [he])
    by_cases hle : d ≤ t
    · have hi : i32 (t - d) = t - d := i32_eq (by omega) (by omega)
      obtain ⟨q₀', hq', h⟩ := ih hes' (t := t - d) (by omega) (by omega)
      exact ⟨q₀', hq', by simp [insertScan, insertDelta, hle, hi, h, Except.map]⟩
    · have hi : i32 (d - t) = d - t := i32_eq (by omega) (by omega)
      have hsh := shiftUp_entries (slotOf (d - t, y)) es q junk hq (by simp)
      refine ⟨q₀, hq, ?_⟩
      simp only [List.map_cons, List.cons_append, insertScan, slotOf_cFunc, slotOf_cTime,
        Option.isSome_some, hle, and_false, if_false, hi, insertDelta]
      change Except.map _ (shiftUp (slotOf (d - t, y)) _) = _
      rw [hsh]
      rfl

theorem untimeout_skip {id : Int} {p : Callo F A} (hp : p.cFunc.isSome) (h : p.cId ≠ id)
    (cs : List (Callo F A)) : untimeout id (p :: cs) = (untimeout id cs).map (p :: ·) := by
  have hn : p.cFunc.isNone = false := by simpa [Option.isSome_iff_ne_none] using hp
  simp [untimeout, hn, h]

/-- untimeout removes the first entry with the id from the difference code. -/
theorem untimeout_entries (id : Int) {b : Int} {es : List (Int × Ticket F A)} {q : Callo F A}
    {junk : List (Callo F A)} (hq : ∀ c ∈ q :: junk, c.cFunc.isNone) (hb : 0 ≤ b)
    (hes : ∀ e ∈ es, 0 ≤ e.1) (hsum : ∀ r ∈ due b es, r.1 < 2 ^ 31) :
    ∃ junk' : List (Callo F A), junk' ≠ [] ∧ (∀ c ∈ junk', c.cFunc.isNone) ∧
      untimeout id (es.map slotOf ++ q :: junk) =
        .ok ((eraseDelta (fun y => decide (y.id = id)) es).map slotOf ++ junk') := by
  induction es generalizing b with
  | nil =>
    have h := hq q (by simp)
    exact ⟨q :: junk, by simp, hq, by simp [untimeout, h, eraseDelta]⟩
  | cons a l ih =>
    obtain ⟨d, y⟩ := a
    have hd : 0 ≤ d := hes (d, y) (by simp)
    have hl : ∀ e ∈ l, 0 ≤ e.1 := fun e he => hes e (by simp [he])
    have hsum' : ∀ r ∈ due (b + d) l, r.1 < 2 ^ 31 := fun r hr => hsum r (by simp [due, hr])
    cases l with
    | nil =>
      by_cases h : y.id = id
      · have hq' : ({ q with cTime := i32 (q.cTime + d) } : Callo F A).cFunc.isNone :=
          hq q (by simp)
        refine ⟨_ :: _ :: junk, by simp, ?_, by
          simpa [untimeout, h, eraseDelta] using closeUp_entries [] junk hq'⟩
        simpa using hq
      · have hn := hq q (by simp)
        exact ⟨q :: junk, by simp, hq, by
          simp [untimeout, h, hn, eraseDelta, Except.map, slotOf]⟩
    | cons c l =>
      obtain ⟨e, z⟩ := c
      by_cases h : y.id = id
      · have hlt : b + d + e < 2 ^ 31 := hsum' (b + d + e, z) (by simp [due])
        have he : 0 ≤ e := hl (e, z) (by simp)
        have hi : i32 (e + d) = e + d := i32_eq (by omega) (by omega)
        have hc := closeUp_entries ((e + d, z) :: l) junk (hq q (by simp))
        refine ⟨q :: q :: junk, by simp, by simpa using hq, ?_⟩
        simpa [untimeout, h, eraseDelta, hi, slotOf] using hc
      · obtain ⟨junk', hne, hn, hu⟩ := ih (b := b + d) (by omega) hl hsum'
        refine ⟨junk', hne, hn, ?_⟩
        rw [List.map_cons, List.cons_append, untimeout_skip (by simp) (by simpa using h), hu]
        simp [eraseDelta, h, Except.map]

/-- clock lowers the first positive difference; past the entries it only touches
the terminator. -/
theorem tickScan_entries {es : List (Int × Ticket F A)} {q : Callo F A}
    (junk : List (Callo F A)) (hq : q.cFunc.isNone) (hes : ∀ e ∈ es, 0 ≤ e.1 ∧ e.1 < 2 ^ 31) :
    ∃ q' : Callo F A, q'.cFunc.isNone ∧
      tickScan (es.map slotOf ++ q :: junk) = .ok ((tickDelta es).map slotOf ++ q' :: junk) := by
  induction es with
  | nil =>
    have hs : q.cFunc.isSome = false := by simpa using hq
    exact ⟨{ q with cTime := i32 (q.cTime - 1) }, hq, by simp [tickScan, tickDelta, hs]⟩
  | cons a l ih =>
    obtain ⟨d, y⟩ := a
    have hd := hes (d, y) (by simp)
    simp only at hd
    by_cases h : d ≤ 0
    · obtain ⟨q', hq', ht⟩ := ih fun e he => hes e (by simp [he])
      exact ⟨q', hq', by simp [tickScan, tickDelta, h, ht, Except.map]⟩
    · have hi : i32 (d - 1) = d - 1 := i32_eq (by omega) (by omega)
      exact ⟨q, hq, by simp [tickScan, tickDelta, h, hi, slotOf]⟩

/-! Each routine on a well-formed table, as an edit of the difference code. -/

theorem due_bound {b : Int} (hb : 0 ≤ b) {es : List (Int × Ticket F A)} (hes : ∀ e ∈ es, 0 ≤ e.1)
    (hsum : ∀ r ∈ due b es, r.1 < 2 ^ 31) : ∀ e ∈ es, 0 ≤ e.1 ∧ e.1 < 2 ^ 31 := by
  intro e he
  obtain ⟨r, hr, -, hle⟩ := diff_le_due hb hes he
  exact ⟨hes e he, hle.trans_lt (hsum r hr)⟩

/-- timeout panics on a full table, and otherwise inserts. -/
theorem timeout_holds {vCall : Nat} (hv : 2 ≤ vCall) {callout : List (Callo F A)}
    {es : List (Int × Ticket F A)} (h : Holds vCall callout es) (hes : ∀ e ∈ es, 0 ≤ e.1)
    (hsum : ∀ r ∈ due 0 es, r.1 < 2 ^ 31) (timeid : Int) (fn : F) (arg : A) {t : Int}
    (ht : 0 ≤ t) (ht' : t < 2 ^ 31) :
    timeout vCall callout timeid fn arg t = .error .panic ∨
      ∃ l, timeout vCall callout timeid fn arg t = .ok (l, i32 (timeid + 1)) ∧
        Holds vCall l (insertDelta t ⟨i32 (timeid + 1), arg, fn⟩ es) := by
  obtain ⟨⟨junk, -, hnull, rfl⟩, hlen⟩ := h
  rw [List.length_append, List.length_map] at hlen
  have hi : vCall - 2 < (es.map slotOf ++ junk).length := by simp; omega
  unfold timeout
  rw [List.getElem?_eq_getElem hi]
  by_cases hfull : ((es.map slotOf ++ junk)[vCall - 2]).cFunc.isSome
  · left
    simp [hfull]
  · right
    -- the probed slot is null, so at least two slots lie behind the entries
    have hroom : es.length ≤ vCall - 2 := by
      by_contra hc
      have hlt : vCall - 2 < (es.map slotOf).length := by simp; omega
      rw [List.getElem_append_left hlt] at hfull
      simp at hfull
    obtain ⟨q₀, q, junk, rfl⟩ : ∃ q₀ q j, junk = q₀ :: q :: j := by
      match junk, hlen with
      | [], hlen => simp only [List.length_nil] at hlen; omega
      | [_], hlen => simp only [List.length_singleton] at hlen; omega
      | q₀ :: q :: j, _ => exact ⟨q₀, q, j, rfl⟩
    obtain ⟨q₀', hq, hins⟩ := insertScan_entries fn arg (i32 (timeid + 1))
      q junk (hnull q₀ (by simp)) (due_bound le_rfl hes hsum) ht ht'
    refine ⟨_, by simp [hfull, hins, Except.map], ⟨q₀' :: junk, by simp, ?_, rfl⟩, ?_⟩
    · exact List.forall_mem_cons.mpr ⟨hq, fun c hc => hnull c (by simp [hc])⟩
    · rw [insertScan_length hins]
      simpa using hlen

theorem untimeout_holds {vCall : Nat} {callout : List (Callo F A)}
    {es : List (Int × Ticket F A)} (h : Holds vCall callout es) (hes : ∀ e ∈ es, 0 ≤ e.1)
    (hsum : ∀ r ∈ due 0 es, r.1 < 2 ^ 31) (id : Int) :
    ∃ l, untimeout id callout = .ok l ∧
      Holds vCall l (eraseDelta (fun y => decide (y.id = id)) es) := by
  obtain ⟨⟨junk, hne, hnull, rfl⟩, hlen⟩ := h
  obtain ⟨q, junk, rfl⟩ := List.exists_cons_of_ne_nil hne
  obtain ⟨junk', hne', hnull', hu⟩ := untimeout_entries id hnull le_rfl hes hsum
  exact ⟨_, hu, ⟨junk', hne', hnull', rfl⟩, (untimeout_length hu).trans hlen⟩

theorem clock_holds {vCall : Nat} {callout : List (Callo F A)}
    {es : List (Int × Ticket F A)} (h : Holds vCall callout es)
    (hes : ∀ e ∈ es, 0 ≤ e.1) (hsum : ∀ r ∈ due 0 es, r.1 < 2 ^ 31) :
    ∃ l poke, clock callout = .ok (l, poke) ∧ Holds vCall l (tickDelta es) := by
  obtain ⟨⟨junk, hne, hnull, rfl⟩, hlen⟩ := h
  obtain ⟨q, junk, rfl⟩ := List.exists_cons_of_ne_nil hne
  cases es with
  | nil =>
    have hq : q.cFunc.isSome = false := by simpa using hnull q (by simp)
    exact ⟨_, _, by simp [clock, hq, Except.map]; exact ⟨rfl, rfl⟩,
      ⟨q :: junk, hne, hnull, by simp [tickDelta]⟩, by simpa using hlen⟩
  | cons e es =>
    obtain ⟨q', hq', ht⟩ := tickScan_entries junk (hnull q (by simp))
      (due_bound le_rfl hes hsum)
    refine ⟨_, _, by
      simp only [List.map_cons, List.cons_append] at ht
      simp [clock, ht, Except.map]; exact rfl, ⟨q' :: junk, by simp, ?_, rfl⟩, ?_⟩
    · exact List.forall_mem_cons.mpr ⟨hq', fun c hc => hnull c (by simp [hc])⟩
    · rw [tickScan_length ht]
      exact hlen

/-- The loop of timein goes on exactly while the first key is not positive. -/
theorem timeinTurn_holds {vCall : Nat} {callout : List (Callo F A)}
    {es : List (Int × Ticket F A)} (h : Holds vCall callout es) :
    (timeinTurn callout = .ok none ∧ ∀ e ∈ es.head?, 0 < e.1) ∨
      ∃ e es' l, es = e :: es' ∧ e.1 ≤ 0 ∧ timeinTurn callout = .ok (some (slotOf e, l)) ∧
        Holds vCall l es' := by
  obtain ⟨⟨junk, hne, hnull, rfl⟩, hlen⟩ := h
  obtain ⟨q, junk, rfl⟩ := List.exists_cons_of_ne_nil hne
  cases es with
  | nil =>
    have hq : q.cFunc.isSome = false := by simpa using hnull q (by simp)
    exact .inl ⟨by simp [timeinTurn, hq], by simp⟩
  | cons e es =>
    by_cases he : e.1 ≤ 0
    · have hc := closeUp_entries es junk (hnull q (by simp))
      refine .inr ⟨e, es, _, rfl, he, by simp [timeinTurn, he, hc, Except.map],
        ⟨q :: q :: junk, by simp, by simpa using hnull, rfl⟩, ?_⟩
      rw [closeUp_length hc]
      simpa using hlen
    · exact .inl ⟨by simp [timeinTurn, he], by simpa using he⟩

end Svr32.Callout
