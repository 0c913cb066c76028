import Mathlib.Data.List.Basic
import Svr32.Lib.Span
import Mathlib.Algebra.Ring.Nat
import Mathlib.Algebra.Ring.Int.Defs

/-! The kernel resource map of os/malloc.c: a table of (size, address) slots
behind a header slot. A pointer into the table is the rest of the slot list from
there on; `none` is an access past the last slot of the table. -/
namespace Svr32.Malloc

structure Slot where
  mSize : Nat
  mAddr : Nat
deriving DecidableEq, Repr

/- Header X[0] keeps mapsize and mapwant; slots are X[1], X[2], .. -/
structure Map where
  mapsize : Nat
  mapwant : Nat
  slots : List Slot
deriving DecidableEq, Repr

def zeroSlot : Slot := ⟨0, 0⟩

/-- unsigned long arithmetic of the 3B2. -/
def u32 (n : Nat) : Nat := n % 2 ^ 32

def u32sub (m n : Nat) : Nat := (m + (2 ^ 32 - n % 2 ^ 32)) % 2 ^ 32

theorem u32_eq {n : Nat} (h : n < 2 ^ 32) : u32 n = n := Nat.mod_eq_of_lt h

theorem u32sub_eq {m n : Nat} (hn : n ≤ m) (hm : m < 2 ^ 32) : u32sub m n = m - n := by
  unfold u32sub
  omega

/-- mapinit on a cleared table of `n` slots, the header included. -/
def mapinit (n want : Nat) : Map := ⟨n - 2, want, List.replicate (n - 1) zeroSlot⟩

/- while (bp->m_size) { bp++; *(bp-1) = *bp; } The terminator moves along. -/
def carryDown : List Slot → Option (List Slot)
  | [] => none
  | b :: bs =>
    if b.mSize = 0 then some (b :: bs)
    else match bs with
      | [] => none
      | c :: cs => (carryDown (c :: cs)).map (c :: ·)

/- do { bp++; *(bp-1) = *bp; } while (bp->m_size): the first copy is not tested. -/
def removeSlot : List Slot → Option (List Slot)
  | _ :: c :: cs => (carryDown (c :: cs)).map (c :: ·)
  | _ => none

/- do { swap (size, a) with *bp; bp++; } while (size): stops behind the slot that
   held the old terminator, and writes no new one. -/
def carryUp : Slot → List Slot → Option (List Slot)
  | _, [] => none
  | s, b :: bs => if b.mSize = 0 then some (s :: bs) else (carryUp b bs).map (s :: ·)

/- The scan of malloc: the address, whether a slot became free, the new slots. -/
def mallocScan (size : Nat) : List Slot → Option (Nat × Bool × List Slot)
  | [] => none
  | b :: bs =>
    if b.mSize = 0 then some (0, false, b :: bs)
    else if size ≤ b.mSize then
      let b' : Slot := ⟨b.mSize - size, u32 (b.mAddr + size)⟩
      if b'.mSize = 0 then (removeSlot (b' :: bs)).map fun l => (b.mAddr, true, l)
      else some (b.mAddr, false, b' :: bs)
    else (mallocScan size bs).map fun r => (r.1, r.2.1, b :: r.2.2)

def malloc (mp : Map) (size : Nat) : Option (Nat × Map) :=
  if size = 0 then some (0, mp)
  else (mallocScan size mp.slots).map fun r =>
    (r.1, { mp with mapsize := if r.2.1 then u32 (mp.mapsize + 1) else mp.mapsize,
                    slots := r.2.2 })

/- What mfree leaves: the map, the overflow warning, the wakeup of mapwant. -/
structure Mfreed where
  map : Map
  overflow : Bool
  wakeup : Bool
deriving DecidableEq, Repr

/- The common tail: if (mapwant(mp)) { mapwant(mp) = 0; wakeup(mp); } -/
def wakeWant (mp : Map) : Mfreed :=
  if mp.mapwant = 0 then ⟨mp, false, false⟩ else ⟨{ mp with mapwant := 0 }, false, true⟩

/- `p` ends at `a`: grow it, and swallow the next entry when the gap closes. -/
def coalesce (mp : Map) (pre : List Slot) (p : Slot) (size a : Nat) :
    List Slot → Option Map
  | [] => none
  | b :: bs =>
    let p' : Slot := ⟨u32 (p.mSize + size), p.mAddr⟩
    if b.mAddr ≠ 0 ∧ u32 (a + size) = b.mAddr then
      (carryDown (b :: bs)).map fun l =>
        { mp with mapsize := u32 (mp.mapsize + 1),
                  slots := pre ++ ⟨u32 (p'.mSize + b.mSize), p'.mAddr⟩ :: l }
    else some { mp with slots := pre ++ p' :: b :: bs }

def mfree (mp : Map) (size a : Nat) : Option Mfreed :=
  if size = 0 then some ⟨mp, false, false⟩
  else
    let pre := mp.slots.takeWhile fun b => decide (b.mAddr ≤ a ∧ b.mSize ≠ 0)
    let suf := mp.slots.dropWhile fun b => decide (b.mAddr ≤ a ∧ b.mSize ≠ 0)
    match suf with
    | [] => none
    | b :: bs =>
      match pre.getLast? with
      | some p =>
        if u32 (p.mAddr + p.mSize) = a then
          (coalesce mp pre.dropLast p size a (b :: bs)).map wakeWant
        else mfreeInsert mp pre b bs size a
      | none => mfreeInsert mp pre b bs size a
where
  /- Nothing ends at `a`: grow `b` downwards, or take an empty slot. -/
  mfreeInsert (mp : Map) (pre : List Slot) (b : Slot) (bs : List Slot) (size a : Nat) :
      Option Mfreed :=
    if u32 (a + size) = b.mAddr ∧ b.mSize ≠ 0 then
      some (wakeWant { mp with
        slots := pre ++ ⟨u32 (b.mSize + size), u32sub b.mAddr size⟩ :: bs })
    else if mp.mapsize = 0 then some ⟨mp, true, false⟩
    else (carryUp ⟨size, a⟩ (b :: bs)).map fun l =>
      wakeWant { mp with mapsize := mp.mapsize - 1, slots := pre ++ l }

end Svr32.Malloc

/-! The table refines a separated list of free spans: malloc is first fit and
mfree is the coalescing insertion. -/
namespace Svr32.Malloc
open Svr32.Lib

def slotOf (s : Span Nat) : Slot := ⟨s.size, s.lo⟩

@[simp] theorem slotOf_mSize (s : Span Nat) : (slotOf s).mSize = s.size := rfl
@[simp] theorem slotOf_mAddr (s : Span Nat) : (slotOf s).mAddr = s.lo := rfl

def zeros (k : Nat) : List Slot := List.replicate k zeroSlot

theorem zeros_succ (k : Nat) : zeros (k + 1) = zeroSlot :: zeros k := rfl

/- The entries in front, then nothing but cleared slots: the terminator and
   `mapsize` spare ones. -/
structure Holds (m : Map) (es : List (Span Nat)) : Prop where
  slots : m.slots = es.map slotOf ++ zeros (m.mapsize + 1)
  sep : Separated es
  bound : ∀ s ∈ es, 1 ≤ s.lo ∧ s.hi < 2 ^ 32
  room : m.mapsize + es.length < 2 ^ 32

theorem carryDown_zeros (k : Nat) : carryDown (zeros (k + 1)) = some (zeros (k + 1)) := by
  rw [zeros_succ, carryDown.eq_def]
  rfl

/-- Dropping the first entry moves the others and the terminator one slot down. -/
theorem carryDown_entry (e : Span Nat) (es : List (Span Nat)) (k : Nat) :
    carryDown (slotOf e :: (es.map slotOf ++ zeros (k + 1))) =
      some (es.map slotOf ++ zeros (k + 2)) := by
  induction es generalizing e with
  | nil =>
    have h := carryDown_zeros k
    have he := e.size_pos.ne'
    rw [zeros_succ] at h
    simp [zeros_succ, carryDown, he, h]
  | cons f es ih =>
    have he := e.size_pos.ne'
    simp [carryDown, he, ih f]

theorem removeSlot_eq (x : Slot) (es : List (Span Nat)) (k : Nat) :
    removeSlot (x :: (es.map slotOf ++ zeros (k + 1))) =
      some (es.map slotOf ++ zeros (k + 2)) := by
  cases es with
  | nil =>
    have h := carryDown_zeros k
    rw [zeros_succ] at h
    simp [zeros_succ, removeSlot, h]
  | cons e es => simp [removeSlot, carryDown_entry]

/-- Inserting uses up the terminator; the cleared slot behind it takes its place. -/
theorem carryUp_eq (s : Slot) (es : List (Span Nat)) (k : Nat) :
    carryUp s (es.map slotOf ++ zeros (k + 1)) = some (s :: (es.map slotOf ++ zeros k)) := by
  induction es generalizing s with
  | nil => simp [zeros_succ, carryUp, zeroSlot]
  | cons e es ih =>
    have he := e.size_pos.ne'
    simp [carryUp, he, ih]

theorem mallocScan_none {n : Nat} {es : List (Span Nat)} (k : Nat) (h : firstFit n es = none) :
    mallocScan n (es.map slotOf ++ zeros (k + 1)) =
      some (0, false, es.map slotOf ++ zeros (k + 1)) := by
  induction es with
  | nil => simp [zeros_succ, mallocScan, zeroSlot]
  | cons s es ih =>
    have hs := s.size_pos.ne'
    by_cases hn : n ≤ s.size
    · simp [firstFit, hn] at h
    · simp only [firstFit, hn, if_false, Option.map_eq_none_iff] at h
      simp [mallocScan, hs, hn, ih h]

/-- The scan finds the first fit; a used-up entry gives its slot back. -/
theorem mallocScan_some {n a : Nat} {es es' : List (Span Nat)} (k : Nat)
    (hb : ∀ s ∈ es, s.hi < 2 ^ 32) (h : firstFit n es = some (a, es')) :
    ∃ c : Bool, mallocScan n (es.map slotOf ++ zeros (k + 1)) =
      some (a, c, es'.map slotOf ++ zeros (k + 1 + c.toNat)) ∧
      es'.length + c.toNat = es.length := by
  induction es generalizing es' with
  | nil => simp [firstFit] at h
  | cons s es ih =>
    have hs := s.size_pos.ne'
    have hlo := s.lo_add_size
    have hhi : s.hi < 2 ^ 32 := hb s (by simp)
    by_cases hn : n ≤ s.size
    · simp only [firstFit, hn, if_true, Option.some.injEq, Prod.mk.injEq] at h
      obtain ⟨rfl, rfl⟩ := h
      have hu : u32 (s.lo + n) = s.lo + n := u32_eq (by omega)
      by_cases hr : s.lo + n < s.hi
      · have hz : s.size - n ≠ 0 := by omega
        refine ⟨false, ?_, by simp [Span.rest, hr]⟩
        have he : (⟨s.size - n, s.lo + n⟩ : Slot) = slotOf ⟨s.lo + n, s.hi, hr⟩ := by
          simp only [slotOf, Span.size, Slot.mk.injEq, and_true]
          omega
        simp [mallocScan, hs, hn, hu, hz, Span.rest, hr, he]
      · have hz : s.size - n = 0 := by omega
        refine ⟨true, ?_, by simp [Span.rest, hr]⟩
        simp [mallocScan, hs, hn, hz, removeSlot_eq, Span.rest, hr]
    · simp only [firstFit, hn, if_false, Option.map_eq_some_iff, Prod.mk.injEq] at h
      obtain ⟨⟨a', m⟩, hm, rfl, rfl⟩ := h
      obtain ⟨c, hc, hl⟩ := ih (fun t ht => hb t (by simp [ht])) hm
      refine ⟨c, by simp [mallocScan, hs, hn, hc], ?_⟩
      simp only [List.length_cons]
      omega

theorem firstFit_bound {n a : Nat} {es es' : List (Span Nat)} (h : firstFit n es = some (a, es'))
    (hb : ∀ s ∈ es, 1 ≤ s.lo ∧ s.hi < 2 ^ 32) : ∀ s ∈ es', 1 ≤ s.lo ∧ s.hi < 2 ^ 32 := by
  obtain ⟨pre, s, suf, rfl, rfl, -, -, -⟩ := firstFit_some h
  intro t ht
  rcases List.mem_append.mp ht with ht | ht
  · exact hb t (by simp [ht])
  · rcases List.mem_append.mp ht with ht | ht
    · have hs := hb s (by simp)
      have hr := rest_bounds ht
      omega
    · exact hb t (by simp [ht])

theorem firstFit_separated {n a : Nat} {es es' : List (Span Nat)}
    (h : firstFit n es = some (a, es')) (hs : Separated es) : Separated es' := by
  obtain ⟨pre, s, suf, rfl, rfl, -, -, -⟩ := firstFit_some h
  exact rest_separated n hs

/-- malloc when no entry is large enough. -/
theorem malloc_none {m : Map} {es : List (Span Nat)} (h : Holds m es) {n : Nat} (hn : 0 < n)
    (hf : firstFit n es = none) : malloc m n = some (0, m) := by
  have hs : mallocScan n m.slots = some (0, false, m.slots) := by
    rw [h.slots]
    exact mallocScan_none m.mapsize hf
  simp [malloc, hn.ne', hs]

/-- malloc is first fit on the entries, and mapsize counts the slots it frees. -/
theorem malloc_some {m : Map} {es es' : List (Span Nat)} (h : Holds m es) {n a : Nat}
    (hn : 0 < n) (hf : firstFit n es = some (a, es')) :
    ∃ m', malloc m n = some (a, m') ∧ Holds m' es' ∧ m'.mapwant = m.mapwant ∧
      m'.mapsize + es'.length = m.mapsize + es.length := by
  obtain ⟨c, hc, hl⟩ := mallocScan_some m.mapsize (fun s hs => (h.bound s hs).2) hf
  have hroom := h.room
  refine ⟨{ m with mapsize := m.mapsize + c.toNat,
                   slots := es'.map slotOf ++ zeros (m.mapsize + 1 + c.toNat) }, ?_, ?_, rfl, ?_⟩
  · have hu : (if c then u32 (m.mapsize + 1) else m.mapsize) = m.mapsize + c.toNat := by
      cases c with
      | false => rfl
      | true =>
        simp only [if_true, Bool.toNat_true]
        exact u32_eq (by simp only [Bool.toNat_true] at hl; omega)
    simp [malloc, hn.ne', h.slots, hc, hu]
  · exact ⟨by simp [Nat.add_right_comm], firstFit_separated hf h.sep,
      firstFit_bound hf h.bound, by simp only; omega⟩
  · simp only
    omega

end Svr32.Malloc
