import Mathlib.Algebra.BigOperators.Group.List.Basic
import Mathlib.Algebra.GroupWithZero.Nat
import Mathlib.Algebra.Ring.Int.Defs

/-! Calendars: years of months of days, and the days counted one after the other. -/
namespace Svr32.Lib.Calendar

/-- Places the offset `d` among consecutive pieces: a piece, and an offset in it. -/
def locate : List Int → Int → Option (Nat × Int)
  | [], _ => none
  | k :: l, d => if d < k then some (0, d) else (locate l (d - k)).map fun p => (p.1 + 1, p.2)

/-- The pieces before a piece. -/
def upto (l : List Int) (m : Nat) : Int := (l.take m).sum

/-- An offset in a piece. -/
def InPiece (l : List Int) (m : Nat) (d : Int) : Prop := 0 ≤ d ∧ ∃ k, l[m]? = some k ∧ d < k

instance (l : List Int) (m : Nat) (d : Int) : Decidable (InPiece l m d) :=
  decidable_of_iff (0 ≤ d ∧ l[m]?.any (fun k => d < k) = true) (by
    simp [InPiece, Option.any_eq_true])

theorem upto_zero (l : List Int) : upto l 0 = 0 := by simp [upto]

theorem upto_cons (k : Int) (l : List Int) (m : Nat) : upto (k :: l) (m + 1) = k + upto l m := by
  simp [upto]

theorem locate_sound {l : List Int} {d : Int} {m : Nat} {e : Int} (h0 : 0 ≤ d)
    (h : locate l d = some (m, e)) : InPiece l m e ∧ upto l m + e = d := by
  induction l generalizing d m with
  | nil => cases h
  | cons k l ih =>
    rw [locate] at h
    split at h
    · next hk =>
      obtain ⟨rfl, rfl⟩ : 0 = m ∧ d = e := by simpa using h
      exact ⟨⟨h0, k, rfl, hk⟩, by rw [upto_zero, Int.zero_add]⟩
    · next hk =>
      obtain ⟨⟨n, e'⟩, hn, he⟩ := Option.map_eq_some_iff.mp h
      obtain ⟨rfl, rfl⟩ : n + 1 = m ∧ e' = e := by simpa using he
      obtain ⟨hp, hu⟩ := ih (by omega) hn
      refine ⟨⟨hp.1, by simpa using hp.2⟩, ?_⟩
      rw [upto_cons]
      omega

theorem locate_total {l : List Int} {d : Int} (h0 : 0 ≤ d) (h : d < l.sum) :
    ∃ p, locate l d = some p := by
  induction l generalizing d with
  | nil =>
    rw [List.sum_nil] at h
    omega
  | cons k l ih =>
    rw [List.sum_cons] at h
    rw [locate]
    split
    · exact ⟨(0, d), rfl⟩
    · next hk =>
      obtain ⟨p, hp⟩ := ih (d := d - k) (by omega) (by omega)
      exact ⟨(p.1 + 1, p.2), by rw [hp]; rfl⟩

theorem upto_nonneg {l : List Int} (hl : ∀ k ∈ l, 0 < k) (m : Nat) : 0 ≤ upto l m := by
  induction l generalizing m with
  | nil => simp [upto]
  | cons k l ih =>
    cases m with
    | zero => simp [upto]
    | succ m =>
      have := hl k (by simp)
      have := ih (fun x hx => hl x (by simp [hx])) m
      rw [upto_cons]
      omega

theorem locate_complete {l : List Int} (hl : ∀ k ∈ l, 0 < k) {m : Nat} {e : Int}
    (h : InPiece l m e) : locate l (upto l m + e) = some (m, e) := by
  induction l generalizing m with
  | nil =>
    obtain ⟨-, k, hk, -⟩ := h
    cases hk
  | cons k l ih =>
    have hl' : ∀ x ∈ l, 0 < x := fun x hx => hl x (by simp [hx])
    cases m with
    | zero =>
      obtain ⟨-, k', hk, he⟩ := h
      obtain rfl : k = k' := by simpa using hk
      rw [upto_zero, Int.zero_add, locate, if_pos he]
    | succ m =>
      have hm : InPiece l m e := ⟨h.1, by simpa using h.2⟩
      have h0 := upto_nonneg hl' m
      have he := h.1
      have hs : k + upto l m + e - k = upto l m + e := by omega
      rw [upto_cons, locate, if_neg (by omega), hs, ih hl' hm]
      rfl

theorem upto_succ {l : List Int} {m : Nat} {k : Int} (h : l[m]? = some k) :
    upto l (m + 1) = upto l m + k := by
  rw [upto, upto, List.take_add_one, List.sum_append, h]
  simp

theorem upto_length (l : List Int) : upto l l.length = l.sum := by rw [upto, List.take_length]

theorem sum_nonneg {l : List Int} (hl : ∀ k ∈ l, 0 < k) : 0 ≤ l.sum :=
  upto_length l ▸ upto_nonneg hl l.length

theorem upto_le_sum {l : List Int} (hl : ∀ k ∈ l, 0 < k) {m : Nat} {k : Int}
    (h : l[m]? = some k) : upto l m + k ≤ l.sum := by
  have hs : upto l (m + 1) + (l.drop (m + 1)).sum = l.sum := by
    rw [upto, ← List.sum_append, List.take_append_drop]
  have h0 : 0 ≤ (l.drop (m + 1)).sum := sum_nonneg fun x hx => hl x (List.mem_of_mem_drop hx)
  rw [upto_succ h] at hs
  omega

end Svr32.Lib.Calendar

namespace Svr32.Lib
open Calendar

/-- The lengths of the months of every year, and the days before it. -/
structure Calendar where
  months : Int → List Int
  before : Int → Int
  pos : ∀ y, ∀ k ∈ months y, 0 < k
  nonempty : ∀ y, months y ≠ []
  before_succ : ∀ y, before (y + 1) = before y + (months y).sum

namespace Calendar

/-- A date, with the months and the days counted from 0. -/
structure Date where
  year : Int
  month : Nat
  day : Int
deriving DecidableEq

variable (c : Calendar)

def Valid (t : Date) : Prop := InPiece (c.months t.year) t.month t.day

/-- The day of the year, and the number of the day. -/
def yday (t : Date) : Int := upto (c.months t.year) t.month + t.day

def number (t : Date) : Int := c.before t.year + c.yday t

variable {c}

theorem yday_bounds {t : Date} (h : c.Valid t) :
    0 ≤ c.yday t ∧ c.yday t < (c.months t.year).sum := by
  obtain ⟨h0, k, hk, hd⟩ := h
  have := upto_nonneg (c.pos t.year) t.month
  have := upto_le_sum (c.pos t.year) hk
  rw [yday]
  omega

theorem before_le {y z : Int} (h : y ≤ z) : c.before y ≤ c.before z := by
  obtain ⟨n, rfl⟩ := Int.le.dest h
  induction n with
  | zero => simp
  | succ n ih =>
    have hs := c.before_succ (y + n)
    have h0 := sum_nonneg (c.pos (y + n))
    have := ih (by omega)
    rw [show y + ((n + 1 : Nat) : Int) = y + n + 1 by omega]
    omega

theorem number_bounds {t : Date} (h : c.Valid t) :
    c.before t.year ≤ c.number t ∧ c.number t < c.before (t.year + 1) := by
  have := yday_bounds h
  rw [c.before_succ, number]
  omega

/-- Years do not overlap. -/
theorem year_le {t u : Date} (ht : c.Valid t) (hu : c.Valid u) (h : c.number t ≤ c.number u) :
    t.year ≤ u.year := by
  by_contra hn
  have := number_bounds ht
  have := number_bounds hu
  have hb : c.before (u.year + 1) ≤ c.before t.year := before_le (by omega)
  omega

/-- No two dates have the same number. -/
theorem number_inj {t u : Date} (ht : c.Valid t) (hu : c.Valid u)
    (h : c.number t = c.number u) : t = u := by
  have hy : t.year = u.year :=
    Int.le_antisymm (year_le ht hu (Int.le_of_eq h)) (year_le hu ht (Int.le_of_eq h.symm))
  have hd : c.yday t = c.yday u := by
    rw [number, number, hy] at h
    omega
  have h₁ := locate_complete (c.pos t.year) ht
  have h₂ := locate_complete (c.pos u.year) hu
  rw [yday, yday, hy] at hd
  rw [hy, hd, h₂] at h₁
  obtain ⟨hm, he⟩ : u.month = t.month ∧ u.day = t.day := by simpa using h₁
  cases t
  cases u
  simp_all

instance (t : Date) : Decidable (c.Valid t) :=
  inferInstanceAs (Decidable (InPiece (c.months t.year) t.month t.day))

variable (c) in
/-- The day after a date. -/
def next (t : Date) : Date :=
  if c.Valid { t with day := t.day + 1 } then { t with day := t.day + 1 }
  else if t.month + 1 < (c.months t.year).length then ⟨t.year, t.month + 1, 0⟩
  else ⟨t.year + 1, 0, 0⟩

/-- The day after has the next number. -/
theorem next_valid {t : Date} (h : c.Valid t) :
    c.Valid (c.next t) ∧ c.number (c.next t) = c.number t + 1 := by
  obtain ⟨h0, k, hk, hd⟩ := h
  rw [next]
  split
  · next hn =>
    refine ⟨hn, ?_⟩
    rw [number, number, yday, yday]
    dsimp only
    omega
  · next hn =>
    -- it was the last day of the month
    have hl : t.day + 1 = k := by
      by_contra hl
      exact hn ⟨by show 0 ≤ t.day + 1; omega, k, hk, by show t.day + 1 < k; omega⟩
    have hu := upto_succ hk
    split
    · next hm =>
      obtain ⟨j, hj⟩ : ∃ j, (c.months t.year)[t.month + 1]? = some j :=
        ⟨_, List.getElem?_eq_getElem hm⟩
      have hp := c.pos t.year j (List.mem_of_getElem? hj)
      refine ⟨⟨Int.le_refl 0, j, hj, hp⟩, ?_⟩
      rw [number, number, yday, yday]
      dsimp only
      omega
    · next hm =>
      have hlt := (List.getElem?_eq_some_iff.mp hk).1
      obtain ⟨j, l, hj⟩ := List.exists_cons_of_ne_nil (c.nonempty (t.year + 1))
      have hp := c.pos (t.year + 1) j (by rw [hj]; simp)
      refine ⟨⟨Int.le_refl 0, j, by rw [hj]; rfl, hp⟩, ?_⟩
      have hs : upto (c.months t.year) (t.month + 1) = (c.months t.year).sum := by
        rw [← upto_length]
        congr 1
        omega
      rw [number, number, yday, yday, c.before_succ]
      dsimp only
      rw [upto_zero]
      omega

/- The months of a year. -/
def monthLengths (leap : Bool) : List Int :=
  [31, if leap then 29 else 28, 31, 30, 31, 30, 31, 31, 30, 31, 30, 31]

theorem monthLengths_pos : ∀ leap, ∀ k ∈ monthLengths leap, 0 < k := by decide

theorem monthLengths_sum (leap : Bool) :
    (monthLengths leap).sum = if leap = true then 366 else 365 := by cases leap <;> rfl

def gregorianLeap (y : Int) : Bool := y % 4 = 0 ∧ (y % 100 ≠ 0 ∨ y % 400 = 0)

/-- The Gregorian calendar, with the days counted from the first of 1970. -/
def gregorian : Calendar where
  months y := monthLengths (gregorianLeap y)
  before y := 365 * (y - 1970) + (y - 1) / 4 - (y - 1) / 100 + (y - 1) / 400 - 477
  pos y := monthLengths_pos (gregorianLeap y)
  nonempty y := List.cons_ne_nil _ _
  before_succ y := by
    have h₄ : y / 4 = (y - 1) / 4 + if y % 4 = 0 then 1 else 0 := by split <;> omega
    have h₁₀₀ : y / 100 = (y - 1) / 100 + if y % 100 = 0 then 1 else 0 := by split <;> omega
    have h₄₀₀ : y / 400 = (y - 1) / 400 + if y % 400 = 0 then 1 else 0 := by split <;> omega
    have hd : y % 100 = 0 → y % 4 = 0 := by omega
    have hd' : y % 400 = 0 → y % 100 = 0 := by omega
    rw [monthLengths_sum, Int.add_sub_cancel, h₄, h₁₀₀, h₄₀₀]
    generalize (y - 1) / 4 = a at *
    generalize (y - 1) / 100 = b at *
    generalize (y - 1) / 400 = c at *
    by_cases h : gregorianLeap y = true
    · rw [if_pos h]
      obtain ⟨hy₄, hy | hy⟩ := of_decide_eq_true h
      · rw [if_pos hy₄, if_neg hy, if_neg (mt hd' hy)]
        omega
      · rw [if_pos hy₄, if_pos (hd' hy), if_pos hy]
        omega
    · rw [if_neg h]
      by_cases hy₄ : y % 4 = 0
      · have hy : y % 100 = 0 := by
          by_contra hn
          exact h (decide_eq_true ⟨hy₄, .inl hn⟩)
        have hy' : ¬ y % 400 = 0 := fun hn => h (decide_eq_true ⟨hy₄, .inr hn⟩)
        rw [if_pos hy₄, if_pos hy, if_neg hy']
        omega
      · rw [if_neg hy₄, if_neg (mt hd hy₄), if_neg (mt (hd ∘ hd') hy₄)]
        omega

end Calendar
end Svr32.Lib
