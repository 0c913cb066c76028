import Mathlib.Data.List.Basic
import Mathlib.Data.Nat.ModEq

/-! A queue in a circle of `P` places: it begins at place `rd`, and its end may be before. -/
namespace Svr32.Lib
variable {α : Type*} {P rd : Nat}

theorem mod_two {a : Nat} (h : a < 2 * P) : a % P = if a < P then a else a - P := by
  split
  · rename_i ha
    exact Nat.mod_eq_of_lt ha
  · rename_i ha
    rw [Nat.mod_eq_sub_mod (by omega), Nat.mod_eq_of_lt (by omega)]

/-- A place that the `n` first elements take. -/
def Live (P rd n pos : Nat) : Prop := ∃ i, i < n ∧ pos = (rd + i) % P

/-- What comes after the queue is free. -/
theorem not_live_ahead {n j : Nat} (hrd : rd < P) (hj : n + j < P) :
    ¬ Live P rd n ((rd + n + j) % P) := by
  rintro ⟨i, hi, h⟩
  rw [mod_two (by omega), mod_two (by omega)] at h
  split at h <;> split at h <;> omega

/-- What has been left behind is free. -/
theorem not_live_behind {n t pos : Nat} (hn : n + t ≤ P) (ht : 0 < t) (htP : t ≤ pos)
    (hpos : pos ≤ P) : ¬ Live P (pos % P) n (pos - t) := by
  rintro ⟨i, hi, h⟩
  by_cases hlast : pos = P
  · rw [hlast, Nat.mod_self, Nat.zero_add, Nat.mod_eq_of_lt (by omega)] at h
    omega
  · rw [Nat.mod_eq_of_lt (show pos < P by omega), mod_two (by omega)] at h
    split at h <;> omega

theorem Live.drop {n k pos : Nat} (hk : k ≤ n) (h : Live P ((rd + k) % P) (n - k) pos) :
    Live P rd n pos := by
  obtain ⟨i, hi, rfl⟩ := h
  refine ⟨k + i, by omega, ?_⟩
  rw [Nat.mod_add_mod, Nat.add_assoc]

/-- The queue `q`, of which place `pos` holds `get pos`. -/
def Ring (P : Nat) (get : Nat → α) (rd : Nat) (q : List α) : Prop :=
  ∀ i (h : i < q.length), get ((rd + i) % P) = q[i]

theorem Ring.congr {get get' : Nat → α} {q : List α} (h : Ring P get rd q)
    (hg : ∀ pos, Live P rd q.length pos → get' pos = get pos) : Ring P get' rd q := by
  intro i hi
  rw [hg _ ⟨i, hi, rfl⟩]
  exact h i hi

theorem Ring.drop {get : Nat → α} {q : List α} (h : Ring P get rd q) (k : Nat) :
    Ring P get ((rd + k) % P) (q.drop k) := by
  intro i hi
  rw [List.length_drop] at hi
  rw [Nat.mod_add_mod, Nat.add_assoc, h (k + i) (by omega), List.getElem_drop]

theorem Ring.append {get get' : Nat → α} {q bs : List α} (h : Ring P get rd q)
    (hold : ∀ pos, Live P rd q.length pos → get' pos = get pos)
    (hnew : ∀ j (hj : j < bs.length), get' ((rd + q.length + j) % P) = bs[j]) :
    Ring P get' rd (q ++ bs) := by
  intro i hi
  by_cases hq : i < q.length
  · rw [List.getElem_append_left hq]
    exact h.congr hold i hq
  · rw [List.length_append] at hi
    obtain ⟨j, rfl⟩ : ∃ j, i = q.length + j := ⟨i - q.length, by omega⟩
    rw [List.getElem_append_right (by omega)]
    simp only [Nat.add_sub_cancel_left]
    rw [← Nat.add_assoc]
    exact hnew j (by omega)

/-- The first elements, which are read in one piece. -/
theorem Ring.take {get : Nat → α} {q : List α} (h : Ring P get rd q) {n : Nat}
    (hn : n ≤ q.length) (hP : rd + n ≤ P) : (List.range n).map (fun j => get (rd + j)) = q.take n := by
  apply List.ext_getElem
  · rw [List.length_map, List.length_range, List.length_take]
    omega
  · intro i hi hi'
    rw [List.length_map, List.length_range] at hi
    rw [List.getElem_map, List.getElem_range, List.getElem_take, ← h i (by omega),
      Nat.mod_eq_of_lt (by omega)]

end Svr32.Lib
