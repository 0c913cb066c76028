import Mathlib.Data.Finset.Card
import Mathlib.Data.Finset.Range
import Mathlib.Algebra.BigOperators.Group.Finset.Basic
import Mathlib.Algebra.BigOperators.Group.Finset.Piecewise
import Mathlib.Data.Fintype.Card

/-! Counting members of a finite set, and how the count moves when one member changes. -/
namespace Svr32.Lib
variable {α β : Type*} [DecidableEq α] {s : Finset α}

/-- A property that changes at one member at most. -/
theorem card_filter_change {P P' : α → Prop} [DecidablePred P] [DecidablePred P'] {x : α}
    (hx : x ∈ s) (h : ∀ y ∈ s, y ≠ x → (P' y ↔ P y)) :
    (s.filter P').card + (if P x then 1 else 0) = (s.filter P).card + (if P' x then 1 else 0) := by
  have hsplit : ∀ (R : α → Prop) [DecidablePred R],
      (s.filter R).card = (if R x then 1 else 0) + ((s.erase x).filter R).card := by
    intro R hR
    rw [Finset.card_filter, Finset.card_filter,
      Finset.add_sum_erase s (fun i => if R i then 1 else 0) hx]
  have hrest : (s.erase x).filter P' = (s.erase x).filter P := by
    refine Finset.filter_congr fun y hy => ?_
    exact h y (Finset.mem_of_mem_erase hy) (Finset.ne_of_mem_erase hy)
  rw [hsplit P, hsplit P', hrest]
  omega

/-- A sum of which one term changes at most. -/
theorem sum_change {f f' : α → Nat} {x : α} (hx : x ∈ s) (h : ∀ y ∈ s, y ≠ x → f' y = f y) :
    ∑ y ∈ s, f' y + f x = ∑ y ∈ s, f y + f' x := by
  have hrest : ∑ y ∈ s.erase x, f' y = ∑ y ∈ s.erase x, f y :=
    Finset.sum_congr rfl fun y hy => h y (Finset.mem_of_mem_erase hy) (Finset.ne_of_mem_erase hy)
  have h1 := Finset.add_sum_erase s f hx
  have h2 := Finset.add_sum_erase s f' hx
  rw [hrest] at h2
  omega

/- How many members of `s` lead to `d`. -/
def pointing [DecidableEq β] (s : Finset α) (f : α → Option β) (d : β) : Nat :=
  (s.filter fun b => f b = some d).card

/-- A pointer is set. -/
theorem pointing_update [DecidableEq β] (f : α → Option β) {x : α} (hx : x ∈ s) (v : Option β)
    (d : β) : pointing s (Function.update f x v) d + (if f x = some d then 1 else 0) =
      pointing s f d + (if v = some d then 1 else 0) := by
  have h := @card_filter_change _ _ _ (fun b => f b = some d)
    (fun b => Function.update f x v b = some d) _ _ _ hx fun y _ hy => by
      rw [Function.update_of_ne hy]
  simpa [pointing] using h

omit [DecidableEq α] in
theorem pointing_pos [DecidableEq β] {f : α → Option β} {x : α} {d : β} (hx : x ∈ s)
    (hf : f x = some d) : 0 < pointing s f d :=
  Finset.card_pos.mpr ⟨x, Finset.mem_filter.mpr ⟨hx, hf⟩⟩

/-- Different numbers below `m` are at most `m`. -/
theorem length_le_of_nodup {l : List Nat} {m : Nat} (hl : l.Nodup) (hlt : ∀ x ∈ l, x < m) :
    l.length ≤ m := by
  have hsub : l.toFinset ⊆ Finset.range m := fun x hx =>
    Finset.mem_range.mpr (hlt x (List.mem_toFinset.mp hx))
  have hc := Finset.card_le_card hsub
  rwa [List.toFinset_card_of_nodup hl, Finset.card_range] at hc

end Svr32.Lib

/-! Objects that hold at most one reference each, and how many refer to a target. -/
namespace Svr32.Lib
variable {δ π : Type*} [Fintype δ] [DecidableEq π] {ref ref' : δ → Option π} {d : δ} {p q : π}

/- How many objects refer to `p`. -/
def uses (ref : δ → Option π) (p : π) : Nat := (Finset.univ.filter fun d => ref d = some p).card

theorem uses_pos (h : ref d = some p) : 0 < uses ref p :=
  Finset.card_pos.mpr ⟨d, Finset.mem_filter.mpr ⟨Finset.mem_univ d, h⟩⟩

theorem uses_eq_zero : uses ref p = 0 ↔ ∀ d, ref d ≠ some p := by
  simp [uses, Finset.filter_eq_empty_iff]

variable [DecidableEq δ]

/-- A new reference. -/
theorem uses_attach (h : ref d = none) (q : π) :
    uses (Function.update ref d (some p)) q = uses ref q + if q = p then 1 else 0 := by
  by_cases hq : q = p
  · subst hq
    have hset : (Finset.univ.filter fun e => Function.update ref d (some q) e = some q) =
        insert d (Finset.univ.filter fun e => ref e = some q) := by
      ext e
      by_cases he : e = d
      · subst he
        simp
      · simp [he]
    rw [if_pos rfl, uses, hset, Finset.card_insert_of_notMem (by simp [h]), uses]
  · rw [if_neg hq, Nat.add_zero, uses, uses]
    congr 1
    ext e
    by_cases he : e = d
    · subst he
      simp [h, Ne.symm hq]
    · simp [Function.update_of_ne he]

/-- A reference is given up. -/
theorem uses_detach (h : ref d = some p) (q : π) :
    uses (Function.update ref d none) q + (if q = p then 1 else 0) = uses ref q := by
  have hback : Function.update (Function.update ref d none) d (some p) = ref := by
    rw [Function.update_idem, ← h, Function.update_eq_self]
  rw [← uses_attach (Function.update_self d none ref), hback]

end Svr32.Lib
