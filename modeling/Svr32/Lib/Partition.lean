import Mathlib.Data.List.Perm.Basic
import Mathlib.Data.List.Nodup
import Mathlib.Logic.Equiv.Basic
import Mathlib.Logic.Function.Basic

/-! Sorting in place by a partition in three parts: the elements below a pivot, those that compare
equal to it, and those above it. The array is a function of the index. -/
namespace Svr32.Lib.Partition
open Equiv (swap)
variable {E : Type*} {cmp : E → E → Int} {p : E} {v v' w : Nat → E} {a b c l i lp hp j k : Nat}

/- A comparison under which any two elements are related, and transitively. -/
structure TotalPreorder (cmp : E → E → Int) : Prop where
  swap : ∀ x y, cmp x y < 0 ↔ 0 < cmp y x
  trans : ∀ x y z, cmp x y ≤ 0 → cmp y z ≤ 0 → cmp x z ≤ 0

theorem TotalPreorder.refl (h : TotalPreorder cmp) (x : E) : cmp x x = 0 := by
  have := h.swap x x
  omega

/- An element that is equal to the pivot stands for it. -/
theorem TotalPreorder.congr (h : TotalPreorder cmp) {x y z : E} (he : cmp y z = 0) :
    (cmp x y < 0 ↔ cmp x z < 0) ∧ (cmp x y = 0 ↔ cmp x z = 0) := by
  have h₁ := h.trans x y z
  have h₂ := h.trans x z y
  have h₃ := h.trans y x z
  have h₄ := h.trans z x y
  have h₅ := h.trans y z x
  have h₆ := h.trans z y x
  have s₁ := h.swap x y
  have s₂ := h.swap x z
  have s₃ := h.swap y z
  have s₄ := h.swap y x
  have s₅ := h.swap z x
  have s₆ := h.swap z y
  omega

/-! Arrays with the same elements. -/

/- The elements from `a` to `l` are in another order in `v'`. -/
def Shuffles (a l : Nat) (v v' : Nat → E) : Prop :=
  ∃ s : Equiv.Perm Nat, (∀ k, k < a ∨ l ≤ k → s k = k) ∧ v' = v ∘ s

theorem Shuffles.refl (a l : Nat) (v : Nat → E) : Shuffles a l v v :=
  ⟨Equiv.refl Nat, fun _ _ => rfl, rfl⟩

theorem Shuffles.trans (h : Shuffles a l v v') (h' : Shuffles a l v' w) : Shuffles a l v w := by
  obtain ⟨s, hs, rfl⟩ := h
  obtain ⟨s', hs', rfl⟩ := h'
  exact ⟨s'.trans s, fun k hk => by rw [Equiv.trans_apply, hs' k hk, hs k hk], rfl⟩

theorem Shuffles.mono (h : Shuffles b c v v') (hb : a ≤ b) (hc : c ≤ l) : Shuffles a l v v' := by
  obtain ⟨s, hs, rfl⟩ := h
  exact ⟨s, fun k hk => hs k (by omega), rfl⟩

theorem Shuffles.outside (h : Shuffles a l v v') (hk : k < a ∨ l ≤ k) : v' k = v k := by
  obtain ⟨s, hs, rfl⟩ := h
  exact congrArg v (hs k hk)

theorem shuffles_swap (hi : a ≤ i ∧ i < l) (hj : a ≤ j ∧ j < l) :
    Shuffles a l v (v ∘ swap i j) :=
  ⟨swap i j, fun k hk => Equiv.swap_apply_of_ne_of_ne (by omega) (by omega), rfl⟩

theorem shuffles_rotate (hi : a ≤ i ∧ i < l) (hj : a ≤ j ∧ j < l) (hk : a ≤ k ∧ k < l) :
    Shuffles a l v (v ∘ (swap k j).trans (swap i k)) :=
  (shuffles_swap hi hk).trans (shuffles_swap hk hj)

/- What holds of all elements of the range still does. -/
theorem Shuffles.forall {P : E → Prop} (h : Shuffles a l v v')
    (hv : ∀ k, a ≤ k → k < l → P (v k)) : ∀ k, a ≤ k → k < l → P (v' k) := by
  obtain ⟨s, hs, rfl⟩ := h
  intro k hak hkl
  refine hv (s k) ?_ ?_ <;> by_contra hn
  · have he := s.injective (hs (s k) (by omega))
    omega
  · have he := s.injective (hs (s k) (by omega))
    omega

theorem Shuffles.perm {n : Nat} (h : Shuffles 0 n v v') :
    ((List.range n).map v').Perm ((List.range n).map v) := by
  obtain ⟨s, hs, rfl⟩ := id h
  rw [← List.map_map]
  refine List.Perm.map v ((List.perm_ext_iff_of_nodup ?_ List.nodup_range).2 fun k => ?_)
  · exact List.nodup_range.map s.injective
  · rw [List.mem_map, List.mem_range]
    constructor
    · rintro ⟨k, hk, rfl⟩
      exact (Shuffles.forall (P := fun k => k < n) (v := id) ⟨s, hs, rfl⟩ (fun _ _ h => h)) k
        (Nat.zero_le k) (List.mem_range.1 hk)
    · intro hk
      refine ⟨s.symm k, List.mem_range.2 ?_, s.apply_symm_apply k⟩
      by_contra hn
      have he := hs (s.symm k) (.inr (Nat.not_lt.1 hn))
      rw [s.apply_symm_apply] at he
      omega

/- Exchanges as they are made, one element after the other. -/
theorem update_swap (v : Nat → E) (i j : Nat) :
    Function.update (Function.update v i (v j)) j (v i) = v ∘ swap i j := by
  funext k
  simp only [Function.update_apply, Function.comp_apply]
  grind

theorem update_rotate (v : Nat → E) (hj : i ≠ j) (hk : i ≠ k) :
    Function.update (Function.update (Function.update v i (v k)) k (v j)) j (v i) =
      v ∘ (swap k j).trans (swap i k) := by
  funext m
  simp only [Function.update_apply, Function.comp_apply]
  grind

/-! The partition. -/

/- Up to `i` the elements are below the pivot, from `lp` to `hp` they are equal to it, and after
`j` they are above it. -/
structure Split (cmp : E → E → Int) (p : E) (v : Nat → E) (a i lp hp j l : Nat) : Prop where
  le_i : a ≤ i
  i_le : i ≤ lp
  lp_le : lp ≤ hp
  hp_le : hp ≤ j
  j_lt : j < l
  low : ∀ k, a ≤ k → k < i → cmp (v k) p < 0
  mid : ∀ k, lp ≤ k → k ≤ hp → cmp (v k) p = 0
  high : ∀ k, j < k → k < l → 0 < cmp (v k) p

theorem split_start (h : TotalPreorder cmp) (ha : a ≤ k) (hl : k < l) :
    Split cmp (v k) v a a k k (l - 1) l := by
  refine ⟨Nat.le_refl _, ha, Nat.le_refl _, by omega, by omega, fun m _ _ => by omega,
    fun m h₁ h₂ => ?_, fun m _ _ => by omega⟩
  rw [show m = k by omega]
  exact h.refl _

section moves
variable (h : Split cmp p v a i lp hp j l)
include h

theorem Split.left_eq (hi : i < lp) (he : cmp (v i) p = 0) :
    Split cmp p (v ∘ swap i (lp - 1)) a i (lp - 1) hp j l := by
  obtain ⟨h₁, h₂, h₃, h₄, h₅, low, mid, high⟩ := h
  constructor <;> grind

theorem Split.left_lt (hi : i < lp) (hlt : cmp (v i) p < 0) :
    Split cmp p v a (i + 1) lp hp j l := by
  obtain ⟨h₁, h₂, h₃, h₄, h₅, low, mid, high⟩ := h
  constructor <;> grind

theorem Split.right_eq (hj : hp < j) (he : cmp (v j) p = 0) :
    Split cmp p (v ∘ swap (hp + 1) j) a i lp (hp + 1) j l := by
  obtain ⟨h₁, h₂, h₃, h₄, h₅, low, mid, high⟩ := h
  constructor <;> grind

theorem Split.right_gt (hj : hp < j) (hgt : 0 < cmp (v j) p) :
    Split cmp p v a i lp hp (j - 1) l := by
  obtain ⟨h₁, h₂, h₃, h₄, h₅, low, mid, high⟩ := h
  constructor <;> grind

theorem Split.exchange (hi : i < lp) (hj : hp < j) (hgt : 0 < cmp (v i) p)
    (hlt : cmp (v j) p < 0) : Split cmp p (v ∘ swap i j) a (i + 1) lp hp (j - 1) l := by
  obtain ⟨h₁, h₂, h₃, h₄, h₅, low, mid, high⟩ := h
  constructor <;> grind

/- With no room on the left the equal elements move up by one. -/
theorem Split.shift_up (hi : i = lp) (hj : hp < j) (hlt : cmp (v j) p < 0) :
    Split cmp p (v ∘ (swap j (hp + 1)).trans (swap i j)) a (lp + 1) (lp + 1) (hp + 1) j l := by
  obtain ⟨h₁, h₂, h₃, h₄, h₅, low, mid, high⟩ := h
  constructor <;> grind

/- With no room on the right they move down. -/
theorem Split.shift_down (hi : i < lp) (hj : j = hp) (hgt : 0 < cmp (v i) p) :
    Split cmp p (v ∘ (swap i (lp - 1)).trans (swap j i)) a i (lp - 1) (hp - 1) (hp - 1) l := by
  obtain ⟨h₁, h₂, h₃, h₄, h₅, low, mid, high⟩ := h
  constructor <;> grind

end moves

/-! Sorting. -/

def Sorted (cmp : E → E → Int) (v : Nat → E) (a l : Nat) : Prop :=
  ∀ k m, a ≤ k → k < m → m < l → cmp (v k) (v m) ≤ 0

/- The two outer parts are sorted apart, in either order. -/
theorem Split.sorted (hc : TotalPreorder cmp) (h : Split cmp p v a lp lp hp hp l)
    (hmid : ∀ k, lp ≤ k → k ≤ hp → v' k = v k)
    (hlow : ∀ k, a ≤ k → k < lp → cmp (v' k) p < 0) (hsl : Sorted cmp v' a lp)
    (hhigh : ∀ k, hp < k → k < l → 0 < cmp (v' k) p) (hsr : Sorted cmp v' (hp + 1) l) :
    Sorted cmp v' a l := by
  have hle : ∀ k, a ≤ k → k ≤ hp → cmp (v' k) p ≤ 0 := by
    intro k hk hkh
    by_cases hkl : k < lp
    · exact Int.le_of_lt (hlow k hk hkl)
    · have he := h.mid k (by omega) hkh
      rw [hmid k (by omega) hkh]
      omega
  have hge : ∀ k, lp ≤ k → k < l → cmp p (v' k) ≤ 0 := by
    intro k hk hkl
    by_cases hkh : k ≤ hp
    · have he := h.mid k hk hkh
      have hs := hc.swap (v k) p
      rw [hmid k hk hkh]
      have hs' := hc.swap p (v k)
      omega
    · exact Int.le_of_lt ((hc.swap _ _).2 (hhigh k (by omega) hkl))
  intro k m hk hkm hml
  by_cases hm : m < lp
  · exact hsl k m hk hkm hm
  · by_cases hh : k ≤ hp
    · exact hc.trans _ p _ (hle k hk hh) (hge m (by omega) hml)
    · exact hsr k m (by omega) hkm hml

theorem Sorted.congr (h : Sorted cmp v a l) (he : ∀ k, a ≤ k → k < l → v' k = v k) :
    Sorted cmp v' a l := by
  intro k m hk hkm hml
  rw [he k hk (by omega), he m (by omega) hml]
  exact h k m hk hkm hml

/- First the lower part, or first the upper one. -/
theorem Split.lower_upper (hc : TotalPreorder cmp) (h : Split cmp p v a lp lp hp hp l)
    (h₁ : Shuffles a lp v w) (hs₁ : Sorted cmp w a lp) (h₂ : Shuffles (hp + 1) l w v')
    (hs₂ : Sorted cmp v' (hp + 1) l) : Sorted cmp v' a l ∧ Shuffles a l v v' := by
  have hlh := h.lp_le
  have ha := h.le_i
  have hl := h.j_lt
  have hlower : ∀ k, k ≤ hp → v' k = w k := fun k hk => h₂.outside (by omega)
  have hupper : ∀ k, lp ≤ k → w k = v k := fun k hk => h₁.outside (by omega)
  refine ⟨h.sorted hc (fun k hk hkh => ?_) (fun k hk hkl => ?_) (hs₁.congr fun k _ hk => ?_)
    (fun k hk hkl => ?_) hs₂, (h₁.mono (Nat.le_refl _) (by omega)).trans
      (h₂.mono (by omega) (Nat.le_refl _))⟩
  · rw [hlower k hkh, hupper k hk]
  · rw [hlower k (by omega)]
    exact h₁.forall (P := fun x => cmp x p < 0) h.low k hk hkl
  · exact hlower k (by omega)
  · refine h₂.forall (P := fun x => 0 < cmp x p) (fun k hk hkl => ?_) k hk hkl
    rw [hupper k (by omega)]
    exact h.high k hk hkl

theorem Split.upper_lower (hc : TotalPreorder cmp) (h : Split cmp p v a lp lp hp hp l)
    (h₁ : Shuffles (hp + 1) l v w) (hs₁ : Sorted cmp w (hp + 1) l) (h₂ : Shuffles a lp w v')
    (hs₂ : Sorted cmp v' a lp) : Sorted cmp v' a l ∧ Shuffles a l v v' := by
  have hlh := h.lp_le
  have ha := h.le_i
  have hl := h.j_lt
  have hlower : ∀ k, k ≤ hp → w k = v k := fun k hk => h₁.outside (by omega)
  have hupper : ∀ k, lp ≤ k → v' k = w k := fun k hk => h₂.outside (by omega)
  refine ⟨h.sorted hc (fun k hk hkh => ?_) (fun k hk hkl => ?_) hs₂ (fun k hk hkl => ?_)
    (hs₁.congr fun k hk _ => ?_), (h₁.mono (by omega) (Nat.le_refl _)).trans
      (h₂.mono (Nat.le_refl _) (by omega))⟩
  · rw [hupper k hk, hlower k hkh]
  · refine h₂.forall (P := fun x => cmp x p < 0) (fun k hk hkl => ?_) k hk hkl
    rw [hlower k (by omega)]
    exact h.low k hk hkl
  · rw [hupper k (by omega)]
    exact h₁.forall (P := fun x => 0 < cmp x p) h.high k hk hkl
  · exact hupper k (by omega)

end Svr32.Lib.Partition
