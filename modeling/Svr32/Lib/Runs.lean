import Svr32.Lib.Partition
import Mathlib.Data.List.Perm.Subperm

/-! Merging sorted runs: the runs are kept in the order of their heads, the first head is taken, and
the run it was taken from goes to a place where its next head belongs. What comes later compares
as not above what came before: `0 ≤ cmp x y` for `x` before `y`. -/
namespace Svr32.Lib.Runs
open Svr32.Lib.Partition
variable {E : Type*} {cmp : E → E → Int} {x y z : E} {P P' : List (List E)} {out : List E}

theorem ge_trans (hc : TotalPreorder cmp) (h : 0 ≤ cmp x y) (h' : 0 ≤ cmp y z) : 0 ≤ cmp x z := by
  have hs := hc.swap x y
  have hs' := hc.swap y z
  have hs'' := hc.swap x z
  have ht := hc.trans z y x
  have hr := hc.swap y x
  have hr' := hc.swap z y
  have hr'' := hc.swap z x
  omega

theorem gt_of_gt_of_ge (hc : TotalPreorder cmp) (h : 0 < cmp x y) (h' : 0 ≤ cmp y z) :
    0 < cmp x z := by
  have hge := ge_trans hc (Int.le_of_lt h) h'
  have hs := hc.swap x y
  have hs' := hc.swap y x
  have hs'' := hc.swap x z
  have ht := hc.trans x z y
  have hr := hc.swap z y
  have hr' := hc.swap y z
  omega

/- The head of the first run. -/
def first (P : List (List E)) : Option E := P.head?.bind List.head?

structure Ranked (cmp : E → E → Int) (P : List (List E)) : Prop where
  full : ∀ s ∈ P, s ≠ []
  runs : ∀ s ∈ P, s.Pairwise fun x y => 0 ≤ cmp x y
  heads : P.Pairwise fun s t => ∀ x, s.head? = some x → ∀ y, t.head? = some y → 0 ≤ cmp x y

/- The head `x` of the first run is taken. -/
inductive Advance (cmp : E → E → Int) : List (List E) → E → List (List E) → Prop
  | drop (x : E) (t : List (List E)) : Advance cmp ([x] :: t) x t
  | place (x : E) {y : E} {ys : List E} {l₁ l₂ : List (List E)}
      (front : ∀ s ∈ l₁, ∀ z, s.head? = some z → 0 ≤ cmp z y)
      (back : ∀ s ∈ l₂, ∀ z, s.head? = some z → 0 ≤ cmp y z) :
      Advance cmp ((x :: y :: ys) :: (l₁ ++ l₂)) x (l₁ ++ (y :: ys) :: l₂)

theorem Advance.first_eq (h : Advance cmp P x P') : first P = some x := by
  cases h <;> rfl

theorem Advance.perm (h : Advance cmp P x P') : P.flatten.Perm (x :: P'.flatten) := by
  cases h with
  | drop => exact .refl _
  | @place _ y ys l₁ l₂ _ _ =>
    refine .cons x ?_
    simp only [List.flatten_append, List.flatten_cons]
    show ((y :: ys) ++ (l₁.flatten ++ l₂.flatten)).Perm (l₁.flatten ++ ((y :: ys) ++ l₂.flatten))
    rw [← List.append_assoc, ← List.append_assoc]
    exact List.Perm.append_right _ List.perm_append_comm

/-- A run at a place where its head belongs. -/
theorem Ranked.place {l₁ l₂ : List (List E)} {ys : List E} (hr : Ranked cmp (l₁ ++ l₂))
    (hy : (y :: ys).Pairwise fun x y => 0 ≤ cmp x y)
    (front : ∀ s ∈ l₁, ∀ z, s.head? = some z → 0 ≤ cmp z y)
    (back : ∀ s ∈ l₂, ∀ z, s.head? = some z → 0 ≤ cmp y z) :
    Ranked cmp (l₁ ++ (y :: ys) :: l₂) := by
  obtain ⟨hfull, hruns, hheads⟩ := hr
  have hmem : ∀ s ∈ l₁ ++ (y :: ys) :: l₂, s = y :: ys ∨ s ∈ l₁ ++ l₂ := fun s hs =>
    List.mem_cons.mp (List.perm_middle.mem_iff.mp hs)
  refine ⟨fun s hs => ?_, fun s hs => ?_, ?_⟩
  · cases hmem s hs with
    | inl he => exact he ▸ List.cons_ne_nil y ys
    | inr hs => exact hfull s hs
  · cases hmem s hs with
    | inl he => exact he ▸ hy
    | inr hs => exact hruns s hs
  · obtain ⟨h₁, h₂, h₁₂⟩ := List.pairwise_append.mp hheads
    refine List.pairwise_append.mpr ⟨h₁, List.pairwise_cons.mpr ⟨fun t ht z hz => ?_, h₂⟩,
      fun s hs t ht => ?_⟩
    · rw [← Option.some.inj hz]
      exact back t ht
    · cases List.mem_cons.mp ht with
      | inl he =>
        intro a ha b hb
        rw [he] at hb
        rw [← Option.some.inj hb]
        exact front s hs a ha
      | inr ht => exact h₁₂ s hs t ht

theorem Advance.ranked (h : Advance cmp P x P') (hr : Ranked cmp P) : Ranked cmp P' := by
  obtain ⟨hfull, hruns, hheads⟩ := hr
  cases h with
  | drop =>
    exact ⟨fun s hs => hfull s (List.mem_cons_of_mem _ hs),
      fun s hs => hruns s (List.mem_cons_of_mem _ hs), (List.pairwise_cons.mp hheads).2⟩
  | @place _ y ys l₁ l₂ front back =>
    have hrest : Ranked cmp (l₁ ++ l₂) := ⟨fun s hs => hfull s (List.mem_cons_of_mem _ hs),
      fun s hs => hruns s (List.mem_cons_of_mem _ hs), (List.pairwise_cons.mp hheads).2⟩
    exact hrest.place (List.pairwise_cons.mp (hruns _ List.mem_cons_self)).2 front back

/-- What is taken first is not below anything that is left. -/
theorem Ranked.first_le (hc : TotalPreorder cmp) (hr : Ranked cmp P) (hx : first P = some x)
    (hy : y ∈ P.flatten) : 0 ≤ cmp x y := by
  cases P with
  | nil => cases hx
  | cons s t =>
    have hx : s.head? = some x := hx
    obtain ⟨u, hu, hyu⟩ := List.mem_flatten.mp hy
    have hhead : ∀ z, u.head? = some z → 0 ≤ cmp x z := by
      intro z hz
      cases List.mem_cons.mp hu with
      | inl he =>
        subst he
        rw [hx] at hz
        exact Int.le_of_eq (Option.some.inj hz ▸ (hc.refl x).symm)
      | inr hu => exact (List.pairwise_cons.mp hr.heads).1 u hu x hx z hz
    cases u with
    | nil => exact absurd rfl (hr.full [] hu)
    | cons z u =>
      have hxz := hhead z rfl
      cases List.mem_cons.mp hyu with
      | inl he => exact he ▸ hxz
      | inr hyu => exact ge_trans hc hxz ((List.pairwise_cons.mp (hr.runs _ hu)).1 y hyu)

/- All heads are taken, one after the other. -/
inductive Merged (cmp : E → E → Int) : List (List E) → List E → Prop
  | nil : Merged cmp [] []
  | cons {P P' : List (List E)} {x : E} {out : List E} (ha : Advance cmp P x P')
      (hm : Merged cmp P' out) : Merged cmp P (x :: out)

theorem Merged.perm (h : Merged cmp P out) : out.Perm P.flatten := by
  induction h with
  | nil => exact .refl _
  | cons ha _ ih => exact (ih.cons _).trans ha.perm.symm

theorem Merged.sorted (hc : TotalPreorder cmp) (h : Merged cmp P out) (hr : Ranked cmp P) :
    out.Pairwise fun x y => 0 ≤ cmp x y := by
  induction h with
  | nil => exact List.Pairwise.nil
  | cons ha hm ih =>
    refine List.pairwise_cons.mpr ⟨fun y hy => ?_, ih (ha.ranked hr)⟩
    exact hr.first_le hc ha.first_eq (ha.perm.mem_iff.mpr (.tail _ (hm.perm.mem_iff.mp hy)))

/- A head that is equal to `x` is taken, and then all that follow. -/
inductive Skips (cmp : E → E → Int) (x : E) : List (List E) → List (List E) → Prop
  | stop {P P' : List (List E)} {y : E} (ha : Advance cmp P y P') (he : cmp y x = 0)
      (hn : ∀ z, first P' = some z → cmp z x ≠ 0) : Skips cmp x P P'
  | more {P P₁ P' : List (List E)} {y : E} (ha : Advance cmp P y P₁) (he : cmp y x = 0)
      (hs : Skips cmp x P₁ P') : Skips cmp x P P'

theorem Skips.ranked (h : Skips cmp x P P') (hr : Ranked cmp P) : Ranked cmp P' := by
  induction h with
  | stop ha => exact ha.ranked hr
  | more ha _ _ ih => exact ih (ha.ranked hr)

theorem Skips.subperm (h : Skips cmp x P P') :
    ∃ y, first P = some y ∧ List.Subperm (y :: P'.flatten) P.flatten := by
  induction h with
  | stop ha => exact ⟨_, ha.first_eq, ha.perm.symm.subperm⟩
  | @more P P₁ P' y ha he hs ih =>
    obtain ⟨z, -, hz⟩ := ih
    have hsub : List.Subperm P'.flatten P₁.flatten :=
      (List.sublist_cons_self z _).subperm.trans hz
    exact ⟨y, ha.first_eq, ((List.subperm_cons y).mpr hsub).trans ha.perm.symm.subperm⟩

theorem Skips.covers (h : Skips cmp x P P') (hy : y ∈ P.flatten) :
    cmp y x = 0 ∨ y ∈ P'.flatten := by
  induction h with
  | stop ha he _ =>
    cases List.mem_cons.mp (ha.perm.mem_iff.mp hy) with
    | inl hyx => exact .inl (hyx ▸ he)
    | inr hy => exact .inr hy
  | more ha he _ ih =>
    cases List.mem_cons.mp (ha.perm.mem_iff.mp hy) with
    | inl hyx => exact .inl (hyx ▸ he)
    | inr hy => exact ih hy

theorem Skips.stops (h : Skips cmp x P P') : ∀ z, first P' = some z → cmp z x ≠ 0 := by
  induction h with
  | stop _ _ hn => exact hn
  | more _ _ _ ih => exact ih

/-- What is left is below `x`. -/
theorem Skips.left_lt (hc : TotalPreorder cmp) (h : Skips cmp x P P') (hr : Ranked cmp P)
    (hx : first P = some x) (hy : y ∈ P'.flatten) : 0 < cmp x y := by
  have hr' := h.ranked hr
  obtain ⟨z, hz⟩ : ∃ z, first P' = some z := by
    cases P' with
    | nil => cases hy
    | cons s t =>
      cases s with
      | nil => exact absurd rfl (hr'.full [] List.mem_cons_self)
      | cons z s => exact ⟨z, rfl⟩
  obtain ⟨w, hw, hsub⟩ := h.subperm
  have hmem : z ∈ P.flatten := hsub.subset (.tail _ (by
    cases P' with
    | nil => cases hz
    | cons s t =>
      have hz : s.head? = some z := hz
      exact List.mem_flatten.mpr ⟨s, List.mem_cons_self, List.mem_of_mem_head? hz⟩))
  have hge := hr.first_le hc hx hmem
  have hne := h.stops z hz
  have hs := hc.swap x z
  have hs' := hc.swap z x
  exact gt_of_gt_of_ge hc (show 0 < cmp x z by omega) (hr'.first_le hc hz hy)

/- One of each class of equal heads. -/
inductive Uniqued (cmp : E → E → Int) : List (List E) → List E → Prop
  | nil : Uniqued cmp [] []
  | cons {P P' : List (List E)} {x : E} {out : List E} (hx : first P = some x)
      (hs : Skips cmp x P P') (hm : Uniqued cmp P' out) : Uniqued cmp P (x :: out)

theorem Uniqued.subperm (h : Uniqued cmp P out) : List.Subperm out P.flatten := by
  induction h with
  | nil => exact .refl _
  | @cons P P' x out hx hs hm ih =>
    obtain ⟨y, hy, hsub⟩ := hs.subperm
    cases hx.symm.trans hy
    exact ((List.subperm_cons x).mpr ih).trans hsub

theorem Uniqued.sorted (hc : TotalPreorder cmp) (h : Uniqued cmp P out) (hr : Ranked cmp P) :
    out.Pairwise fun x y => 0 < cmp x y := by
  induction h with
  | nil => exact List.Pairwise.nil
  | cons hx hs hm ih =>
    refine List.pairwise_cons.mpr ⟨fun y hy => ?_, ih (hs.ranked hr)⟩
    exact hs.left_lt hc hr hx (hm.subperm.subset hy)

theorem Uniqued.covers (h : Uniqued cmp P out) (hy : y ∈ P.flatten) :
    ∃ z ∈ out, cmp y z = 0 := by
  induction h with
  | nil => cases hy
  | @cons P P' x out hx hs hm ih =>
    cases hs.covers hy with
    | inl he => exact ⟨x, List.mem_cons_self, he⟩
    | inr hy =>
      obtain ⟨z, hz, he⟩ := ih hy
      exact ⟨z, List.mem_cons_of_mem x hz, he⟩

end Svr32.Lib.Runs
