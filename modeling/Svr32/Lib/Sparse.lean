import Mathlib.Order.Lattice
import Mathlib.Data.List.Pairwise
import Mathlib.Data.List.Nodup

/-! Functions of finite support kept as lists of entries in strict order of their keys.
An entry is anything with a key and a value; the value of an absent key is zero. -/
namespace Svr32.Lib
variable {α κ : Type*} [LinearOrder κ]

/- The value at `k`. -/
def look (key : α → κ) (val : α → Int) (l : List α) (k : κ) : Int :=
  ((l.find? fun e => decide (key e = k)).map val).getD 0

/- In strict order of the keys, without zero entries. -/
structure Sparse (key : α → κ) (val : α → Int) (l : List α) : Prop where
  sorted : l.Pairwise fun e e' => key e < key e'
  nonzero : ∀ e ∈ l, val e ≠ 0

variable {key : α → κ} {val : α → Int}

theorem look_of_not_mem {l : List α} {k : κ} (h : ∀ e ∈ l, key e ≠ k) : look key val l k = 0 := by
  have hf : (l.find? fun e => decide (key e = k)) = none := by
    rw [List.find?_eq_none]
    intro e he
    simpa using h e he
  simp [look, hf]

theorem look_cons (e : α) (l : List α) (k : κ) :
    look key val (e :: l) k = if key e = k then val e else look key val l k := by
  by_cases h : key e = k <;> simp [look, h]

theorem look_append (l l' : List α) (k : κ) (h : ∀ e ∈ l, key e ≠ k) :
    look key val (l ++ l') k = look key val l' k := by
  induction l with
  | nil => rfl
  | cons e l ih =>
    rw [List.cons_append, look_cons, if_neg (h e (by simp))]
    exact ih fun e' he' => h e' (by simp [he'])

theorem look_mem {l : List α} (h : Sparse key val l) {e : α} (he : e ∈ l) :
    look key val l (key e) = val e := by
  obtain ⟨l₁, l₂, rfl⟩ := List.append_of_mem he
  have hs := (List.pairwise_append.mp h.sorted).2.2
  rw [look_append l₁ _ _ fun e' he' => ne_of_lt (hs e' he' e (by simp)), look_cons, if_pos rfl]

/-- With one entry put between smaller and greater ones. -/
theorem look_insert {l₁ l₂ : List α} {e : α} (h : ∀ a ∈ l₁, key a < key e) (k : κ) :
    look key val (l₁ ++ e :: l₂) k = if key e = k then val e else look key val (l₁ ++ l₂) k := by
  induction l₁ with
  | nil => exact look_cons e l₂ k
  | cons a l₁ ih =>
    have ha := h a (by simp)
    have ih := ih fun b hb => h b (by simp [hb])
    simp only [List.cons_append, look_cons, ih]
    by_cases hk : key e = k
    · rw [if_neg (hk ▸ ne_of_lt ha), if_pos hk, if_pos hk]
    · simp only [if_neg hk]

theorem Sparse.insert {l₁ l₂ : List α} {e : α} (h : Sparse key val (l₁ ++ l₂))
    (h₁ : ∀ a ∈ l₁, key a < key e) (h₂ : ∀ a ∈ l₂, key e < key a) (hv : val e ≠ 0) :
    Sparse key val (l₁ ++ e :: l₂) := by
  obtain ⟨hs₁, hs₂, hs⟩ := List.pairwise_append.mp h.sorted
  refine ⟨List.pairwise_append.mpr ⟨hs₁, List.pairwise_cons.mpr ⟨h₂, hs₂⟩, fun a ha b hb => ?_⟩,
    fun a ha => ?_⟩
  · cases List.mem_cons.mp hb with
    | inl hbe => exact hbe ▸ h₁ a ha
    | inr hb => exact hs a ha b hb
  · cases List.mem_cons.mp (List.perm_middle.mem_iff.mp ha) with
    | inl hae => exact hae ▸ hv
    | inr ha => exact h.nonzero a ha

theorem Sparse.remove {l₁ l₂ : List α} {e : α} (h : Sparse key val (l₁ ++ e :: l₂)) :
    Sparse key val (l₁ ++ l₂) := by
  have hsub : (l₁ ++ l₂).Sublist (l₁ ++ e :: l₂) := (List.sublist_cons_self e l₂).append_left l₁
  exact ⟨h.sorted.sublist hsub, fun a ha => h.nonzero a (hsub.subset ha)⟩

theorem Sparse.filter {l : List α} (h : Sparse key val l) (p : α → Bool) :
    Sparse key val (l.filter p) :=
  ⟨h.sorted.sublist List.filter_sublist, fun e he => h.nonzero e (List.mem_of_mem_filter he)⟩

/-- A condition on keys that drops entries leaves the values of the other keys. -/
theorem look_filter (l : List α) {p : κ → Bool} (k : κ) :
    look key val (l.filter fun e => p (key e)) k = if p k then look key val l k else 0 := by
  induction l with
  | nil => simp [look]
  | cons e l ih =>
    by_cases hp : p (key e) = true
    · rw [List.filter_cons, if_pos hp, look_cons, look_cons, ih]
      by_cases hk : key e = k
      · simp [hk, hk ▸ hp]
      · simp [hk]
    · rw [List.filter_cons, if_neg hp, look_cons, ih]
      by_cases hk : key e = k
      · simp [hk ▸ hp]
      · simp [hk]

/-- Two such lists with the same values are equal. -/
theorem Sparse.ext {l l' : List α} (h : Sparse key val l) (h' : Sparse key val l')
    (hinj : ∀ e e', key e = key e' → val e = val e' → e = e')
    (hl : ∀ k, look key val l k = look key val l' k) : l = l' := by
  induction l generalizing l' with
  | nil =>
    cases l' with
    | nil => rfl
    | cons e' l' =>
      have he := hl (key e')
      rw [look_mem h' (by simp)] at he
      exact absurd he.symm (h'.nonzero e' (by simp))
  | cons e l ih =>
    have hmem : ∀ {a : α} {m m' : List α}, Sparse key val m → Sparse key val m' →
        (∀ k, look key val m k = look key val m' k) → a ∈ m → ∃ b ∈ m', key b = key a := by
      intro a m m' hm hm' hmm ha
      by_contra hno
      have h0 := (@look_of_not_mem _ _ _ key val m' (key a))
        fun b hb hk => hno ⟨b, hb, hk⟩
      rw [← hmm, look_mem hm ha] at h0
      exact hm.nonzero a ha h0
    cases l' with
    | nil =>
      obtain ⟨b, hb, -⟩ := hmem (a := e) h h' hl (by simp)
      cases hb
    | cons e' l' =>
      obtain ⟨hlt, hs⟩ := List.pairwise_cons.mp h.sorted
      obtain ⟨hlt', hs'⟩ := List.pairwise_cons.mp h'.sorted
      -- both first keys are the least key
      have hkey : key e = key e' := by
        obtain ⟨b, hb, hbe⟩ := hmem (a := e) h h' hl (by simp)
        obtain ⟨b', hb', hbe'⟩ := hmem (a := e') h' h (fun k => (hl k).symm) (by simp)
        have hle : key e' ≤ key e := by
          rw [← hbe]
          cases List.mem_cons.mp hb with
          | inl hbe => exact le_of_eq (by rw [hbe])
          | inr hb => exact le_of_lt (hlt' b hb)
        have hle' : key e ≤ key e' := by
          rw [← hbe']
          cases List.mem_cons.mp hb' with
          | inl hbe => exact le_of_eq (by rw [hbe])
          | inr hb => exact le_of_lt (hlt b' hb)
        exact le_antisymm hle' hle
      have hval : val e = val e' := by
        have hv := hl (key e)
        rw [look_mem h (by simp), hkey, look_mem h' (by simp)] at hv
        exact hv
      have hee := hinj e e' hkey hval
      subst hee
      refine congrArg (e :: ·) (ih ⟨hs, fun a ha => h.nonzero a (by simp [ha])⟩
        ⟨hs', fun a ha => h'.nonzero a (by simp [ha])⟩ fun k => ?_)
      by_cases hk : key e = k
      · rw [look_of_not_mem fun a ha => hk ▸ (ne_of_lt (hlt a ha)).symm,
          look_of_not_mem fun a ha => hk ▸ (ne_of_lt (hlt' a ha)).symm]
      · have hkl := hl k
        rwa [look_cons, look_cons, if_neg hk, if_neg hk] at hkl

end Svr32.Lib
