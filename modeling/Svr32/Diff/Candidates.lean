import Svr32.Diff.Sorted

/-! stone: what the members of one class do to the candidates. -/
namespace Svr32.Diff
open Lib (Arr put put_self put_ne)

theorem Cands.install_clist (s : Cands) (l x y pred : Nat) {p : Nat} (h : p ≠ s.clen) :
    (s.install l x y pred).clist p = s.clist p := put_ne _ _ h

theorem Cands.install_new (s : Cands) (l x y pred : Nat) :
    (s.install l x y pred).clist s.clen = ⟨x, y, pred⟩ := put_self _ _ _

theorem Cands.install_c (s : Cands) (l x y pred : Nat) : (s.install l x y pred).c l = s.clen :=
  put_self _ _ _

theorem Cands.install_c_ne (s : Cands) {l l' : Nat} (x y pred : Nat) (h : l' ≠ l) :
    (s.install l x y pred).c l' = s.c l' := put_ne _ _ h

theorem Cands.install_y (s : Cands) (l x y pred : Nat) : (s.install l x y pred).y l = y := by
  unfold Cands.y
  rw [s.install_c, s.install_new]

theorem Cands.install_y_ne (s : Cands) {l l' : Nat} (x y pred : Nat) (h : l' ≠ l)
    (hin : s.c l' < s.clen) : (s.install l x y pred).y l' = s.y l' := by
  unfold Cands.y
  rw [s.install_c_ne x y pred h, s.install_clist l x y pred (Nat.ne_of_lt hin)]

/-- The candidates are in order of their y, from 0 on. -/
structure Rising (s : Cands) : Prop where
  zero : s.y 0 = 0
  step : ∀ l < s.k, s.y l < s.y (l + 1)
  inside : ∀ l ≤ s.k, s.c l < s.clen

theorem Rising.mono {s : Cands} (h : Rising s) {l l' : Nat} (hl : l ≤ l') (hk : l' ≤ s.k) :
    s.y l ≤ s.y l' := by
  induction l' with
  | zero => exact Nat.le_zero.mp hl ▸ Nat.le_refl _
  | succ l' ih =>
    rcases Nat.lt_or_eq_of_le hl with hlt | heq
    · have hstep := h.step l' hk
      have hih := ih (by omega) (by omega)
      omega
    · exact heq ▸ Nat.le_refl _

/-- The binary search keeps `y` between its two ends. -/
theorem searchLoop_spec {s : Cands} {y : Nat} (fuel i j : Nat) (hij : i < j) (hj : j ≤ s.k + 1)
    (hfuel : j - i < fuel) (hi : s.y i < y) (hjy : j ≤ s.k → y < s.y j) (hs : Rising s) :
    ∃ l, searchLoop s y fuel i j = some l ∧ 1 ≤ l ∧ l ≤ s.k + 1 ∧ s.y (l - 1) < y ∧
      (l ≤ s.k → y ≤ s.y l) := by
  induction fuel generalizing i j with
  | zero => omega
  | succ fuel ih =>
    rw [searchLoop]
    by_cases hmid : (i + j) / 2 > i
    · rw [if_pos hmid]
      by_cases hgt : s.y ((i + j) / 2) > y
      · rw [if_pos hgt]
        exact ih i ((i + j) / 2) hmid (by omega) (by omega) hi fun _ => hgt
      · rw [if_neg hgt]
        by_cases hlt : s.y ((i + j) / 2) < y
        · rw [if_pos hlt]
          exact ih ((i + j) / 2) j (by omega) hj (by omega) hlt hjy
        · rw [if_neg hlt]
          have hprev := hs.step ((i + j) / 2 - 1) (by omega)
          have hsucc : (i + j) / 2 - 1 + 1 = (i + j) / 2 := by omega
          rw [hsucc] at hprev
          exact ⟨(i + j) / 2, rfl, by omega, by omega, by omega, fun _ => by omega⟩
    · have hnext : (i + j) / 2 = i := by omega
      have hj' : j = i + 1 := by omega
      rw [if_neg hmid, hnext]
      refine ⟨i + 1, rfl, by omega, by omega, hi, ?_⟩
      intro hle
      rw [hj'] at hjy
      exact Nat.le_of_lt (hjy hle)

theorem search_spec {s : Cands} {y : Nat} (hs : Rising s) (hy : 0 < y) :
    ∃ l, search s y = some l ∧ 1 ≤ l ∧ l ≤ s.k + 1 ∧ s.y (l - 1) < y ∧ (l ≤ s.k → y ≤ s.y l) := by
  unfold search
  by_cases hlast : s.y s.k < y
  · rw [if_pos hlast]
    exact ⟨s.k + 1, rfl, by omega, Nat.le_refl _, hlast, fun h => by omega⟩
  · rw [if_neg hlast]
    apply searchLoop_spec (s.k + 2) 0 (s.k + 1) (Nat.succ_pos _) (Nat.le_refl _) (by omega)
    · rw [hs.zero]
      exact hy
    · intro h
      omega
    · exact hs

/-- From `s₀` to `s` by the members `P` of the class of line `i`: each candidate is an old one, or
ends with a member of `P` behind the old candidate before it, and none could be better. -/
structure Row (s₀ s : Cands) (i : Nat) (P : List Nat) : Prop where
  clen : s₀.clen ≤ s.clen
  clist : ∀ p < s₀.clen, s.clist p = s₀.clist p
  k_ge : s₀.k ≤ s.k
  k_le : s.k ≤ s₀.k + 1
  inside : ∀ l ≤ s.k, s.c l < s.clen
  down : ∀ l ≤ s₀.k, s.y l ≤ s₀.y l
  best : ∀ l, 1 ≤ l → l ≤ s₀.k + 1 → ∀ y ∈ P, s₀.y (l - 1) < y → l ≤ s.k ∧ s.y l ≤ y
  cand : ∀ l ≤ s.k, (l ≤ s₀.k ∧ s.c l = s₀.c l) ∨
    (1 ≤ l ∧ l - 1 ≤ s₀.k ∧ ∃ y ∈ P, s.clist (s.c l) = ⟨i, y, s₀.c (l - 1)⟩ ∧
      s₀.y (l - 1) < y ∧ s₀.clen ≤ s.c l)

theorem Row.refl {s : Cands} (h : Rising s) (i : Nat) : Row s s i [] where
  clen := Nat.le_refl _
  clist _ _ := rfl
  k_ge := Nat.le_refl _
  k_le := Nat.le_succ _
  inside := h.inside
  down _ _ := Nat.le_refl _
  best _ _ _ _ hy := absurd hy (List.not_mem_nil)
  cand _ hl := Or.inl ⟨hl, rfl⟩

theorem Row.y_old {s₀ s : Cands} {i : Nat} {P : List Nat} (h : Row s₀ s i P) (hs : Rising s₀)
    {l : Nat} (hl : l ≤ s₀.k) (hc : s.c l = s₀.c l) : s.y l = s₀.y l := by
  unfold Cands.y
  rw [hc, h.clist _ (hs.inside l hl)]

theorem Row.y_gt {s₀ s : Cands} {i : Nat} {P : List Nat} (h : Row s₀ s i P) (hs : Rising s₀)
    {l : Nat} (hl : l + 1 ≤ s.k) : s₀.y l < s.y (l + 1) := by
  rcases h.cand (l + 1) hl with ⟨hk, hc⟩ | ⟨-, -, y, -, hy, hlt, -⟩
  · rw [h.y_old hs hk hc]
    exact hs.step l hk
  · have hyl : s.y (l + 1) = y := by
      unfold Cands.y
      rw [hy]
    rw [hyl]
    exact hlt

/-- The order is kept. -/
theorem Row.rising {s₀ s : Cands} {i : Nat} {P : List Nat} (h : Row s₀ s i P) (hs : Rising s₀) :
    Rising s where
  zero := by
    have hle := h.down 0 (Nat.zero_le _)
    rw [hs.zero] at hle
    exact Nat.le_zero.mp hle
  step l hl := by
    have hlt := h.y_gt hs hl
    have hle := h.down l (by have hk := h.k_le; omega)
    omega
  inside := h.inside

/-- While the members are gone through: what is known of oldc and oldl. -/
structure Walk (s₀ s : Cands) (i : Nat) (P : List Nat) (oldc oldl : Nat) : Prop where
  row : Row s₀ s i P
  k_eq : s.k = s₀.k
  oldl_le : oldl ≤ s₀.k
  above : ∀ l, oldl < l → l ≤ s₀.k → s.c l = s₀.c l
  seen : oldl = 0 ∨ ∃ y ∈ P, s.y oldl ≤ y
  oldc : oldc = s₀.c oldl ∨ oldl + 1 ≤ s₀.k ∧ ∃ y ∈ P, s₀.y (oldl + 1) ≤ y ∧
    ∃ q ≤ s₀.k, oldc = s₀.c q ∧ s₀.y q ≤ y

section
variable {s₀ s : Cands} {i : Nat} {P : List Nat} {oldc oldl y : Nat}

theorem Walk.start (hs : Rising s₀) (i : Nat) : Walk s₀ s₀ i [] (s₀.c 0) 0 where
  row := Row.refl hs i
  k_eq := rfl
  oldl_le := Nat.zero_le _
  above _ _ _ := rfl
  seen := Or.inl rfl
  oldc := Or.inl rfl

/-- No member behind those of `P` can improve a candidate that is done. -/
theorem Walk.done (h : Walk s₀ s i P oldc oldl) (hs : Rising s₀) (hy : ∀ z ∈ P, z < y)
    (hpos : 0 < y) {l : Nat} (hl : l ≤ oldl) : s.y l < y := by
  have hk := h.oldl_le
  have hmono := (h.row.rising hs).mono hl (by rw [h.k_eq]; exact hk)
  rcases h.seen with hz | ⟨z, hz, hle⟩
  · have hl0 : l = 0 := by omega
    rw [hl0, (h.row.rising hs).zero]
    exact hpos
  · have hlt := hy z hz
    omega

/-- One more member, which changes no candidate. -/
theorem Row.skip (h : Row s₀ s i P) (hbest : ∀ l, 1 ≤ l → l ≤ s₀.k + 1 → s₀.y (l - 1) < y →
    l ≤ s.k ∧ s.y l ≤ y) : Row s₀ s i (P ++ [y]) where
  clen := h.clen
  clist := h.clist
  k_ge := h.k_ge
  k_le := h.k_le
  inside := h.inside
  down := h.down
  best l hl hlk z hz hlt := by
    rcases List.mem_append.mp hz with hz | hz
    · exact h.best l hl hlk z hz hlt
    · rw [List.mem_singleton.mp hz] at hlt ⊢
      exact hbest l hl hlk hlt
  cand l hl := by
    rcases h.cand l hl with hold | ⟨hl1, hlk, z, hz, hrest⟩
    · exact Or.inl hold
    · exact Or.inr ⟨hl1, hlk, z, List.mem_append_left [y] hz, hrest⟩

theorem mem_grow {Q : Nat → Prop} (h : ∃ z ∈ P, Q z) : ∃ z ∈ P ++ [y], Q z := by
  obtain ⟨z, hz, hq⟩ := h
  exact ⟨z, List.mem_append_left [y] hz, hq⟩

/-- A member that is not behind oldc is passed over. -/
theorem Walk.pass (h : Walk s₀ s i P oldc oldl) (hs : Rising s₀) (hy : ∀ z ∈ P, z < y)
    (hpos : 0 < y) (hle : y ≤ (s.clist oldc).y) : Walk s₀ s i (P ++ [y]) oldc oldl := by
  have hk := h.oldl_le
  have hold : ∀ q ≤ s₀.k, (s.clist (s₀.c q)).y = s₀.y q := by
    intro q hq
    rw [h.row.clist _ (hs.inside q hq)]
    rfl
  have hT : y ≤ s₀.y oldl := by
    rcases h.oldc with hc | ⟨-, z, hz, -, q, hq, hc, hqz⟩
    · rw [hc, hold oldl hk] at hle
      exact hle
    · have hlt := hy z hz
      rw [hc, hold q hq] at hle
      omega
  refine ⟨h.row.skip ?_, h.k_eq, hk, h.above, h.seen.imp_right mem_grow, ?_⟩
  · intro l hl hlk hlt
    have hlo : l ≤ oldl := by
      by_contra hgt
      have hmono := hs.mono (show oldl ≤ l - 1 by omega) (by omega)
      omega
    have hdone := h.done hs hy hpos hlo
    exact ⟨by rw [h.k_eq]; omega, by omega⟩
  · rcases h.oldc with hc | ⟨hk1, hex⟩
    · exact Or.inl hc
    · exact Or.inr ⟨hk1, mem_grow hex⟩

/-- Where the search for the place of a member ends, and what oldc then is. -/
theorem Walk.place (h : Walk s₀ s i P oldc oldl) (hs : Rising s₀) (hy : ∀ z ∈ P, z < y)
    (hpos : 0 < y) (hgt : ¬ y ≤ (s.clist oldc).y) :
    ∃ l, search s y = some l ∧ oldl < l ∧ l ≤ s₀.k + 1 ∧ s₀.y (l - 1) < y ∧
      (l ≤ s₀.k → s.c l = s₀.c l ∧ s.y l = s₀.y l ∧ y ≤ s₀.y l) ∧
      (if l ≠ oldl + 1 then s.c (l - 1) else oldc) = s₀.c (l - 1) := by
  have hk := h.oldl_le
  obtain ⟨l, hsearch, hl1, hlk, hlow, hhigh⟩ := search_spec (h.row.rising hs) hpos
  rw [h.k_eq] at hlk hhigh
  have hlo : oldl < l := by
    by_contra hge
    have hdone := h.done hs hy hpos (Nat.le_of_not_lt hge)
    have hle := hhigh (by omega)
    omega
  have hat : l ≤ s₀.k → s.c l = s₀.c l ∧ s.y l = s₀.y l ∧ y ≤ s₀.y l := by
    intro hle
    have hc := h.above l hlo hle
    have hyl := h.row.y_old hs hle hc
    exact ⟨hc, hyl, hyl ▸ hhigh hle⟩
  have hprev : l ≠ oldl + 1 → s.c (l - 1) = s₀.c (l - 1) :=
    fun hne => h.above (l - 1) (by omega) (by omega)
  have hc : (if l ≠ oldl + 1 then s.c (l - 1) else oldc) = s₀.c (l - 1) := by
    by_cases hne : l ≠ oldl + 1
    · rw [if_pos hne, hprev hne]
    · rw [if_neg hne]
      have hl : l = oldl + 1 := not_not.mp hne
      rcases h.oldc with hold | ⟨hk1, z, hz, hTz, -⟩
      · rw [hold, hl, Nat.add_sub_cancel]
      · have hlt := hy z hz
        obtain ⟨-, -, hle⟩ := hat (by omega)
        rw [hl] at hle
        omega
  refine ⟨l, hsearch, hlo, hlk, ?_, hat, hc⟩
  by_cases hne : l ≠ oldl + 1
  · rw [← h.row.y_old hs (by omega) (hprev hne)]
    exact hlow
  · rw [if_neg hne] at hc
    have hin := hs.inside (l - 1) (by omega)
    have heq : (s.clist oldc).y = s₀.y (l - 1) := by
      rw [hc, h.row.clist _ hin]
      rfl
    omega

/-- A member that is there already. -/
theorem Walk.hit (h : Walk s₀ s i P oldc oldl) (hs : Rising s₀) {l : Nat} (hlo : oldl < l) (hlk : l ≤ s₀.k) (heq : s₀.y l = y)
    (hc : s.y l = s₀.y l) (hlow : s₀.y (l - 1) < y)
    (hold : (if l ≠ oldl + 1 then s.c (l - 1) else oldc) = s₀.c (l - 1)) :
    Walk s₀ s i (P ++ [y]) (if l ≠ oldl + 1 then s.c (l - 1) else oldc) oldl := by
  refine ⟨h.row.skip ?_, h.k_eq, h.oldl_le, h.above, h.seen.imp_right mem_grow, ?_⟩
  · intro l' hl' hlk' hlt
    have hle : l' ≤ l := by
      by_contra hgt
      have hmono := hs.mono (show l ≤ l' - 1 by omega) (by omega)
      omega
    have hmono := (h.row.rising hs).mono hle (by rw [h.k_eq]; exact hlk)
    exact ⟨by rw [h.k_eq]; omega, by omega⟩
  · rw [hold]
    by_cases hne : l ≠ oldl + 1
    · right
      have hmono := hs.mono (show oldl + 1 ≤ l by omega) hlk
      exact ⟨by omega, y, by simp, by omega, l - 1, by omega, rfl, by omega⟩
    · left
      have hl : l = oldl + 1 := not_not.mp hne
      rw [hl, Nat.add_sub_cancel]

/-- A new candidate, and what becomes of the others. -/
theorem Row.install (h : Row s₀ s i P) (hs : Rising s₀) {l k : Nat} (hl1 : 1 ≤ l)
    (hlk : l ≤ s₀.k + 1) (hk : k = max s.k l) (hsk : s.k = s₀.k) (hlow : s₀.y (l - 1) < y)
    (hhigh : l ≤ s₀.k → y ≤ s₀.y l ∧ y ≤ s.y l) (hy : ∀ z ∈ P, z < y) (Q : List Nat)
    (hQ : ∀ z ∈ Q, y ≤ z ∧ (l ≤ s₀.k → z = y)) :
    Row s₀ { s.install l i y (s₀.c (l - 1)) with k := k } i (P ++ Q ++ [y]) := by
  have hkl : k ≤ s₀.k + 1 := by omega
  have hself : Cands.y { s.install l i y (s₀.c (l - 1)) with k := k } l = y :=
    s.install_y l i y _
  have hother : ∀ l', l' ≠ l → l' ≤ s.k →
      Cands.y { s.install l i y (s₀.c (l - 1)) with k := k } l' = s.y l' :=
    fun l' hne hle => s.install_y_ne i y _ hne (h.inside l' hle)
  refine ⟨?_, ?_, ?_, hkl, ?_, ?_, ?_, ?_⟩
  · have hclen := h.clen
    change s₀.clen ≤ s.clen + 1
    omega
  · intro p hp
    have hclen := h.clen
    change (s.install l i y (s₀.c (l - 1))).clist p = s₀.clist p
    rw [s.install_clist l i y _ (by omega), h.clist p hp]
  · change s₀.k ≤ k
    omega
  · intro l' hl'
    change (s.install l i y (s₀.c (l - 1))).c l' < s.clen + 1
    by_cases hne : l' = l
    · rw [hne, s.install_c]
      exact Nat.lt_succ_self _
    · rw [s.install_c_ne i y _ hne]
      have hin := h.inside l' (by have hle : l' ≤ k := hl'; omega)
      omega
  · intro l' hl'
    by_cases hne : l' = l
    · rw [hne] at hl' ⊢
      rw [hself]
      exact (hhigh hl').1
    · rw [hother l' hne (by omega)]
      exact h.down l' hl'
  · intro l' hl' hlk' z hz hlt
    -- what is known of the members before this one, and of this one
    have hcase : z ∈ P ∨ y ≤ z ∧ (l ≤ s₀.k → z = y) := by
      rcases List.mem_append.mp hz with hz | hz
      · rcases List.mem_append.mp hz with hz | hz
        · exact Or.inl hz
        · exact Or.inr (hQ z hz)
      · rw [List.mem_singleton.mp hz]
        exact Or.inr ⟨Nat.le_refl y, fun _ => rfl⟩
    rcases hcase with hz | ⟨hyz, hzy⟩
    · obtain ⟨hlk₁, hle⟩ := h.best l' hl' hlk' z hz hlt
      refine ⟨by change l' ≤ k; omega, ?_⟩
      by_cases hne : l' = l
      · rw [hne, hself]
        have hlt' := hy z hz
        rw [hne] at hle hlk₁
        have hle' := (hhigh (by omega)).2
        omega
      · rw [hother l' hne hlk₁]
        exact hle
    · have hle : l' ≤ l := by
        by_contra hgt
        have hl0 : l ≤ s₀.k := by omega
        have hz' := hzy hl0
        have hmono := hs.mono (show l ≤ l' - 1 by omega) (by omega)
        have hyl := (hhigh hl0).1
        omega
      refine ⟨by change l' ≤ k; omega, ?_⟩
      by_cases hne : l' = l
      · rw [hne, hself]
        exact hyz
      · rw [hother l' hne (by omega)]
        have hdown := h.down l' (by omega)
        have hmono := hs.mono (show l' ≤ l - 1 by omega) (by omega)
        omega
  · intro l' hl'
    by_cases hne : l' = l
    · right
      refine ⟨by omega, by omega, y, by simp, ?_, hne ▸ hlow, ?_⟩
      · change (s.install l i y (s₀.c (l - 1))).clist ((s.install l i y (s₀.c (l - 1))).c l') = _
        rw [hne, s.install_c, s.install_new]
      · change s₀.clen ≤ (s.install l i y (s₀.c (l - 1))).c l'
        rw [hne, s.install_c]
        exact h.clen
    · have hl'k : l' ≤ s.k := by
        have hle : l' ≤ k := hl'
        omega
      have hc : (s.install l i y (s₀.c (l - 1))).c l' = s.c l' := s.install_c_ne i y _ hne
      rcases h.cand l' hl'k with ⟨hk', hc'⟩ | ⟨h₁, h₂, z, hz, hcl, hlt, hold⟩
      · exact Or.inl ⟨hk', hc.trans hc'⟩
      · right
        refine ⟨h₁, h₂, z, by simp [hz], ?_, hlt, ?_⟩
        · change (s.install l i y (s₀.c (l - 1))).clist ((s.install l i y (s₀.c (l - 1))).c l') = _
          rw [hc, s.install_clist l i y _ (Nat.ne_of_lt (h.inside l' hl'k)), hcl]
        · change s₀.clen ≤ (s.install l i y (s₀.c (l - 1))).c l'
          rw [hc]
          exact hold

theorem Row.of_mem (h : Row s₀ s i P) {Q : List Nat} (hQ : ∀ z, z ∈ Q ↔ z ∈ P) :
    Row s₀ s i Q where
  clen := h.clen
  clist := h.clist
  k_ge := h.k_ge
  k_le := h.k_le
  inside := h.inside
  down := h.down
  best l hl hlk z hz := h.best l hl hlk z ((hQ z).mp hz)
  cand l hl := by
    rcases h.cand l hl with hold | ⟨hl1, hlk, z, hz, hrest⟩
    · exact Or.inl hold
    · exact Or.inr ⟨hl1, hlk, z, (hQ z).mpr hz, hrest⟩

/-- A member that improves a candidate. -/
theorem Walk.improve (h : Walk s₀ s i P oldc oldl) (hs : Rising s₀) (hy : ∀ z ∈ P, z < y)
    {l : Nat} (hlo : oldl < l) (hlk : l ≤ s₀.k) (hlt : y < s₀.y l) (hc : s.c l = s₀.c l)
    (hyl : s.y l = s₀.y l) (hlow : s₀.y (l - 1) < y) :
    Walk s₀ (s.install l i y (s₀.c (l - 1))) i (P ++ [y]) (s.c l) l := by
  have hrow := h.row.install hs (by omega) (by omega) (by rw [h.k_eq]; omega : s.k = max s.k l)
    h.k_eq hlow (fun _ => ⟨by omega, by omega⟩) hy [] nofun
  rw [List.append_nil] at hrow
  refine ⟨hrow, h.k_eq, hlk, ?_, ?_, Or.inl hc⟩
  · intro l' hgt hle
    rw [s.install_c_ne i y _ (by omega)]
    exact h.above l' (by omega) hle
  · right
    exact ⟨y, by simp, Nat.le_of_eq (s.install_y l i y _)⟩

/-- A member that lengthens the list ends the class: the members behind it are no better. -/
theorem Walk.extend (h : Walk s₀ s i P oldc oldl) (hs : Rising s₀) (hy : ∀ z ∈ P, z < y)
    (hlow : s₀.y s₀.k < y) {Q : List Nat} (hQ : ∀ z ∈ Q, y < z) :
    Row s₀ { s.install (s₀.k + 1) i y (s₀.c s₀.k) with k := s.k + 1 } i (P ++ y :: Q) := by
  have hrow := h.row.install hs (Nat.le_add_left 1 s₀.k) (Nat.le_refl _)
    (by rw [h.k_eq]; omega : s.k + 1 = max s.k (s₀.k + 1)) h.k_eq (by simpa using hlow)
    (fun hle => by omega) hy Q
    (fun z hz => ⟨Nat.le_of_lt (hQ z hz), fun hle => by omega⟩)
  rw [Nat.add_sub_cancel] at hrow
  apply hrow.of_mem
  intro z
  simp only [List.mem_append, List.mem_cons, List.not_mem_nil, or_false]
  grind

/-- The members of a class, one after another. -/
theorem members_row (hs : Rising s₀) {b : Arr Int} {j : Nat} (ys : List Nat) (fuel : Nat)
    (h : Walk s₀ s i P oldc oldl) (hy : ∀ z ∈ P, z < y) (hpos : 0 < y)
    (hys : (y :: ys).Pairwise (· < ·)) (hfeeds : Feeds b j ys) (hfuel : ys.length < fuel) :
    ∃ s', members b i fuel s j y oldc oldl = some s' ∧ Row s₀ s' i (P ++ y :: ys) := by
  induction ys generalizing s P oldc oldl y j fuel with
  | nil =>
    obtain ⟨fuel, rfl⟩ := Nat.exists_eq_succ_of_ne_zero (Nat.ne_of_gt hfuel)
    have hstop : ¬ b (j + 1) > 0 := hfeeds
    rw [members]
    simp only [if_neg hstop]
    by_cases hle : y ≤ (s.clist oldc).y
    · rw [if_pos hle]
      exact ⟨s, rfl, (h.pass hs hy hpos hle).row⟩
    · obtain ⟨l, hsearch, hlo, hlk, hlow, hat, hold⟩ := h.place hs hy hpos hle
      rw [if_neg hle, hsearch]
      simp only [Option.bind_eq_bind, Option.bind_some]
      by_cases hlk' : l ≤ s.k
      · have hlk₀ : l ≤ s₀.k := h.k_eq ▸ hlk'
        obtain ⟨hc, hyl, hle'⟩ := hat hlk₀
        rw [if_pos hlk']
        by_cases hhit : s.y l ≤ y
        · rw [if_pos hhit]
          exact ⟨s, rfl, (h.hit hs hlo hlk₀ (by omega) hyl hlow hold).row⟩
        · rw [if_neg hhit, hold]
          exact ⟨_, rfl, (h.improve hs hy hlo hlk₀ (by omega) hc hyl hlow).row⟩
      · have hl : l = s₀.k + 1 := by
          rw [h.k_eq] at hlk'
          omega
        subst hl
        rw [Nat.add_sub_cancel] at hlow hold
        rw [if_neg hlk', Nat.add_sub_cancel, hold]
        exact ⟨_, rfl, h.extend hs hy hlow nofun⟩
  | cons y' ys ih =>
    obtain ⟨fuel, rfl⟩ := Nat.exists_eq_succ_of_ne_zero
      (Nat.ne_of_gt (Nat.lt_of_le_of_lt (Nat.zero_le _) hfuel))
    obtain ⟨hb, hy', hfeeds'⟩ := hfeeds
    obtain ⟨hlt, hys'⟩ := List.pairwise_cons.mp hys
    have hgo : b (j + 1) > 0 := by omega
    have hnat : (b (j + 1)).toNat = y' := by omega
    have hlen : ys.length < fuel := Nat.lt_of_succ_lt_succ hfuel
    have hseen : ∀ z ∈ P ++ [y], z < y' := by
      intro z hz
      have hyy' := hlt y' (by simp)
      rcases List.mem_append.mp hz with hz | hz
      · exact Nat.lt_trans (hy z hz) hyy'
      · rw [List.mem_singleton.mp hz]
        exact hyy'
    have happ : P ++ y :: y' :: ys = P ++ [y] ++ y' :: ys := by simp
    have hnext : ∀ {s' : Cands} {oldc' oldl' : Nat}, Walk s₀ s' i (P ++ [y]) oldc' oldl' →
        ∃ t, members b i fuel s' (j + 1) y' oldc' oldl' = some t ∧
          Row s₀ t i (P ++ y :: y' :: ys) := by
      intro s' oldc' oldl' hw
      rw [happ]
      exact ih fuel hw hseen hy' hys' hfeeds' hlen
    rw [members]
    simp only [if_pos hgo, hnat]
    by_cases hle : y ≤ (s.clist oldc).y
    · rw [if_pos hle]
      exact hnext (h.pass hs hy hpos hle)
    · obtain ⟨l, hsearch, hlo, hlk, hlow, hat, hold⟩ := h.place hs hy hpos hle
      rw [if_neg hle, hsearch]
      simp only [Option.bind_eq_bind, Option.bind_some]
      by_cases hlk' : l ≤ s.k
      · have hlk₀ : l ≤ s₀.k := h.k_eq ▸ hlk'
        obtain ⟨hc, hyl, hle'⟩ := hat hlk₀
        rw [if_pos hlk']
        by_cases hhit : s.y l ≤ y
        · rw [if_pos hhit]
          exact hnext (h.hit hs hlo hlk₀ (by omega) hyl hlow hold)
        · rw [if_neg hhit, hold]
          exact hnext (h.improve hs hy hlo hlk₀ (by omega) hc hyl hlow)
      · have hl : l = s₀.k + 1 := by
          rw [h.k_eq] at hlk'
          omega
        subst hl
        rw [Nat.add_sub_cancel] at hlow hold
        rw [if_neg hlk', Nat.add_sub_cancel, hold]
        exact ⟨_, rfl, h.extend hs hy hlow hlt⟩

end

end Svr32.Diff
