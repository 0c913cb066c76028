import Mathlib.Data.List.Basic

/-! Common subsequences of two lists, by the lengths that prefixes of them allow. -/
namespace Svr32.Lib.Lcs
variable {α : Type} {A B : List α}

/-- A common subsequence of length `k`. -/
def Common (A B : List α) (k : Nat) : Prop := ∃ s : List α, s.Sublist A ∧ s.Sublist B ∧ s.length = k

theorem common_zero (A B : List α) : Common A B 0 :=
  ⟨[], List.nil_sublist A, List.nil_sublist B, rfl⟩

theorem Common.mono {A' B' : List α} {k : Nat} (h : Common A B k) (hA : A.Sublist A')
    (hB : B.Sublist B') : Common A' B' k := by
  obtain ⟨s, hsA, hsB, hs⟩ := h
  exact ⟨s, hsA.trans hA, hsB.trans hB, hs⟩

/-- Shorter ones are there too. -/
theorem Common.le {k k' : Nat} (h : Common A B k) (hk : k' ≤ k) : Common A B k' := by
  obtain ⟨s, hsA, hsB, hs⟩ := h
  refine ⟨s.take k', (List.take_sublist k' s).trans hsA, (List.take_sublist k' s).trans hsB, ?_⟩
  rw [List.length_take, hs, Nat.min_eq_left hk]

theorem Common.take_mono {i i' y y' k : Nat} (h : Common (A.take i) (B.take y) k) (hi : i ≤ i')
    (hy : y ≤ y') : Common (A.take i') (B.take y') k :=
  h.mono ((List.take_prefix_take_left hi).sublist) ((List.take_prefix_take_left hy).sublist)

theorem take_snoc {i : Nat} {a : α} (h : A[i]? = some a) : A.take (i + 1) = A.take i ++ [a] := by
  obtain ⟨hi, ha⟩ := List.getElem?_eq_some_iff.mp h
  rw [List.take_add_one, h]
  rfl

/-- A match lengthens a common subsequence of what is before it. -/
theorem Common.next {i z k : Nat} {a : α} (h : Common (A.take i) (B.take z) k)
    (hA : A[i]? = some a) (hB : B[z]? = some a) :
    Common (A.take (i + 1)) (B.take (z + 1)) (k + 1) := by
  obtain ⟨s, hsA, hsB, hs⟩ := h
  refine ⟨s ++ [a], ?_, ?_, ?_⟩
  · rw [take_snoc hA]
    exact hsA.append (List.Sublist.refl [a])
  · rw [take_snoc hB]
    exact hsB.append (List.Sublist.refl [a])
  · rw [List.length_append, hs]
    rfl

/-- A common subsequence that one more item of the one list allows ends with that item, at a match
in the other list. -/
theorem Common.cases {i y k : Nat} {a : α} (hA : A[i]? = some a)
    (h : Common (A.take (i + 1)) (B.take y) (k + 1)) :
    Common (A.take i) (B.take y) (k + 1) ∨
      ∃ z < y, B[z]? = some a ∧ Common (A.take i) (B.take z) k := by
  obtain ⟨s, hsA, hsB, hs⟩ := h
  rw [take_snoc hA] at hsA
  obtain ⟨s₁, s₂, rfl, h₁, h₂⟩ := List.sublist_append_iff.mp hsA
  rcases List.sublist_singleton.mp h₂ with rfl | rfl
  · left
    exact ⟨s₁ ++ [], by rw [List.append_nil]; exact h₁, hsB, hs⟩
  · right
    obtain ⟨r₁, r₂, hr, hr₁, hr₂⟩ := List.append_sublist_iff.mp hsB
    obtain ⟨p, q, rfl⟩ := List.append_of_mem (List.singleton_sublist.mp hr₂)
    have hz : (r₁ ++ p).length < y := by
      have hlen := congrArg List.length hr
      simp only [List.length_take, List.length_append, List.length_cons] at hlen ⊢
      omega
    have htake : B.take (r₁ ++ p).length = r₁ ++ p := by
      have hcut := congrArg (List.take (r₁ ++ p).length) hr
      rw [List.take_take, Nat.min_eq_left (Nat.le_of_lt hz), ← List.append_assoc,
        List.take_left] at hcut
      exact hcut
    have hget : B[(r₁ ++ p).length]? = some a := by
      have hcut := congrArg (·[(r₁ ++ p).length]?) hr
      simp only [List.getElem?_take_of_lt hz, ← List.append_assoc,
        List.getElem?_append_right (Nat.le_refl _), Nat.sub_self] at hcut
      exact hcut
    refine ⟨(r₁ ++ p).length, hz, hget, s₁, h₁, ?_, ?_⟩
    · rw [htake]
      exact hr₁.trans (List.sublist_append_left r₁ p)
    · rw [List.length_append] at hs
      exact Nat.succ.inj hs

/-! What both lists begin and end with. -/

theorem Common.behind {p : List α} {k : Nat} (h : Common (p ++ A) (p ++ B) (p.length + k)) :
    Common A B k := by
  obtain ⟨s, hsA, hsB, hs⟩ := h
  refine ⟨s.drop p.length, ?_, ?_, ?_⟩
  · have hdrop := hsA.drop p.length
    rw [List.drop_left] at hdrop
    exact hdrop
  · have hdrop := hsB.drop p.length
    rw [List.drop_left] at hdrop
    exact hdrop
  · rw [List.length_drop, hs, Nat.add_sub_cancel_left]

theorem Common.reverse {k : Nat} (h : Common A B k) : Common A.reverse B.reverse k := by
  obtain ⟨s, hsA, hsB, hs⟩ := h
  exact ⟨s.reverse, hsA.reverse, hsB.reverse, by rw [List.length_reverse, hs]⟩

theorem Common.before {q : List α} {k : Nat} (h : Common (A ++ q) (B ++ q) (q.length + k)) :
    Common A B k := by
  have hrev := h.reverse
  rw [List.reverse_append, List.reverse_append, ← List.length_reverse] at hrev
  have hcut := hrev.behind.reverse
  rw [List.reverse_reverse, List.reverse_reverse] at hcut
  exact hcut

end Svr32.Lib.Lcs
