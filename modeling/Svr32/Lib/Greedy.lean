import Mathlib.Data.List.Basic

/-! Picking the words of a language out of a sequence, from the front on. -/
namespace Svr32.Lib
variable {α : Type*} {V W : List α → Prop} {s r : List α} {out : List (List α)}

/-- What is picked, and what is left: an element is passed over only where no word begins. -/
inductive Picks (V : List α → Prop) (s : List α) : List (List α) → List α → Prop
  | start : Picks V s [] s
  | skip {out : List (List α)} {x : α} {r : List α} : Picks V s out (x :: r) →
    (∀ m, V m → ¬ m <+: x :: r) → Picks V s out r
  | take {out : List (List α)} {m r : List α} : Picks V s out (m ++ r) → V m →
    Picks V s (out ++ [m]) r

theorem Picks.suffix (h : Picks V s out r) : r <:+ s := by
  induction h with
  | start => exact List.suffix_rfl
  | skip _ _ ih => exact (List.suffix_cons _ _).trans ih
  | take _ _ ih => exact (List.suffix_append _ _).trans ih

theorem Picks.mem (h : Picks V s out r) {m : List α} (hm : m ∈ out) : V m := by
  induction h with
  | start => cases hm
  | skip _ _ ih => exact ih hm
  | take _ hv ih =>
    rcases List.mem_append.mp hm with hm | hm
    · exact ih hm
    · cases List.mem_singleton.mp hm
      exact hv

/-- A word of the larger language need only be looked for in the sequence. -/
theorem Picks.mono (h : Picks V s out r) (hvw : ∀ m, V m → W m)
    (hwv : ∀ m, W m → m <:+: s → V m) : Picks W s out r := by
  induction h with
  | start => exact .start
  | skip h hno ih =>
    refine .skip ih fun m hm hp => hno m (hwv m hm ?_) hp
    exact hp.isInfix.trans h.suffix.isInfix
  | take _ hv ih => exact .take ih (hvw _ hv)

/-- The first element is not passed over if a word begins there. -/
theorem Picks.first (h : Picks V s out r) (hout : out = []) (hr : r.length + 1 = s.length)
    {m : List α} (hm : V m) : ¬ m <+: s := by
  cases h with
  | start => omega
  | skip h hno =>
    rw [← h.suffix.eq_of_length (by rw [List.length_cons, hr])]
    exact hno m hm
  | take => exact absurd hout (List.append_ne_nil_of_right_ne_nil _ (List.cons_ne_nil _ _))

/-- A word that does not begin inside another one is picked when it is passed. -/
theorem Picks.complete (h : Picks V s out r)
    (hu : ∀ m m' r, V m → V m' → m <+: r → m' <+: r → m = m') {pre m post : List α}
    (hs : s = pre ++ (m ++ post)) (hm : V m)
    (hin : ∀ pre' m' post', s = pre' ++ (m' ++ post') → V m' →
      ¬ (pre'.length < pre.length ∧ pre.length < pre'.length + m'.length))
    (hr : pre.length + r.length < s.length) :
    ∃ out₁ out₂, out = out₁ ++ m :: out₂ ∧ Picks V s out₁ (m ++ post) := by
  induction h with
  | start => omega
  | @skip out x r h hno ih =>
    by_cases hlt : pre.length + (x :: r).length < s.length
    · exact ih hlt
    · obtain ⟨pre', hpre'⟩ := h.suffix
      have hlen := congrArg List.length hpre'
      rw [List.length_append] at hlen
      simp only [List.length_cons] at hlen hlt
      have heq : pre' ++ x :: r = pre ++ (m ++ post) := hpre'.trans hs
      have hsame := (List.append_inj heq (by omega)).2
      exact absurd (hsame ▸ List.prefix_append m post) (hno m hm)
  | @take out m' r h hv ih =>
    by_cases hlt : pre.length + (m' ++ r).length < s.length
    · obtain ⟨out₁, out₂, hout, hpicks⟩ := ih hlt
      refine ⟨out₁, out₂ ++ [m'], ?_, hpicks⟩
      rw [hout, List.append_assoc, List.cons_append]
    · obtain ⟨pre', hpre'⟩ := h.suffix
      have hlen := congrArg List.length hpre'
      simp only [List.length_append] at hlen hlt
      have hnot := hin pre' m' r hpre'.symm hv
      have heq : pre' ++ (m' ++ r) = pre ++ (m ++ post) := hpre'.trans hs
      have hsame := (List.append_inj heq (by omega)).2
      have hword : m' = m := hu m' m _ hv hm (List.prefix_append m' r)
        (hsame ▸ List.prefix_append m post)
      refine ⟨out, [], by rw [hword], ?_⟩
      rw [← hsame]
      exact h

end Svr32.Lib
