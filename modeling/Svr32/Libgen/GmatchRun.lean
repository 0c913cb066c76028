import Svr32.Libgen.Gmatch

/-! The match of libgen/gmatch.c, piece by piece, against the strings that a pattern stands for. -/
namespace Svr32.Libgen.Gmatch

section pieces
variable {p s v : List Nat} {ps : List Piece} {t : Tail} {q : Piece} {c n : Nat}
  {r g : List Nat → Except Fault Bool}

/- The outcome: a read outside where `bad` holds, else an answer that tells whether `good` does. -/
def Gives (r : Except Fault Bool) (bad good : Prop) : Prop :=
  (bad → r = .error .outside) ∧ (¬ bad → ∃ b, r = .ok b ∧ (b = true ↔ good))

theorem Gives.congr {r : Except Fault Bool} {bad good bad' good' : Prop} (h : Gives r bad good)
    (hb : bad' ↔ bad) (hg : good' ↔ good) : Gives r bad' good' := by
  rw [Gives, hb, hg]
  exact h

theorem ok_bind {α β : Type} (a : α) (f : α → Except Fault β) : (Except.ok a >>= f) = f a := rfl

/-! The cases of gmatch. -/

section cases
variable {scc : Nat}

end cases

theorem body_rest {base : Nat} {rest : List Nat} (h : (body base p).close = .closed rest) :
    rest.length < p.length ∧ rest <:+ p := by
  fun_induction body base p with
  | case1 => cases h
  | case2 base p =>
    obtain rfl := Close.closed.inj h
    exact ⟨Nat.lt_succ_self _, List.suffix_cons _ _⟩
  | case3 => cases h
  | case4 => cases h
  | case5 base c hr d p hd ih =>
    obtain ⟨hl, hs⟩ := ih h
    exact ⟨by simp only [List.length_cons]; omega, hs.trans ⟨[c, backslash, d], rfl⟩⟩
  | case6 base c hr d p hb hd ih =>
    obtain ⟨hl, hs⟩ := ih h
    exact ⟨by simp only [List.length_cons]; omega, hs.trans ⟨[c, d], rfl⟩⟩
  | case7 => cases h
  | case8 base c p hr hd ih =>
    obtain ⟨hl, hs⟩ := ih h
    exact ⟨by simp only [List.length_cons]; omega, hs.trans ⟨[backslash, c], rfl⟩⟩
  | case9 base c p hr hd hb ih =>
    obtain ⟨hl, hs⟩ := ih h
    exact ⟨by simp only [List.length_cons]; omega, hs.trans (List.suffix_cons c p)⟩

theorem negation_suffix (p : List Nat) : (negation p).2 <:+ p := by
  cases p with
  | nil => exact List.suffix_refl _
  | cons d p =>
    rw [negation]
    split
    · exact List.suffix_cons d p
    · exact List.suffix_refl _

end pieces

/-! The patterns of the shell. -/

section call
variable {s p : List Nat} {ps : List Piece} {t : Tail}

/- Every pattern can be read. -/
theorem reads_total (p : List Nat) : ∃ ps t, Reads p ps t := by
  obtain ⟨n, hn⟩ : ∃ n, n = p.length := ⟨_, rfl⟩
  induction n using Nat.strongRecOn generalizing p with
  | _ n ih =>
  obtain _ | ⟨c, p⟩ := p
  · exact ⟨_, _, .done⟩
  have hlt : p.length < n := by rw [hn, List.length_cons]; omega
  by_cases hb : c = backslash
  · subst hb
    obtain _ | ⟨d, p⟩ := p
    · exact ⟨_, _, .quote⟩
    · obtain ⟨ps, t, hr⟩ := ih p.length (Nat.lt_of_succ_lt hlt) p rfl
      exact ⟨_, _, .quoted d hr⟩
  by_cases hl : c = lbrack
  · subst hl
    cases hclose : (body 0 (negation p).2).close with
    | closed rest =>
      have hrest := (body_rest hclose).1
      have hlen := (negation_suffix p).length_le
      obtain ⟨ps, t, hr⟩ := ih rest.length (by omega) rest rfl
      exact ⟨_, _, .set hclose hr⟩
    | opened off => exact ⟨_, _, .opened hclose⟩
  obtain ⟨ps, t, hr⟩ := ih p.length hlt p rfl
  by_cases hstar : c = star
  · exact ⟨_, _, hstar ▸ Reads.star hr⟩
  · by_cases hq : c = quest
    · exact ⟨_, _, hq ▸ Reads.any hr⟩
    · exact ⟨_, _, .char c (by simp [hstar, hq, hb, hl]) hr⟩

/- Brackets closed, ranges ascending, no trailing backslash. -/
def WellFormed (ps : List Piece) (t : Tail) : Prop :=
  t = .done ∧ ∀ q ∈ ps, ∀ notflag b, q = .set notflag b → ∀ i ∈ b.items, i.1 ≤ i.2

/- What a call returns, whatever the bound of the nested calls from some on. -/
def Returns (s p : List Nat) (r : Except Fault Bool) : Prop :=
  ∃ N, ∀ n ≥ N, gmatch n (s ++ [0]) (p ++ [0]) = r

/- The call stays inside the strings, and is right about a pattern that is well formed. -/
structure Right (s p : List Nat) (ps : List Piece) (t : Tail) : Prop where
  inside : ∃ b, Returns s p (.ok b)
  means : WellFormed ps t → (Returns s p (.ok true) ↔ Lang ps s)

theorem Returns.unique {r r' : Except Fault Bool} (h : Returns s p r) (h' : Returns s p r') :
    r = r' := by
  obtain ⟨N, hN⟩ := h
  obtain ⟨N', hN'⟩ := h'
  rw [← hN (max N N') (Nat.le_max_left _ _), hN' (max N N') (Nat.le_max_right _ _)]

end call

end Svr32.Libgen.Gmatch
