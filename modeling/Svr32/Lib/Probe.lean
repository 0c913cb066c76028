import Mathlib.Data.List.Basic

/-! A search for a number that neither of two tests takes: each in turn moves on over what it
takes, and every move is a round more to come. -/
namespace Svr32.Lib.Probe
variable (p q : Nat → Bool)

/- while (p(b)) { b++; ++rounds; } -/
def skip : Nat → Nat → Nat → Option (Nat × Nat)
  | 0, _, _ => none
  | fuel + 1, b, rounds => if p b then skip fuel (b + 1) (rounds + 1) else some (b, rounds)

/- while (rounds) { --rounds; skip p; skip q; } -/
def probe (fuel : Nat) : Nat → Nat → Nat → Option Nat
  | 0, _, _ => none
  | n + 1, b, rounds =>
    if rounds = 0 then some b
    else do
      let (b, rounds) ← skip p fuel b (rounds - 1)
      let (b, rounds) ← skip q fuel b rounds
      probe fuel n b rounds

/- How much of what is taken is still ahead. -/
def ahead (taken : List Nat) (b : Nat) : Nat := (taken.filter (b ≤ ·)).length

variable {p q} {taken : List Nat}

theorem ahead_succ {b : Nat} (hb : b ∈ taken) : ahead taken (b + 1) + 1 ≤ ahead taken b := by
  induction taken with
  | nil => exact absurd hb (by simp)
  | cons x taken ih =>
    have hmono : ahead taken (b + 1) ≤ ahead taken b := by
      refine (List.monotone_filter_right taken ?_).length_le
      intro y hy
      simp only [decide_eq_true_eq] at hy ⊢
      omega
    by_cases hx : x = b
    · subst hx
      have hno : ¬ x + 1 ≤ x := by omega
      simp only [ahead, List.filter_cons, Nat.le_refl, hno, decide_true, decide_false, if_true,
        Bool.false_eq_true, if_false, List.length_cons] at hmono ⊢
      omega
    · have ih' := ih ((List.mem_cons.mp hb).resolve_left (fun h => hx h.symm))
      simp only [ahead, List.filter_cons] at ih' ⊢
      by_cases hxb : b ≤ x
      · have hxb' : b + 1 ≤ x := by omega
        simp only [hxb, hxb', decide_true, if_true, List.length_cons]
        omega
      · have hxb' : ¬ b + 1 ≤ x := by omega
        simp only [hxb, hxb', decide_false, Bool.false_eq_true, if_false]
        exact ih'

theorem skip_spec (hp : ∀ b, p b = true → b ∈ taken) (fuel b rounds : Nat)
    (hfuel : ahead taken b < fuel) :
    ∃ k, skip p fuel b rounds = some (b + k, rounds + k) ∧ p (b + k) = false ∧
      ahead taken (b + k) + k ≤ ahead taken b := by
  induction fuel generalizing b rounds with
  | zero => exact absurd hfuel (by simp)
  | succ fuel ih =>
    rw [skip]
    cases hb : p b with
    | false => exact ⟨0, rfl, hb, Nat.le_refl _⟩
    | true =>
      have hdec := ahead_succ (hp b hb)
      obtain ⟨k, hk, hfree, hle⟩ := ih (b + 1) (rounds + 1) (by omega)
      have hassoc : b + 1 + k = b + (k + 1) := by omega
      have hrounds : rounds + 1 + k = rounds + (k + 1) := by omega
      rw [hassoc] at hk hfree hle
      rw [hrounds] at hk
      exact ⟨k + 1, by simpa using hk, hfree, by omega⟩

/-- The search ends, at a number that is free, if it has a round to make. The last round moves
nothing, so both tests are of the same number. -/
theorem probe_spec (hp : ∀ b, p b = true → b ∈ taken) (hq : ∀ b, q b = true → b ∈ taken)
    (fuel n b rounds : Nat) (hfuel : ahead taken b < fuel) (hn : rounds + ahead taken b < n)
    (hr : rounds ≠ 0 ∨ p b = false ∧ q b = false) :
    ∃ b', probe p q fuel n b rounds = some b' ∧ p b' = false ∧ q b' = false := by
  induction n generalizing b rounds with
  | zero => exact absurd hn (by simp)
  | succ n ih =>
    rw [probe]
    by_cases h0 : rounds = 0
    · exact ⟨b, if_pos h0, hr.resolve_left (fun h => h h0)⟩
    · rw [if_neg h0]
      obtain ⟨j, hj, hpj, hlej⟩ := skip_spec hp fuel b (rounds - 1) hfuel
      obtain ⟨k, hk, hqk, hlek⟩ := skip_spec hq fuel (b + j) (rounds - 1 + j) (by omega)
      simp only [hj, hk, Option.bind_eq_bind, Option.bind_some]
      refine ih (b + j + k) (rounds - 1 + j + k) (by omega) (by omega) ?_
      by_cases hzero : k = 0
      · subst hzero
        exact .inr ⟨hpj, hqk⟩
      · exact .inl (by omega)

end Svr32.Lib.Probe
