import Mathlib.Logic.Relation
import Mathlib.Data.Set.Basic

/-! Transition systems: a start condition and a step relation. The invariant
rules are proved once here; every run of the kernel models is an instance. -/
namespace Svr32.Lib
variable {σ : Type*}

structure System (σ : Type*) where
  init : σ → Prop
  step : σ → σ → Prop

/-- A state some finite run leads to. -/
def System.Reachable (S : System σ) (s : σ) : Prop :=
  ∃ s₀, S.init s₀ ∧ Relation.ReflTransGen S.step s₀ s

theorem System.reachable_init {S : System σ} {s : σ} (h : S.init s) : S.Reachable s :=
  ⟨s, h, .refl⟩

theorem System.reachable_step {S : System σ} {s t : σ}
    (h : S.Reachable s) (hst : S.step s t) : S.Reachable t := by
  obtain ⟨s₀, h₀, hr⟩ := h
  exact ⟨s₀, h₀, hr.tail hst⟩

/-- An invariant holds at the start and is kept by every step, so it holds of
every reachable state. -/
theorem System.invariant {S : System σ} (I : σ → Prop)
    (hinit : ∀ s, S.init s → I s) (hstep : ∀ s t, I s → S.step s t → I t)
    {s : σ} (h : S.Reachable s) : I s := by
  obtain ⟨s₀, h₀, hr⟩ := h
  induction hr with
  | refl => exact hinit s₀ h₀
  | tail _ hst ih => exact hstep _ _ ih hst

end Svr32.Lib
