import Mathlib.Data.Int.Basic
import Mathlib.Algebra.Ring.Nat
import Mathlib.Algebra.Ring.Int.Defs

/-! Fixed-width signed and unsigned integers of C: the value a word keeps. -/
namespace Svr32.Lib

def i32 (x : Int) : Int := Int.bmod x (2 ^ 32)

def i16 (x : Int) : Int := Int.bmod x (2 ^ 16)

def u16 (x : Int) : Int := x % 2 ^ 16

theorem i32_eq {x : Int} (h₁ : -2 ^ 31 ≤ x) (h₂ : x < 2 ^ 31) : i32 x = x := by
  rw [i32, Int.bmod_def]
  split <;> omega

theorem i32_range (x : Int) : -2 ^ 31 ≤ i32 x ∧ i32 x < 2 ^ 31 := by
  rw [i32, Int.bmod_def]
  split <;> omega

theorem i16_eq {x : Int} (h₁ : -2 ^ 15 ≤ x) (h₂ : x < 2 ^ 15) : i16 x = x := by
  rw [i16, Int.bmod_def]
  split <;> omega

theorem i16_range (x : Int) : -2 ^ 15 ≤ i16 x ∧ i16 x < 2 ^ 15 := by
  rw [i16, Int.bmod_def]
  split <;> omega

theorem u16_eq {x : Int} (h₁ : 0 ≤ x) (h₂ : x < 2 ^ 16) : u16 x = x :=
  Int.emod_eq_of_lt h₁ h₂

theorem u16_range (x : Int) : 0 ≤ u16 x ∧ u16 x < 2 ^ 16 := by
  simp only [u16]
  omega

theorem i16_emod (x : Int) : i16 (x % 2 ^ 16) = i16 x := Int.emod_bmod x (2 ^ 16)

theorem i32_emod (x : Int) : i32 (x % 2 ^ 32) = i32 x := Int.emod_bmod x (2 ^ 32)

theorem i16_i16 (x : Int) : i16 (i16 x) = i16 x := Int.bmod_bmod

end Svr32.Lib
