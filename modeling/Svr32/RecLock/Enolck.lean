import Svr32.RecLock.Written

/-! flckadj that runs out of records: when it has already cut a lock down, the bytes cut off are
lost. -/
namespace Svr32.RecLock
open Svr32.Lib
variable {I : Type*} [DecidableEq I]

/- No lock of the process among `l` goes when the range is set: those that start in it reach behind
it, and are not of its type. -/
def Stays (u : Owner) (set : Nat → Flock) (l : List Nat) (ld : Flock) : Prop :=
  ∀ r ∈ l, (set r).owner = u → ld.lStart ≤ (set r).lStart →
    ld.lEnd < (set r).lEnd ∧ (ld.lType = (set r).lType → ld.lEnd + 1 < (set r).lStart)

/- A lock of the process of another type starts in the range and reaches behind it. -/
def Parts (u : Owner) (set : Nat → Flock) (l : List Nat) (ld : Flock) : Prop :=
  ∃ r ∈ l, (set r).owner = u ∧ ld.lType ≠ (set r).lType ∧ ld.lStart ≤ (set r).lStart ∧
    (set r).lStart ≤ ld.lEnd ∧ ld.lEnd < (set r).lEnd

/- The call fails after it has cut a lock of another type down: the one free record goes to the
piece behind a range in the middle of the lock, or there is none for what follows the cut. -/
def Loses (u : Owner) (set : Nat → Flock) (l free : List Nat) (ld : Flock) : Prop :=
  (ld.lType ≠ .unlck ∧ free.length = 1 ∧ ∃ r ∈ l, (set r).owner = u ∧
    ld.lType ≠ (set r).lType ∧ (set r).lStart < ld.lStart ∧ ld.lEnd < (set r).lEnd) ∨
  (free = [] ∧ (∃ r ∈ l, (set r).owner = u ∧ ld.lType ≠ (set r).lType ∧
    (set r).lStart < ld.lStart ∧ ld.lStart ≤ (set r).lEnd ∧ (set r).lEnd ≤ ld.lEnd) ∧
    Stays u set l ld ∧ (ld.lType ≠ .unlck ∨ Parts u set l ld))

variable {recs : Nat} {k k' : Table I} {ls ls' : ListId I → List Nat} {li : ListId I} {u : Owner}
  {set set' : Nat → Flock} {l l' pre post pre' rest free free' : List Nat} {insrtp : Option Nat}
  {ld ld' : Flock} {flp : Nat}

/- What a call that fails leaves. -/
def Same (recs : Nat) (li : ListId I) (k : Table I) (ls : ListId I → List Nat)
    (k' : Table I) : Prop :=
  ∃ ls', Rep recs k' ls' ∧ k'.set = k.set ∧ ls' li = ls li

theorem Loses.holds (hL : Loses u set l free ld) (hw : WellFormed set l)
    (hle : ld.lStart ≤ ld.lEnd) : ∃ t, Holds u set l ld.lStart t ∧ t ≠ .unlck := by
  have hcov : ∃ r ∈ l, (set r).owner = u ∧ (set r).Covers ld.lStart := by
    rcases hL with ⟨-, -, r, hr, hro, -, hs, he⟩ | ⟨-, ⟨r, hr, hro, -, hs, he, -⟩, -⟩
    · exact ⟨r, hr, hro, by omega, by omega⟩
    · exact ⟨r, hr, hro, by omega, he⟩
  obtain ⟨r, hr, hro, hc⟩ := hcov
  refine ⟨(set r).lType, ⟨r, hr, hro, hc, rfl⟩, fun hu => ?_⟩
  have hty := (hw.valid r hr).type
  rw [hu] at hty
  exact hty.elim nofun nofun

end Svr32.RecLock
