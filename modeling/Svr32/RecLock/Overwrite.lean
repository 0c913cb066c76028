import Svr32.RecLock.Effect
import Mathlib.Data.List.Pairwise

/-! What a lock list says of the bytes, and what flckadj changes of it: the range of the request
is written over, for the calling process alone. -/
namespace Svr32.RecLock
open Svr32.Lib
variable {I : Type*} [DecidableEq I]

/- Sorted, and disjoint and coalesced for each owner. -/
structure WellFormed (set : Nat → Flock) (l : List Nat) : Prop where
  valid : ∀ r ∈ l, (set r).Valid
  sorted : l.Pairwise fun r r' => (set r).lStart ≤ (set r').lStart
  apart : l.Pairwise fun r r' => (set r).owner = (set r').owner → (set r).Apart (set r')

/- The byte lies in the range. -/
def Flock.Covers (f : Flock) (i : Int) : Prop := f.lStart ≤ i ∧ i ≤ f.lEnd

instance (f : Flock) (i : Int) : Decidable (f.Covers i) :=
  inferInstanceAs (Decidable (f.lStart ≤ i ∧ i ≤ f.lEnd))

/- The ranges of an owner. -/
def locksOf (set : Nat → Flock) (l : List Nat) (v : Owner) : List Flock :=
  (l.map set).filter fun f => f.owner = v

/- The lock a byte has; F_UNLCK stands for none. -/
def lockAt (fs : List Flock) (i : Int) : LType :=
  match fs.find? fun f => f.Covers i with
  | none => .unlck
  | some f => f.lType

/- The bytes with the range `ld` written over them. -/
def overwritten (m : Int → LType) (ld : Flock) (i : Int) : LType :=
  if ld.Covers i then ld.lType else m i

/- How reclock gets to flckadj: blocked has found no conflict, or the request is an unlock. -/
def Begins (recs : Nat) (u : Owner) (li : ListId I) (ld : Flock) (k : Table I)
    (insrt : Option Nat) : Prop :=
  (ld.lType ≠ .unlck ∧ blocked recs u (k.links.head li) ld k = some (none, insrt)) ∨
    (ld.lType = .unlck ∧ insrt = k.links.head li)

/- Some lock of the process covers the byte. -/
def Holds (u : Owner) (set : Nat → Flock) (l : List Nat) (i : Int) (t : LType) : Prop :=
  ∃ r ∈ l, (set r).owner = u ∧ (set r).Covers i ∧ (set r).lType = t

/- The same with the range written over. -/
def Over (u : Owner) (set : Nat → Flock) (l : List Nat) (ld : Flock) (i : Int) (t : LType) : Prop :=
  (ld.Covers i ∧ t = ld.lType ∧ t ≠ .unlck) ∨ (¬ ld.Covers i ∧ Holds u set l i t)

/- The records `pre` lie apart from the range and from what is left. -/
structure Settled (u : Owner) (set : Nat → Flock) (pre post : List Nat) (ld : Flock) : Prop where
  valid : ∀ r ∈ pre, (set r).lStart ≤ (set r).lEnd
  own : ∀ r ∈ pre, (set r).owner = u → ld.Apart (set r)
  cross : ∀ r ∈ pre, ∀ r' ∈ post, (set r).owner = u → (set r').owner = u →
    (set r).Apart (set r')

variable {recs : Nat} {k k' : Table I} {ls ls' : ListId I → List Nat} {li : ListId I} {u v : Owner}
  {set set' : Nat → Flock} {l l' pre post pre' rest free free' : List Nat} {insrtp : Option Nat}
  {ld ld' : Flock} {flp : Nat} {i : Int} {t : LType}

/-- The record the loop looks at lies apart from the others of the process. -/
theorem Settled.beside (hs : Settled u set pre (flp :: post) ld)
    (hi : Left u set pre (flp :: post) insrtp ld) (ho : (set flp).owner = u) :
    ∀ r ∈ pre ++ post, (set r).owner = u → (set flp).Apart (set r) := by
  intro r hr hro
  rcases List.mem_append.mp hr with hr | hr
  · exact (hs.cross r hr flp (by simp) hro ho).symm
  · exact (List.pairwise_cons.mp hi.apart).1 r hr ho hro

theorem lockAt_spec (u : Owner) (set : Nat → Flock) (l : List Nat) (i : Int) :
    Holds u set l i (lockAt (locksOf set l u) i) ∨
      (lockAt (locksOf set l u) i = .unlck ∧ ∀ t, ¬ Holds u set l i t) := by
  simp only [lockAt]
  cases hf : (locksOf set l u).find? fun f => f.Covers i with
  | none =>
    refine .inr ⟨rfl, fun t ⟨r, hr, ho, hc, _⟩ => ?_⟩
    rw [List.find?_eq_none] at hf
    have hm : set r ∈ locksOf set l u := by
      simp only [locksOf, List.mem_filter, List.mem_map, decide_eq_true_eq]
      exact ⟨⟨r, hr, rfl⟩, ho⟩
    exact absurd hc (by simpa using hf (set r) hm)
  | some f =>
    have hm := List.mem_of_find?_eq_some hf
    have hc := List.find?_some hf
    simp only [locksOf, List.mem_filter, List.mem_map, decide_eq_true_eq] at hm hc
    obtain ⟨⟨r, hr, rfl⟩, ho⟩ := hm
    exact .inl ⟨r, hr, ho, hc, rfl⟩

/-- No byte has two locks of one owner. -/
theorem Holds.unique (h : WellFormed set l) {t' : LType} (ht : Holds u set l i t)
    (ht' : Holds u set l i t') : t = t' := by
  obtain ⟨r, hr, ho, hc, rfl⟩ := ht
  obtain ⟨r', hr', ho', hc', rfl⟩ := ht'
  by_cases he : r = r'
  · rw [he]
  · have : Std.Symm fun r r' : Nat =>
        (set r).owner = (set r').owner → (set r).Apart (set r') :=
      ⟨fun a b hab hba => (hab hba.symm).symm⟩
    have hd := (h.apart.forall hr hr' he (ho.trans ho'.symm)).1
    simp only [Flock.Covers] at hc hc'
    omega

/-- The relation and the function over the bytes. -/
theorem lockAt_overwritten (h : WellFormed set l)
    (hiff : ∀ i t, Holds u set' l' i t ↔ Over u set l ld i t) :
    lockAt (locksOf set' l' u) = overwritten (lockAt (locksOf set l u)) ld := by
  funext i
  have hold := lockAt_spec u set l i
  simp only [overwritten]
  rcases lockAt_spec u set' l' i with hnew | ⟨hnew, hno⟩
  · rcases (hiff _ _).mp hnew with ⟨hc, ht, -⟩ | ⟨hc, ht⟩
    · rw [if_pos hc, ht]
    · rw [if_neg hc]
      rcases hold with hold | ⟨-, hno⟩
      · exact ht.unique h hold
      · exact absurd ht (hno _)
  · rw [hnew]
    split
    · next hc =>
      refine Classical.by_contradiction fun ht => hno ld.lType ?_
      exact (hiff _ _).mpr (.inl ⟨hc, rfl, fun h => ht h.symm⟩)
    · next hc =>
      rcases hold with hold | ⟨hold, -⟩
      · exact absurd ((hiff _ _).mpr (.inr ⟨hc, hold⟩)) (hno _)
      · exact hold.symm

theorem holds_middle {x : Nat} : Holds u set (pre ++ x :: post) i t ↔
    ((set x).owner = u ∧ (set x).Covers i ∧ (set x).lType = t) ∨
      Holds u set (pre ++ post) i t := by
  simp only [Holds, List.perm_middle.mem_iff, List.mem_cons, exists_eq_or_imp]

theorem holds_congr (hs : ∀ r ∈ l, set' r = set r) : Holds u set' l i t ↔ Holds u set l i t := by
  refine exists_congr fun r => and_congr_right fun hr => ?_
  rw [hs r hr]

theorem ne_of_notMem_middle {x y r : Nat} (h : y ∉ pre ++ x :: post) (hr : r ∈ pre ++ post) :
    r ≠ y := fun he =>
  h (List.perm_middle.mem_iff.mpr (List.mem_cons_of_mem x (he ▸ hr)))

theorem locksOf_middle {x : Nat} (hx : (set x).owner ≠ v) :
    locksOf set (pre ++ x :: post) v = locksOf set (pre ++ post) v := by
  simp [locksOf, hx]

theorem locksOf_congr (hs : ∀ r ∈ l, set' r = set r) : locksOf set' l v = locksOf set l v := by
  rw [locksOf, List.map_congr_left hs, locksOf]

theorem over_congr (h : ¬ ld.Covers i →
      (Holds u set l i t ↔ Holds u set' l' i t)) :
    Over u set l ld i t ↔ Over u set' l' ld i t :=
  or_congr Iff.rfl (and_congr_right h)

/-- A range that takes in a lock covers the same bytes without it. -/
theorem over_join (hj : Joins ld (set flp) ld') (ho : (set flp).owner = u)
    (hle : ld.lStart ≤ ld.lEnd) (hty : (set flp).lType ≠ .unlck)
    (hd : ∀ r ∈ pre ++ post, (set r).owner = u → (set flp).Apart (set r)) :
    Over u set (pre ++ flp :: post) ld i t ↔ Over u set (pre ++ post) ld' i t := by
  have hno : (set flp).Covers i → ¬ Holds u set (pre ++ post) i t := by
    rintro hc ⟨r, hr, hro, hrc, -⟩
    have hdr := (hd r hr hro).1
    simp only [Flock.Covers] at hc hrc
    omega
  simp only [Over, holds_middle, hj.type, ho, true_and]
  rcases hj.range with ⟨rfl, h₁, h₂⟩ | ⟨ht, h₁, h₂, hs, he⟩
  · have hin : (set flp).Covers i → ld'.Covers i := by
      simp only [Flock.Covers]
      omega
    by_cases hc : ld'.Covers i
    · simp only [hc, not_true_eq_false, false_and]
    · have hf : ¬ (set flp).Covers i := fun hf => hc (hin hf)
      simp only [hf, false_and, false_or]
  · have hiff : ld'.Covers i ↔ ld.Covers i ∨ (set flp).Covers i := by
      simp only [Flock.Covers]
      omega
    rw [← ht, hiff]
    by_cases hf : (set flp).Covers i
    · have hH := hno hf
      by_cases hc : ld.Covers i
      · simp only [hc, true_or, not_true_eq_false, false_and]
      · simp only [hc, hf, hH, or_true, not_true_eq_false, not_false_eq_true, false_and, true_and,
          false_or, or_false]
        exact ⟨fun h => ⟨h.symm, fun hu => hty (ht.symm.trans (h.trans hu))⟩, fun h => h.1.symm⟩
    · simp only [hf, or_false, false_and, false_or]

namespace Did

/-- A turn leaves the bytes with the range written over them as they are. -/
theorem written_over (h : Did set pre flp post free ld set' pre' rest free' ld')
    (ho : (set flp).owner = u) (hnd : (pre ++ flp :: post).Nodup)
    (hi : Left u set pre (flp :: post) insrtp ld) (hs : Settled u set pre (flp :: post) ld)
    (i : Int) (t : LType) :
    Over u set (pre ++ flp :: post) ld i t ↔ Over u set' (pre' ++ rest) ld' i t := by
  have hle := hi.le
  have hv := hi.valid flp (by simp)
  have hnf := (List.nodup_cons.mp (List.perm_middle.nodup_iff.mp hnd)).1
  have hty := hi.type flp (by simp)
  have hd := hs.beside hi ho
  cases h with
  | keep hap => rw [List.append_assoc, List.singleton_append]
  | pass hap hlt => rw [List.append_nil]
  | drop hj => exact over_join hj ho hi.le hty hd
  | last hj ht he =>
    rw [List.append_nil]
    exact over_join hj ho hi.le hty hd
  | cut ht hst he hle =>
    rw [List.append_assoc, List.singleton_append]
    refine over_congr fun hc => ?_
    rw [holds_middle, holds_middle, Function.update_self]
    refine or_congr ?_ (holds_congr fun r hr =>
      Function.update_of_ne (fun he : r = flp => hnf (he ▸ hr)) _ _).symm
    refine and_congr Iff.rfl (and_congr_left fun _ => ?_)
    simp only [Flock.Covers] at hc ⊢
    omega
  | @part mid back new fs hpost hfree hnew ht hst hle he =>
    subst hpost
    rw [List.append_nil, ← List.append_assoc]
    refine over_congr fun hc => ?_
    rw [holds_middle, holds_middle, Function.update_self, List.append_assoc]
    refine or_congr ?_ (holds_congr fun r hr =>
      Function.update_of_ne (ne_of_notMem_middle hnew hr) _ _).symm
    refine and_congr Iff.rfl (and_congr_left fun _ => ?_)
    simp only [Flock.Covers] at hc ⊢
    omega
  | @split mid back new fs hpost hfree hnew ht hst he =>
    subst hpost
    have hne : flp ≠ new := fun he => hnew (by simp [← he])
    rw [List.append_nil, show pre ++ flp :: (mid ++ new :: back) =
      (pre ++ flp :: mid) ++ new :: back by simp]
    refine over_congr fun hc => ?_
    rw [@holds_middle _ _ (pre ++ flp :: mid), List.append_assoc, List.cons_append, holds_middle,
      holds_middle, Function.update_self, Function.update_of_ne hne, Function.update_self,
      ← or_assoc]
    refine or_congr ?_ (holds_congr fun r hr => ?_).symm
    · have hsplit : (set flp).Covers i ↔ Flock.Covers { set flp with lStart := ld.lEnd + 1 } i ∨
          Flock.Covers { set flp with lEnd := ld.lStart - 1 } i := by
        simp only [Flock.Covers] at hc ⊢
        omega
      rw [hsplit, or_and_right, and_or_left]
      exact Iff.rfl
    · rw [Function.update_of_ne, Function.update_of_ne]
      · exact fun he => hnf (he ▸ hr)
      · exact ne_of_notMem_middle hnew hr

/-- The ranges of the other processes are not touched. -/
theorem locksOf (h : Did set pre flp post free ld set' pre' rest free' ld')
    (ho : (set flp).owner = u) (hnd : (pre ++ flp :: post).Nodup) (hv : v ≠ u) :
    RecLock.locksOf set' (pre' ++ rest) v = RecLock.locksOf set (pre ++ flp :: post) v := by
  have hne : (set flp).owner ≠ v := fun h => hv (h.symm.trans ho)
  have hnf := (List.nodup_cons.mp (List.perm_middle.nodup_iff.mp hnd)).1
  cases h with
  | keep hap => rw [List.append_assoc, List.singleton_append]
  | pass hap hlt => rw [List.append_nil]
  | drop hj => exact (locksOf_middle hne).symm
  | last hj ht he =>
    rw [List.append_nil]
    exact (locksOf_middle hne).symm
  | cut ht hst he hle =>
    rw [List.append_assoc, List.singleton_append, locksOf_middle hne, locksOf_middle]
    · exact locksOf_congr fun r hr => Function.update_of_ne (fun he : r = flp => hnf (he ▸ hr)) _ _
    · rwa [Function.update_self]
  | @part mid back new fs hpost hfree hnew ht hst hle he =>
    subst hpost
    rw [List.append_nil, ← List.append_assoc, locksOf_middle hne, locksOf_middle, List.append_assoc]
    · exact locksOf_congr fun r hr => Function.update_of_ne (ne_of_notMem_middle hnew hr) _ _
    · rwa [Function.update_self]
  | @split mid back new fs hpost hfree hnew ht hst he =>
    subst hpost
    have hfn : flp ≠ new := fun he => hnew (by simp [← he])
    rw [List.append_nil, show pre ++ flp :: (mid ++ new :: back) =
      (pre ++ flp :: mid) ++ new :: back by simp, locksOf_middle, List.append_assoc,
      List.cons_append, locksOf_middle, locksOf_middle hne]
    · refine locksOf_congr fun r hr => ?_
      rw [Function.update_of_ne, Function.update_of_ne]
      · exact fun he => hnf (he ▸ hr)
      · exact ne_of_notMem_middle hnew hr
    · rwa [Function.update_of_ne hfn, Function.update_self]
    · rwa [Function.update_self]

end Did

end Svr32.RecLock
