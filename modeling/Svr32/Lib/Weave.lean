import Mathlib.Data.List.Perm.Basic
import Mathlib.Order.Defs.LinearOrder
import Mathlib.Order.Lattice

/-! Interleaved deltas: one list holds every version of a text. Each line lies inside the block of
the delta that inserted it, and a delta that removes lines puts a block of its own around them. -/
namespace Svr32.Lib.Weave

inductive Item (ι τ : Type) where
  | ins (s : ι)
  | del (s : ι)
  | fin (s : ι)
  | line (t : τ)
deriving DecidableEq

/- A block that is open. -/
structure Mark (ι : Type) where
  ser : ι
  ins : Bool
deriving DecidableEq

section
variable {ι τ : Type} [LinearOrder ι]

/- The blocks that are open, the last that was opened first. -/
def next (q : List (Mark ι)) : Item ι τ → List (Mark ι)
  | .ins s => ⟨s, true⟩ :: q
  | .del s => ⟨s, false⟩ :: q
  | .fin s => q.eraseP fun m => m.ser = s
  | .line _ => q

def nexts (q : List (Mark ι)) (w : List (Item ι τ)) : List (Mark ι) := w.foldl next q

def IsOpen (s : ι) (q : List (Mark ι)) : Prop := ∃ m ∈ q, m.ser = s

instance (s : ι) (q : List (Mark ι)) : Decidable (IsOpen s q) :=
  inferInstanceAs (Decidable (∃ m ∈ q, m.ser = s))

/- The delta of the innermost block that inserts. -/
def innermost (q : List (Mark ι)) : Option ι := (q.find? (·.ins)).map (·.ser)

/- No block of a delta that is applied deletes what `s` has inserted. -/
def Spared (A : ι → Bool) (q : List (Mark ι)) (s : ι) : Prop :=
  ∀ m ∈ q, m.ins = false → A m.ser = true → ¬ s < m.ser

instance (A : ι → Bool) (q : List (Mark ι)) (s : ι) : Decidable (Spared A q s) :=
  inferInstanceAs (Decidable (∀ m ∈ q, m.ins = false → A m.ser = true → ¬ s < m.ser))

/- The delta that a line comes from, if the version with the deltas of `A` has the line. -/
def source (A : ι → Bool) (q : List (Mark ι)) : Option ι :=
  (innermost q).filter fun s => A s = true ∧ Spared A q s

/- What there is of an item in the version: a line, with its delta. -/
def line (A : ι → Bool) (q : List (Mark ι)) : Item ι τ → List (τ × ι)
  | .line t => (source A q).toList.map fun s => (t, s)
  | _ => []

def shown (A : ι → Bool) : List (Mark ι) → List (Item ι τ) → List (τ × ι)
  | _, [] => []
  | q, x :: w => line A q x ++ shown A (next q x) w

/- Every item has the property, where it stands. -/
def Along (P : List (Mark ι) → Item ι τ → Prop) : List (Mark ι) → List (Item ι τ) → Prop
  | _, [] => True
  | q, x :: w => P q x ∧ Along P (next q x) w

/- A delta has one block open at most, a block that inserts lies in those of lower deltas only,
and what is ended is open. -/
def Fit (q : List (Mark ι)) : Item ι τ → Prop
  | .ins s => ¬ IsOpen s q ∧ ∀ m ∈ q, m.ins = true → m.ser < s
  | .del s => ¬ IsOpen s q
  | .fin s => IsOpen s q
  | .line _ => True

/- What is ended is open. -/
def Ends (q : List (Mark ι)) : Item ι τ → Prop
  | .fin s => IsOpen s q
  | _ => True

def Proper (w : List (Item ι τ)) : Prop := Along Fit [] w ∧ nexts [] w = []

/-- Every block that is begun is ended, and no other. -/
def Balanced (w : List (Item ι τ)) : Prop := Along Ends [] w ∧ nexts [] w = []

/- Blocks that insert are nested, with the higher delta inside. -/
def Nested (q : List (Mark ι)) : Prop :=
  q.Pairwise fun a b => a.ins = true → b.ins = true → b.ser < a.ser

theorem Nested.next {q : List (Mark ι)} (hn : Nested q) {x : Item ι τ} (hf : Fit q x) :
    Nested (next q x) := by
  cases x with
  | ins s => exact List.pairwise_cons.mpr ⟨fun m hm _ hi => hf.2 m hm hi, hn⟩
  | del s => exact List.pairwise_cons.mpr ⟨fun m hm hi => absurd hi (by simp), hn⟩
  | fin s => exact hn.sublist List.eraseP_sublist
  | line t => exact hn

/-- The innermost block that inserts is that of the highest delta. -/
theorem innermost_iff {q : List (Mark ι)} (hn : Nested q) (s : ι) :
    innermost q = some s ↔ ⟨s, true⟩ ∈ q ∧ ∀ m ∈ q, m.ins = true → ¬ s < m.ser := by
  induction q with
  | nil => simp [innermost]
  | cons m q ih =>
    obtain ⟨hm, hq⟩ := List.pairwise_cons.mp hn
    obtain ⟨t, i⟩ := m
    cases i with
    | false =>
      have hih := ih hq
      simp only [innermost] at hih
      simp [innermost, hih]
    | true =>
      simp only [innermost, List.find?_cons_of_pos, Option.map_some, Option.some.injEq]
      constructor
      · rintro rfl
        refine ⟨by simp, fun m hm' hi => ?_⟩
        rcases List.mem_cons.mp hm' with rfl | hm'
        · exact lt_irrefl _
        · exact not_lt_of_gt (hm m hm' rfl hi)
      · rintro ⟨hs, hmax⟩
        rcases List.mem_cons.mp hs with hs | hs
        · exact (congrArg Mark.ser hs).symm
        · exact absurd (hm _ hs rfl rfl) (hmax _ (by simp) rfl)

theorem source_iff {A : ι → Bool} {q : List (Mark ι)} (hn : Nested q) (s : ι) :
    source A q = some s ↔
      ⟨s, true⟩ ∈ q ∧ (∀ m ∈ q, m.ins = true → ¬ s < m.ser) ∧ A s = true ∧ Spared A q s := by
  rw [source, Option.filter_eq_some_iff, innermost_iff hn]
  simp [and_assoc]

/-! The open blocks in a queue, highest delta first. -/

def Desc (k : List (Mark ι)) : Prop := k.Pairwise fun a b => b.ser < a.ser

def enter (m : Mark ι) : List (Mark ι) → List (Mark ι)
  | [] => [m]
  | x :: k => if x.ser ≤ m.ser then m :: x :: k else x :: enter m k

/- The highest delta that has something to say decides: one that inserts, by whether it is
applied; one that deletes, only if it is. -/
def verdict (A : ι → Bool) : List (Mark ι) → Option ι
  | [] => none
  | m :: k =>
    if m.ins then if A m.ser then some m.ser else none
    else if A m.ser then none else verdict A k

theorem enter_perm (m : Mark ι) (k : List (Mark ι)) : (enter m k).Perm (m :: k) := by
  induction k with
  | nil => rfl
  | cons x k ih =>
    rw [enter]
    split
    · rfl
    · exact (ih.cons x).trans (List.Perm.swap m x k)

theorem Desc.enter {m : Mark ι} {k : List (Mark ι)} (hk : Desc k) (hm : ¬ IsOpen m.ser k) :
    Desc (enter m k) := by
  induction k with
  | nil => exact List.pairwise_singleton _ _
  | cons x k ih =>
    obtain ⟨hx, hk'⟩ := List.pairwise_cons.mp hk
    rw [Weave.enter]
    split
    · rename_i hle
      have hlt : x.ser < m.ser := lt_of_le_of_ne hle fun h => hm ⟨x, by simp, h⟩
      refine List.pairwise_cons.mpr ⟨fun y hy => ?_, hk⟩
      rcases List.mem_cons.mp hy with rfl | hy
      · exact hlt
      · exact lt_trans (hx y hy) hlt
    · rename_i hgt
      have hk₂ := ih hk' fun ⟨y, hy, h⟩ => hm ⟨y, List.mem_cons_of_mem x hy, h⟩
      refine List.pairwise_cons.mpr ⟨fun y hy => ?_, hk₂⟩
      rcases List.mem_cons.mp ((enter_perm m k).mem_iff.mp hy) with rfl | hy
      · exact not_le.mp hgt
      · exact hx y hy

theorem verdict_iff {A : ι → Bool} {k : List (Mark ι)} (hk : Desc k) (s : ι) :
    verdict A k = some s ↔
      ⟨s, true⟩ ∈ k ∧ (∀ m ∈ k, m.ins = true → ¬ s < m.ser) ∧ A s = true ∧ Spared A k s := by
  induction k with
  | nil => simp [verdict]
  | cons m k ih =>
    obtain ⟨hm, hk'⟩ := List.pairwise_cons.mp hk
    obtain ⟨t, i⟩ := m
    have hlow : ∀ s, (⟨s, true⟩ : Mark ι) ∈ k → s < t := fun s hs => hm _ hs
    cases i with
    | true =>
      have hhead : (⟨s, true⟩ ∈ (⟨t, true⟩ : Mark ι) :: k ∧
          ∀ m ∈ (⟨t, true⟩ : Mark ι) :: k, m.ins = true → ¬ s < m.ser) ↔ s = t := by
        constructor
        · rintro ⟨hs, hmax⟩
          rcases List.mem_cons.mp hs with hs | hs
          · exact congrArg Mark.ser hs
          · exact absurd (hlow s hs) (hmax ⟨t, true⟩ (by simp) rfl)
        · rintro rfl
          refine ⟨by simp, fun m hm' _ => ?_⟩
          rcases List.mem_cons.mp hm' with rfl | hm'
          · exact lt_irrefl _
          · exact not_lt_of_gt (hm m hm')
      rw [← and_assoc, hhead, verdict, if_pos rfl]
      constructor
      · intro h
        split at h
        · rename_i ha
          cases h
          refine ⟨rfl, ha, fun m hm' _ _ => ?_⟩
          rcases List.mem_cons.mp hm' with rfl | hm'
          · exact lt_irrefl _
          · exact not_lt_of_gt (hm m hm')
        · cases h
      · rintro ⟨rfl, ha, -⟩
        rw [if_pos ha]
    | false =>
      rw [verdict, if_neg (by simp)]
      split
      · rename_i ha
        refine iff_of_false (by simp) ?_
        rintro ⟨hs, -, -, hsp⟩
        have hs' : (⟨s, true⟩ : Mark ι) ∈ k := by simpa using hs
        exact hsp _ (by simp) rfl ha (hlow s hs')
      · rename_i ha
        rw [ih hk']
        simp [Spared, ha]

/-- The head of the queue tells whether the version has the line, and whose it is. -/
theorem verdict_eq_source {A : ι → Bool} {k q : List (Mark ι)} (hk : Desc k) (hp : k.Perm q)
    (hn : Nested q) : verdict A k = source A q := by
  ext s
  rw [verdict_iff hk, source_iff hn]
  simp [Spared, hp.mem_iff]

/-- To end a block in the queue is to end it. -/
theorem erase_perm {k q : List (Mark ι)} (hk : Desc k) (hp : k.Perm q) (s : ι) :
    (k.eraseP fun m => m.ser = s).Perm (q.eraseP fun m => m.ser = s) := by
  refine List.Perm.eraseP _ (hk.imp ?_) hp
  intro a b hab ha hb
  have ha' : a.ser = s := by simpa using ha
  have hb' : b.ser = s := by simpa using hb
  exact ne_of_lt hab (hb'.trans ha'.symm)

end
end Svr32.Lib.Weave
