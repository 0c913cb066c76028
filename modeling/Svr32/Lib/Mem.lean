import Mathlib.Logic.Function.Basic
import Mathlib.Data.List.Basic

/-! Arrays as functions of the index, changed one entry at a time. -/
namespace Svr32.Lib

structure Arr (α : Type) where
  get : Nat → α

instance {α : Type} : CoeFun (Arr α) fun _ => Nat → α := ⟨Arr.get⟩

/- An array with one entry changed. -/
def put {α : Type} (a : Arr α) (i : Nat) (x : α) : Arr α := ⟨Function.update a.get i x⟩

theorem put_self {α : Type} (a : Arr α) (i : Nat) (x : α) : put a i x i = x := by
  change Function.update a.get i x i = x
  rw [Function.update_self]

theorem put_ne {α : Type} (a : Arr α) {i j : Nat} (x : α) (h : j ≠ i) : put a i x j = a j := by
  change Function.update a.get i x j = a.get j
  rw [Function.update_of_ne h]

end Svr32.Lib

/-! A memory of cells, and strings of cells that are written to it. -/
namespace Svr32.Lib
variable {α : Type*} {m m' : Int → α} {p q : Int} {xs ys : List α} {x : α}

abbrev Mem (α : Type*) := Int → α

/- The cells from `p` on. -/
def Mem.write (m : Mem α) (p : Int) : List α → Mem α
  | [] => m
  | x :: xs => Mem.write (Function.update m p x) (p + 1) xs

def Mem.Holds (m : Mem α) (p : Int) : List α → Prop
  | [] => True
  | x :: xs => m p = x ∧ Mem.Holds m (p + 1) xs

/- `n` cells from `p` on. -/
def Mem.read (m : Mem α) (p : Int) : Nat → List α
  | 0 => []
  | n + 1 => m p :: Mem.read m (p + 1) n

/- Two memories are the same from `p` up to `q`. -/
def Mem.Same (m m' : Mem α) (p q : Int) : Prop := ∀ i, p ≤ i → i < q → m' i = m i

theorem Mem.write_out (h : q < p ∨ p + xs.length ≤ q) : Mem.write m p xs q = m q := by
  induction xs generalizing m p with
  | nil => rfl
  | cons x xs ih =>
    rw [List.length_cons] at h
    rw [Mem.write, ih (by omega), Function.update_of_ne (by omega)]

theorem Mem.write_holds : Mem.Holds (Mem.write m p xs) p xs := by
  induction xs generalizing m p with
  | nil => trivial
  | cons x xs ih =>
    refine ⟨?_, ih⟩
    rw [Mem.write, Mem.write_out (by omega), Function.update_self]

/- What a string puts in a cell does not depend on where it is. -/
theorem Mem.write_shift {d : Int} (h : p ≤ q) (h' : q < p + xs.length) :
    Mem.write m' (p + d) xs (q + d) = Mem.write m p xs q := by
  induction xs generalizing m m' p with
  | nil =>
    rw [List.length_nil] at h'
    omega
  | cons x xs ih =>
    rw [List.length_cons] at h'
    have hp : p + d + 1 = p + 1 + d := by omega
    rw [Mem.write, Mem.write, hp]
    by_cases hq : q = p
    · subst hq
      rw [Mem.write_out (by omega), Mem.write_out (by omega), Function.update_self,
        Function.update_self]
    · exact ih (by omega) (by omega)

theorem Mem.Same.holds (h : Mem.Same m m' p (p + xs.length)) (hm : Mem.Holds m p xs) :
    Mem.Holds m' p xs := by
  induction xs generalizing p with
  | nil => trivial
  | cons x xs ih =>
    rw [List.length_cons] at h
    refine ⟨(h p (by omega) (by omega)).trans hm.1, ih (fun i hi hi' => h i ?_ ?_) hm.2⟩
    · omega
    · omega

theorem Mem.Same.mono {p' q' : Int} (h : Mem.Same m m' p q) (hp : p ≤ p') (hq : q' ≤ q) :
    Mem.Same m m' p' q' := fun i hi hi' => h i (by omega) (by omega)

theorem Mem.Same.trans {m'' : Mem α} (h : Mem.Same m m' p q) (h' : Mem.Same m' m'' p q) :
    Mem.Same m m'' p q := fun i hi hi' => (h' i hi hi').trans (h i hi hi')

theorem Mem.same_write_below (h : q ≤ p) (m : Mem α) (r : Int) (xs : List α) :
    Mem.Same m (Mem.write m p xs) r q := fun _ _ hi => Mem.write_out (.inl (by omega))

theorem Mem.same_write_above (h : p + xs.length ≤ q) (m : Mem α) (r : Int) :
    Mem.Same m (Mem.write m p xs) q r := fun _ hi _ => Mem.write_out (.inr (by omega))

theorem Mem.holds_append :
    Mem.Holds m p (xs ++ ys) ↔ Mem.Holds m p xs ∧ Mem.Holds m (p + xs.length) ys := by
  induction xs generalizing p with
  | nil => simp [Mem.Holds]
  | cons x xs ih =>
    have hlen : p + 1 + (xs.length : Int) = p + ((xs.length + 1 : Nat) : Int) := by
      omega
    rw [List.cons_append, Mem.Holds, Mem.Holds, ih, List.length_cons, hlen, and_assoc]

theorem Mem.write_append :
    Mem.write m p (xs ++ ys) = Mem.write (Mem.write m p xs) (p + xs.length) ys := by
  induction xs generalizing m p with
  | nil => simp [Mem.write]
  | cons x xs ih =>
    have hlen : p + 1 + (xs.length : Int) = p + ((xs.length + 1 : Nat) : Int) := by
      omega
    rw [List.cons_append, Mem.write, Mem.write, ih, List.length_cons, hlen]

@[simp] theorem Mem.length_read (m : Mem α) (p : Int) (n : Nat) :
    (Mem.read m p n).length = n := by
  induction n generalizing p with
  | zero => rfl
  | succ n ih => rw [Mem.read, List.length_cons, ih]

theorem Mem.write_read (m : Mem α) (p : Int) (n : Nat) : Mem.write m p (Mem.read m p n) = m := by
  induction n generalizing p with
  | zero => rfl
  | succ n ih => rw [Mem.read, Mem.write, Function.update_eq_self, ih]

/-- What is copied from `p` to `p + d`. -/
theorem Mem.copied {d : Int} {n : Nat} (h : p ≤ q) (h' : q < p + n) :
    Mem.write m' (p + d) (Mem.read m p n) (q + d) = m q := by
  rw [Mem.write_shift (m := m) h (by rw [Mem.length_read]; exact h'), Mem.write_read]

theorem Mem.Holds.shift {d : Int} (hm : Mem.Holds m p xs)
    (h : ∀ i, p ≤ i → i < p + xs.length → m' (i + d) = m i) : Mem.Holds m' (p + d) xs := by
  induction xs generalizing p with
  | nil => trivial
  | cons x xs ih =>
    rw [List.length_cons] at h
    have hp : p + d + 1 = p + 1 + d := by omega
    refine ⟨(h p (by omega) (by omega)).trans hm.1, hp ▸ ih hm.2 fun i hi hi' => h i ?_ ?_⟩
    · omega
    · omega

theorem Mem.read_add (m : Mem α) (p : Int) (i k : Nat) :
    Mem.read m p (i + k) = Mem.read m p i ++ Mem.read m (p + i) k := by
  induction i generalizing p with
  | zero => simp [Mem.read]
  | succ i ih =>
    have hp : p + 1 + (i : Int) = p + ((i + 1 : Nat) : Int) := by omega
    rw [Nat.succ_add, Mem.read, ih, Mem.read, List.cons_append, hp]

theorem Mem.read_slice (m : Mem α) (p : Int) {i k n : Nat} (h : i + k ≤ n) :
    ((Mem.read m p n).drop i).take k = Mem.read m (p + i) k := by
  obtain ⟨j, rfl⟩ := Nat.exists_eq_add_of_le h
  rw [Nat.add_assoc, Mem.read_add, Mem.read_add]
  rw [List.drop_left' (Mem.length_read _ _ _), List.take_left' (Mem.length_read _ _ _)]

theorem Mem.holds_read (m : Mem α) (p : Int) (n : Nat) :
    Mem.Holds m p (Mem.read m p n) := by
  induction n generalizing p with
  | zero => trivial
  | succ n ih => exact ⟨rfl, ih (p + 1)⟩

theorem Mem.Holds.read (h : Mem.Holds m p xs) : Mem.read m p xs.length = xs := by
  induction xs generalizing p with
  | nil => rfl
  | cons x xs ih => rw [List.length_cons, Mem.read, h.1, ih h.2]

end Svr32.Lib
