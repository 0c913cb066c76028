import Mathlib.Data.List.Basic

/-! The join of two lists on a key, and what is left of a list without a partner. -/
namespace Svr32.Lib
variable {α β κ : Type*} {f : α → κ} {g : β → κ} {l h : List α} {m k : List β}

/-- No key of the one list is a key of the other. -/
def Foreign (f : α → κ) (g : β → κ) (l : List α) (m : List β) : Prop :=
  ∀ a ∈ l, ∀ b ∈ m, f a ≠ g b

theorem Foreign.symm (hf : Foreign f g l m) : Foreign g f m l :=
  fun b hb a ha heq => hf a ha b hb heq.symm

variable [DecidableEq κ]

/- The pairs of equal key. -/
def pairs (f : α → κ) (g : β → κ) (l : List α) (m : List β) : List (α × β) :=
  l.flatMap fun a => (m.filter fun b => f a = g b).map fun b => (a, b)

/- The members of `l` that have no partner in `m`. -/
def lone (f : α → κ) (g : β → κ) (l : List α) (m : List β) : List α :=
  l.filter fun a => ∀ b ∈ m, f a ≠ g b

theorem filter_foreign {a : α} (ha : ∀ b ∈ m, f a ≠ g b) : (m.filter fun b => f a = g b) = [] := by
  rw [List.filter_eq_nil_iff]
  intro b hb
  simpa using ha b hb

theorem pairs_foreign (hf : Foreign f g l m) : pairs f g l m = [] := by
  rw [pairs, List.flatMap_eq_nil_iff]
  intro a ha
  rw [filter_foreign (hf a ha), List.map_nil]

theorem pairs_append_left : pairs f g (h ++ l) m = pairs f g h m ++ pairs f g l m :=
  List.flatMap_append

theorem pairs_append_right (hf : Foreign f g l k) : pairs f g l (k ++ m) = pairs f g l m := by
  rw [pairs, pairs]
  apply List.flatMap_congr
  intro a ha
  rw [List.filter_append, filter_foreign (hf a ha), List.nil_append]

theorem pairs_append_foreign (hf : Foreign f g l m) : pairs f g l (k ++ m) = pairs f g l k := by
  rw [pairs, pairs]
  apply List.flatMap_congr
  intro a ha
  rw [List.filter_append, filter_foreign (hf a ha), List.append_nil]

/- Two lists that begin with all of their members of one key. -/
theorem pairs_blocks (hm : Foreign f g h m) (hk : Foreign f g l k) :
    pairs f g (h ++ l) (k ++ m) = pairs f g h k ++ pairs f g l m := by
  rw [pairs_append_left, pairs_append_foreign hm, pairs_append_right hk]

theorem pairs_same {x : κ} (hh : ∀ a ∈ h, f a = x) (hk : ∀ b ∈ k, g b = x) :
    pairs f g h k = h.flatMap fun a => k.map fun b => (a, b) := by
  rw [pairs]
  apply List.flatMap_congr
  intro a ha
  have hall : (k.filter fun b => f a = g b) = k := by
    rw [List.filter_eq_self]
    intro b hb
    rw [hh a ha, hk b hb]
    exact decide_eq_true rfl
  rw [hall]

theorem lone_foreign (hf : Foreign f g l m) : lone f g l m = l := by
  rw [lone, List.filter_eq_self]
  intro a ha
  exact decide_eq_true (hf a ha)

theorem lone_append : lone f g (h ++ l) m = lone f g h m ++ lone f g l m :=
  List.filter_append _ _

theorem lone_append_right (hf : Foreign f g l k) : lone f g l (k ++ m) = lone f g l m := by
  rw [lone, lone]
  apply List.filter_congr
  intro a ha
  rw [decide_eq_decide, List.forall_mem_append, and_iff_right (hf a ha)]

theorem lone_nil (hh : ∀ a ∈ h, ∃ b ∈ m, f a = g b) : lone f g h m = [] := by
  rw [lone, List.filter_eq_nil_iff]
  intro a ha
  obtain ⟨b, hb, heq⟩ := hh a ha
  rw [decide_eq_true_eq]
  exact fun hno => hno b hb heq

end Svr32.Lib
