import Mathlib.Data.Tree.Basic
import Mathlib.Order.Defs.LinearOrder
import Mathlib.Order.Lattice

/-! Binary trees seen from the links of a node: places in the tree, and the nodes in order. -/
namespace Svr32.Lib.SearchTree
open BinaryTree
variable {α β κ : Type*}

inductive Side where
  | left
  | right
deriving DecidableEq

def Side.opp : Side → Side
  | .left => .right
  | .right => .left

def Side.sign : Side → Int
  | .left => -1
  | .right => 1

def link : Side → BinaryTree α → BinaryTree α
  | _, .nil => .nil
  | .left, .node _ l _ => l
  | .right, .node _ _ r => r

def setLink : Side → BinaryTree α → BinaryTree α → BinaryTree α
  | _, .nil, _ => .nil
  | .left, .node x _ r, l => .node x l r
  | .right, .node x l _, r => .node x l r

/- A node with the tree `t` on one side and `u` on the other. -/
def join : Side → α → BinaryTree α → BinaryTree α → BinaryTree α
  | .left, x, t, u => .node x t u
  | .right, x, t, u => .node x u t

section join
variable (a : Side) (x : α) (t u v : BinaryTree α)

theorem join_eta (l r : BinaryTree α) :
    .node x l r = join a x (link a (.node x l r)) (link a.opp (.node x l r)) := by
  cases a <;> rfl

@[simp]
theorem link_join : link a (join a x t u) = t := by
  cases a <;> rfl

@[simp]
theorem link_opp_join : link a.opp (join a x t u) = u := by
  cases a <;> rfl

@[simp]
theorem setLink_join : setLink a (join a x t u) v = join a x v u := by
  cases a <;> rfl

@[simp]
theorem setLink_opp_join : setLink a.opp (join a x t u) v = join a x t v := by
  cases a <;> rfl

theorem height_join : (join a x t u).height = max t.height u.height + 1 := by
  cases a
  · rfl
  · exact congrArg (· + 1) (Nat.max_comm u.height t.height)

theorem height_pos (h : 0 < t.height) : ∃ y u v, t = join a y u v := by
  cases t with
  | nil => exact (Nat.lt_irrefl 0 h).elim
  | node y l r => exact ⟨y, _, _, join_eta a y l r⟩

end join

/- Change what is at the end of a path. -/
def alter (f : BinaryTree α → Option (BinaryTree α × β)) :
    List Side → BinaryTree α → Option (BinaryTree α × β)
  | [], t => f t
  | _ :: _, .nil => none
  | .left :: p, .node x l r => (alter f p l).map fun u => (.node x u.1 r, u.2)
  | .right :: p, .node x l r => (alter f p r).map fun u => (.node x l u.1, u.2)

def inorder : BinaryTree α → List α
  | .nil => []
  | .node x l r => inorder l ++ x :: inorder r

variable [LinearOrder κ] {key : α → κ}

/- The keys grow from left to right. -/
def Ordered (key : α → κ) (t : BinaryTree α) : Prop :=
  (inorder t).Pairwise fun x y => key x < key y

theorem ordered_node {x : α} {l r : BinaryTree α} : Ordered key (.node x l r) ↔
    Ordered key l ∧ Ordered key r ∧ (∀ y ∈ inorder l, key y < key x) ∧
      ∀ y ∈ inorder r, key x < key y := by
  rw [Ordered, inorder, List.pairwise_append, List.pairwise_cons]
  constructor
  · rintro ⟨hl, ⟨hx, hr⟩, hlr⟩
    exact ⟨hl, hr, fun y hy => hlr y hy x List.mem_cons_self, hx⟩
  · rintro ⟨hl, hr, hlx, hxr⟩
    refine ⟨hl, ⟨hxr, hr⟩, fun y hy z hz => ?_⟩
    rcases List.mem_cons.1 hz with rfl | hz
    · exact hlx y hy
    · exact lt_trans (hlx y hy) (hxr z hz)

/- A key can only be on the side that it is searched on. -/
theorem Ordered.mem_left {x y : α} {l r : BinaryTree α} (h : Ordered key (.node x l r))
    (hlt : key y < key x) : y ∈ inorder (.node x l r) ↔ y ∈ inorder l := by
  obtain ⟨-, -, -, hr⟩ := ordered_node.1 h
  rw [inorder, List.mem_append, List.mem_cons]
  constructor
  · rintro (hy | rfl | hy)
    · exact hy
    · exact (lt_irrefl _ hlt).elim
    · exact (lt_asymm hlt (hr y hy)).elim
  · exact Or.inl

theorem Ordered.mem_right {x y : α} {l r : BinaryTree α} (h : Ordered key (.node x l r))
    (hlt : key x < key y) : y ∈ inorder (.node x l r) ↔ y ∈ inorder r := by
  obtain ⟨-, -, hl, -⟩ := ordered_node.1 h
  rw [inorder, List.mem_append, List.mem_cons]
  constructor
  · rintro (hy | rfl | hy)
    · exact (lt_asymm hlt (hl y hy)).elim
    · exact (lt_irrefl _ hlt).elim
    · exact hy
  · exact fun hy => Or.inr (Or.inr hy)

end Svr32.Lib.SearchTree
