import Svr32.Lib.SearchTree
import Svr32.Lib.Word
import Mathlib.Tactic.Linarith

/-! libgen/tree.c: the balanced tree. A null pointer that is followed gives `none`. -/
namespace Svr32.Libgen
open Svr32.Lib Svr32.Lib.SearchTree

/- What a routine returns: TRUE or FALSE, or a pointer to data. -/
inductive Answer (α : Type) where
  | flag (b : Bool)
  | data (o : Option α)
deriving DecidableEq

structure TNode (α : Type) where
  deleted : Bool
  balance_factor : Int
  data : α
deriving DecidableEq

abbrev Tree (α : Type) := BinaryTree (TNode α)

structure THead (α : Type) where
  head : Tree α
  height : Int
  numnodes : Int
deriving DecidableEq

variable {α : Type}

def mknode (data : α) : Tree α := .node ⟨false, 0, data⟩ .nil .nil

def balance : Tree α → Option Int
  | .nil => none
  | .node n _ _ => some n.balance_factor

def setBalance (b : Int) : Tree α → Tree α
  | .nil => .nil
  | .node n l r => .node { n with balance_factor := b } l r

/- The comparison of the user, and what it makes of data that tdelete has freed: `freed` is `none`
where it cannot go on. -/
variable (compare : α → α → Int) (freed : α → α → Option Int)

def COMPARE (data : α) : Tree α → Option Int
  | .nil => none
  | .node n _ _ => if n.deleted then freed data n.data else some (compare data n.data)

def side (i : Int) : Side := if i < 0 then .left else .right

/- The loop of adjust_balance, from p on. -/
def walk (data : α) : Tree α → Option (Tree α)
  | .nil => none
  | .node n l r => do
    let i ← COMPARE compare freed data (.node n l r)
    if i = 0 then some (.node n l r)
    else if i < 0 then
      (walk data l).map fun l => .node { n with balance_factor := -1 } l r
    else
      (walk data r).map fun r => .node { n with balance_factor := 1 } l r

/- adjust_balance and balancing_act are about the tree at `s`. -/
def adjustBalance (data : α) (s : Tree α) : Option (Tree α × Bool) := do
  let i ← COMPARE compare freed data s
  if i = 0 then some (s, false)
  else do
    let p ← walk compare freed data (link (side i) s)
    some (setLink (side i) s p, true)

/- The new balance factors of a double rotation, from that of p. -/
def double (a : Side) (s r p : Tree α) (b : Int) : Tree α × Bool :=
  let r' := setLink a.opp r (link a p)
  let s' := setLink a s (link a.opp p)
  let up (s r : Tree α) := setBalance 0 (setLink a.opp (setLink a p r) s)
  if b = a.sign then (up (setBalance (-a.sign) s') (setBalance 0 r'), true)
  else if b = 0 then (up (setBalance 0 s') (setBalance 0 r'), true)
  else if b = -a.sign then (up (setBalance 0 s') (setBalance a.sign r'), true)
  else (s', false)

/- The tree has gotten out of balance. -/
def rotate (a : Side) (s : Tree α) : Option (Tree α × Bool) := do
  let r := link a s
  let b ← balance r
  if b = a.sign then
    some (setLink a.opp (setBalance 0 r) (setBalance 0 (setLink a s (link a.opp r))), true)
  else if b = -a.sign then do
    let p := link a.opp r
    let b ← balance p
    some (double a s r p b)
  else some (s, false)

/- The tree that takes the place of `s`, by how much the whole has grown, and what is returned. -/
def balancingAct (data : α) (s : Tree α) : Option (Tree α × Int × Bool) := do
  let i ← COMPARE compare freed data s
  if i = 0 then some (s, 0, false)
  else do
    let b ← balance s
    if b = 0 then some (setBalance (side i).sign s, 1, true)
    else if b = -(side i).sign then some (setBalance 0 s, 0, true)
    else if b = (side i).sign then (rotate (side i) s).map fun u => (u.1, 0, u.2)
    else some (s, 0, false)

/- Where the loop of tinsert ends: at a node with the key, or at a link for the new node, with the
place for re-balancing. -/
inductive Found where
  | node (p : List Side)
  | leaf (p : List Side) (a : Side) (s : List Side)
deriving DecidableEq

/- The place for re-balancing, when p moves on to q. -/
def bookkeep (q : Tree α) (pq s : List Side) : List Side :=
  if balance q = some 0 then s else pq

def isNull : Tree α → Bool
  | .nil => true
  | .node _ _ _ => false

def search (data : α) : Tree α → List Side → List Side → Option Found
  | .nil, _, _ => none
  | .node n l r, p, s => do
    let i ← COMPARE compare freed data (.node n l r)
    if i = 0 then some (.node p)
    else if i > 0 then
      if isNull r then some (.leaf p .right s)
      else search data r (p ++ [.right]) (bookkeep r (p ++ [.right]) s)
    else
      if isNull l then some (.leaf p .left s)
      else search data l (p ++ [.left]) (bookkeep l (p ++ [.left]) s)

/- Add the new node at a link of the node at `p`. -/
def addNode (data : α) (a : Side) (t : Tree α) : Option (Tree α × Unit) :=
  some (setLink a t (mknode data), ())

/- What follows when the node is new. -/
def addAt (h : THead α) (data : α) (p : List Side) (a : Side) (s : List Side) :
    Option (THead α × Bool) := do
  let (t, _) ← alter (addNode data a) p h.head
  let (t, ok) ← alter (adjustBalance compare freed data) s t
  if ok = false then some ({ h with head := t }, false)
  else do
    let (t, g, ok) ← alter (balancingAct compare freed data) s t
    let h := { h with head := t, height := i16 (h.height + g) }
    if ok = false then some (h, false)
    else some ({ h with numnodes := i16 (h.numnodes + 1) }, true)

/- Move the data into a node that was logically deleted. -/
def revive (data : α) : Tree α → Option (Tree α × Bool)
  | .nil => none
  | .node n l r =>
    if n.deleted then some (.node { n with data := data, deleted := false } l r, true)
    else some (.node n l r, false)

def reviveAt (h : THead α) (data : α) (p : List Side) : Option (THead α × Bool) := do
  let (t, ok) ← alter (revive data) p h.head
  if ok = false then some (h, false)
  else some ({ h with head := t, numnodes := i16 (h.numnodes + 1) }, true)

def tinsert (h : THead α) (data : α) : Option (THead α × Bool) :=
  match h.head with
  | .nil => some (⟨mknode data, 1, 1⟩, true)
  | .node n l r => do
    let found ← search compare freed data (.node n l r) [] []
    match found with
    | .node p => reviveAt h data p
    | .leaf p a s => addAt compare freed h data p a s

/- The loop of tlookup and of tdelete. -/
def find (data : α) : Tree α → List Side → Option (Option (List Side))
  | .nil, _ => none
  | .node n l r, p => do
    let i ← COMPARE compare freed data (.node n l r)
    if i = 0 then some (some p)
    else if i > 0 then
      if isNull r then some none else find data r (p ++ [.right])
    else
      if isNull l then some none else find data l (p ++ [.left])

/- The data of a node that is not deleted. -/
def dataOf : Tree α → Option (Tree α × Option α)
  | .nil => none
  | .node n l r => some (.node n l r, if n.deleted then none else some n.data)

def tlookup (h : THead α) (data : α) : Option (Option α) :=
  match h.head with
  | .nil => some none
  | .node n l r => do
    let found ← find compare freed data (.node n l r) []
    match found with
    | none => some none
    | some p => (alter dataOf p h.head).map Prod.snd

/- Free the data and mark the node. -/
def mark : Tree α → Option (Tree α × Bool)
  | .nil => none
  | .node n l r =>
    if n.deleted then some (.node n l r, false)
    else some (.node { n with deleted := true } l r, true)

def markAt (h : THead α) (p : List Side) : Option (THead α × Bool) := do
  let (t, ok) ← alter mark p h.head
  if ok = false then some (h, false)
  else some ({ h with head := t, numnodes := i16 (h.numnodes - 1) }, true)

def tdelete (h : THead α) (data : α) : Option (THead α × Bool) :=
  match h.head with
  | .nil => some (h, false)
  | .node n l r => do
    let found ← find compare freed data (.node n l r) []
    match found with
    | none => some (h, false)
    | some p => markAt h p

end Svr32.Libgen

/-! Rotations keep the order of the nodes and give back the balance. -/
namespace Svr32.Libgen
open Svr32.Lib Svr32.Lib.SearchTree BinaryTree
variable {α κ : Type}

/-- Each balance factor is the difference of the heights below it, and that is at most one. -/
def Avl : Tree α → Prop
  | .nil => True
  | .node n l r => n.balance_factor = (r.height : Int) - l.height ∧
      -1 ≤ n.balance_factor ∧ n.balance_factor ≤ 1 ∧ Avl l ∧ Avl r

/- The data in order, with the marks. -/
def faces (t : Tree α) : List (α × Bool) := (inorder t).map fun n => (n.data, n.deleted)

theorem faces_node (n : TNode α) (l r : Tree α) :
    faces (.node n l r) = faces l ++ (n.data, n.deleted) :: faces r := by
  rw [faces, inorder, List.map_append, List.map_cons]
  rfl

theorem avl_join {a : Side} {n : TNode α} {t u : Tree α} : Avl (join a n t u) ↔
    n.balance_factor = a.sign * ((t.height : Int) - u.height) ∧
      -1 ≤ n.balance_factor ∧ n.balance_factor ≤ 1 ∧ Avl t ∧ Avl u := by
  cases a <;> simp only [join, Avl, Side.sign]
  · constructor
    · rintro ⟨hb, h₁, h₂, ht, hu⟩
      exact ⟨by omega, h₁, h₂, ht, hu⟩
    · rintro ⟨hb, h₁, h₂, ht, hu⟩
      exact ⟨by omega, h₁, h₂, ht, hu⟩
  · constructor
    · rintro ⟨hb, h₁, h₂, hu, ht⟩
      exact ⟨by omega, h₁, h₂, ht, hu⟩
    · rintro ⟨hb, h₁, h₂, ht, hu⟩
      exact ⟨by omega, h₁, h₂, hu, ht⟩

@[simp]
theorem balance_join (a : Side) (n : TNode α) (t u : Tree α) :
    balance (join a n t u) = some n.balance_factor := by
  cases a <;> rfl

@[simp]
theorem setBalance_join (a : Side) (b : Int) (n : TNode α) (t u : Tree α) :
    setBalance b (join a n t u) = join a { n with balance_factor := b } t u := by
  cases a <;> rfl

/- A node of which one side is two higher than the other. -/
def Tilted (a : Side) (s : Tree α) : Prop :=
  Avl (link a s) ∧ Avl (link a.opp s) ∧ (link a s).height = (link a.opp s).height + 2 ∧
    balance (link a s) ≠ some 0

theorem sign_cases (a : Side) : a.sign = 1 ∨ a.sign = -1 := by
  cases a
  · exact Or.inr rfl
  · exact Or.inl rfl

section rotate
variable {a : Side} {n m p : TNode α} {t u x y o : Tree α}

theorem rotate_single (hm : m.balance_factor = a.sign) :
    rotate a (join a n (join a m x y) o) =
      some (join a { m with balance_factor := 0 } x (join a { n with balance_factor := 0 } y o),
        true) := by
  simp [rotate, hm]

/- The new balance factors, whichever the old one of p was. -/
theorem rotate_double (hm : m.balance_factor = -a.sign)
    (hp : p.balance_factor = a.sign ∨ p.balance_factor = 0 ∨ p.balance_factor = -a.sign) :
    ∃ bs br, rotate a (join a n (join a m x (join a p t u)) o) =
        some (join a { p with balance_factor := 0 } (join a { m with balance_factor := br } x t)
          (join a { n with balance_factor := bs } u o), true) ∧
      (p.balance_factor = a.sign ∧ bs = -a.sign ∧ br = 0 ∨ p.balance_factor = 0 ∧ bs = 0 ∧ br = 0 ∨
        p.balance_factor = -a.sign ∧ bs = 0 ∧ br = a.sign) := by
  have hs := sign_cases a
  have hne : ¬ -a.sign = a.sign := by omega
  rcases hp with hp | hp | hp
  · exact ⟨-a.sign, 0, by simp [rotate, double, hm, hp, hne], Or.inl ⟨hp, rfl, rfl⟩⟩
  · have h0 : ¬ 0 = a.sign := by omega
    exact ⟨0, 0, by simp [rotate, double, hm, hp, hne, h0], Or.inr (Or.inl ⟨hp, rfl, rfl⟩)⟩
  · have h0 : ¬ a.sign = 0 := by omega
    exact ⟨0, a.sign, by simp [rotate, double, hm, hp, hne, h0], Or.inr (Or.inr ⟨hp, rfl, rfl⟩)⟩

end rotate

/-- Rotation puts a tilted node right; the tree is then as high as its higher side was. -/
theorem rotate_spec {a : Side} {s : Tree α} (h : Tilted a s) :
    ∃ t, rotate a s = some (t, true) ∧ Avl t ∧ t.height = (link a s).height ∧
      faces t = faces s := by
  obtain ⟨ha, ho, hh, hb⟩ := h
  cases s with
  | nil => simp [link] at hh
  | node n l r =>
    rw [join_eta a n l r] at ha ho hh hb ⊢
    generalize link a (.node n l r) = t at *
    generalize link a.opp (.node n l r) = o at *
    simp only [link_join, link_opp_join] at ha ho hh hb ⊢
    obtain ⟨m, x, y, rfl⟩ := height_pos a t (by omega)
    obtain ⟨hm, hm₁, hm₂, hx, hy⟩ := avl_join.1 ha
    simp only [balance_join, ne_eq, Option.some.injEq] at hb
    rw [height_join] at hh ⊢
    have hs := sign_cases a
    by_cases hma : m.balance_factor = a.sign
    · refine ⟨_, rotate_single hma, ?_, ?_, ?_⟩
      · simp only [avl_join, height_join]
        rcases hs with hs | hs <;> rw [hs] at hm hma ⊢ <;>
          exact ⟨by omega, by omega, by omega, hx, by omega, by omega, by omega, hy, ho⟩
      · simp only [height_join]
        rcases hs with hs | hs <;> rw [hs] at hm hma <;> omega
      · cases a <;> simp [join, faces_node]
    · have hma' : m.balance_factor = -a.sign := by omega
      obtain ⟨p, u, v, rfl⟩ := height_pos a y (by
        rcases hs with hs | hs <;> rw [hs] at hm hma' <;> omega)
      obtain ⟨hp, hp₁, hp₂, hu, hv⟩ := avl_join.1 hy
      obtain ⟨bs, br, hrot, hnew⟩ := @rotate_double _ a n m p u v x o hma' (by omega)
      rw [height_join] at hm hh ⊢
      refine ⟨_, hrot, ?_, ?_, ?_⟩
      · simp only [avl_join, height_join]
        rcases hs with hs | hs <;> rw [hs] at hm hma' hp hnew ⊢ <;>
          exact ⟨by omega, by omega, by omega, ⟨by omega, by omega, by omega, hx, hu⟩,
            by omega, by omega, by omega, hv, ho⟩
      · simp only [height_join]
        rcases hs with hs | hs <;> rw [hs] at hm hma' hp <;> omega
      · cases a <;> simp [join, faces_node]

end Svr32.Libgen
