import Mathlib.Logic.Function.Basic
import Mathlib.Data.List.Nodup
import Mathlib.Order.Basic
import Svr32.Lib.SearchTree

/-! libc/port/gen/tsearch.c: nodes in memory, and a pointer to the link that is followed. A pointer
to no node that is followed, and a loop that does not end in its turns, give `none`. -/
namespace Svr32.Libc
open Svr32.Lib.SearchTree

structure Node (K : Type) where
  key : K
  llink : Nat
  rlink : Nat
deriving DecidableEq

variable {K : Type}

def Node.link (n : Node K) : Side → Nat
  | .left => n.llink
  | .right => n.rlink

def Node.setLink (n : Node K) (q : Nat) : Side → Node K
  | .left => { n with llink := q }
  | .right => { n with rlink := q }

abbrev Mem (K : Type) := Nat → Option (Node K)

/- The nodes that are allocated, and the variable with the root; NULL is 0. -/
structure Heap (K : Type) where
  mem : Mem K
  root : Nat

/- What rootp points to. -/
inductive Cell where
  | root
  | link (a : Nat) (s : Side)
deriving DecidableEq

def Heap.read (h : Heap K) : Cell → Option Nat
  | .root => some h.root
  | .link a s => (h.mem a).map fun n => n.link s

def Heap.write (h : Heap K) (q : Nat) : Cell → Option (Heap K)
  | .root => some { h with root := q }
  | .link a s => (h.mem a).map fun n =>
    { h with mem := Function.update h.mem a (some (n.setLink q s)) }

variable (compar : K → K → Int)

def sideOf (r : Int) : Side := if r < 0 then .left else .right

/- The loop of tsearch, with *rootp as it ends: NULL, or the node that has the key. -/
def searchLoop (h : Heap K) (key : K) : Nat → Cell → Option (Cell × Nat)
  | 0, _ => none
  | n + 1, rootp => do
    let a ← h.read rootp
    if a = 0 then some (rootp, 0)
    else do
      let node ← h.mem a
      let r := compar key node.key
      if r = 0 then some (rootp, a) else searchLoop h key n (.link a (sideOf r))

/- `q` is what malloc returns, if it is called. -/
def tsearch (n : Nat) (h : Heap K) (rootp : Option Cell) (key : K) (q : Nat) :
    Option (Heap K × Nat) :=
  match rootp with
  | none => some (h, 0)
  | some rootp => do
    let (rootp, a) ← searchLoop compar h key n rootp
    if a ≠ 0 then some (h, a)
    else if q ≠ 0 then do
      let h ← h.write q rootp
      some ({ h with mem := Function.update h.mem q (some ⟨key, 0, 0⟩) }, q)
    else some (h, 0)

/- The loop of tdelete: rootp and p where the key is; nothing where it is not. -/
def deleteLoop (h : Heap K) (key : K) : Nat → Cell → Nat → Option (Option (Cell × Nat))
  | 0, _, _ => none
  | n + 1, rootp, p => do
    let a ← h.read rootp
    let node ← h.mem a
    let ans := compar key node.key
    if ans = 0 then some (some (rootp, p))
    else do
      let rootp := .link a (sideOf ans)
      let b ← h.read rootp
      if b = 0 then some none else deleteLoop h key n rootp a

/- for (q = r->llink; q->llink != NULL; q = r->llink) r = q; from r and q on. -/
def successor (h : Heap K) : Nat → Nat → Nat → Option (Nat × Nat)
  | 0, _, _ => none
  | n + 1, r, q => do
    let node ← h.mem q
    if node.llink = 0 then some (r, q) else successor h n q node.llink

/- The node that takes the place of the node at *rootp, and the memory with it. -/
def replacement (n : Nat) (h : Heap K) (rootp : Cell) : Option (Heap K × Nat) := do
  let a ← h.read rootp
  let node ← h.mem a
  let r := node.rlink
  let q := node.llink
  if q = 0 then some (h, r)
  else if r ≠ 0 then do
    let right ← h.mem r
    if right.llink = 0 then do
      let h ← h.write q (.link r .left)
      some (h, r)
    else do
      let (r, q) ← successor h n r right.llink
      let succ ← h.mem q
      let h ← h.write succ.rlink (.link r .left)
      let node ← h.mem a
      let h ← h.write node.llink (.link q .left)
      let node ← h.mem a
      let h ← h.write node.rlink (.link q .right)
      some (h, q)
  else some (h, q)

def free (h : Heap K) (a : Nat) : Heap K := { h with mem := Function.update h.mem a none }

def tdelete (n : Nat) (h : Heap K) (rootp : Option Cell) (key : K) : Option (Heap K × Nat) :=
  match rootp with
  | none => some (h, 0)
  | some rootp => do
    let p ← h.read rootp
    if p = 0 then some (h, 0)
    else do
      match ← deleteLoop compar h key n rootp p with
      | none => some (h, 0)
      | some (rootp, p) => do
        let (h, q) ← replacement n h rootp
        let a ← h.read rootp
        let h ← (free h a).write q rootp
        some (h, p)

/-! The tree in memory. -/

section rep
variable {m m' : Mem K} {t u v l r : BinaryTree (Nat × K)} {x : Nat × K} {a b : Nat}
  {c c' : Cell} {s : Side} {pre post : List (Nat × K)}

/- The tree of the nodes that are linked from the address `a`. -/
def Rep (m : Mem K) : BinaryTree (Nat × K) → Nat → Prop
  | .nil, a => a = 0
  | .node x l r, a => a = x.1 ∧ x.1 ≠ 0 ∧
    ∃ n, m x.1 = some n ∧ n.key = x.2 ∧ Rep m l n.llink ∧ Rep m r n.rlink

def nodes (t : BinaryTree (Nat × K)) : List Nat := (inorder t).map Prod.fst

theorem mem_nodes (h : x ∈ inorder t) : x.1 ∈ nodes t := List.mem_map_of_mem h

theorem rep_join : Rep m (join s x l r) a ↔ a = x.1 ∧ x.1 ≠ 0 ∧
    ∃ n, m x.1 = some n ∧ n.key = x.2 ∧ Rep m l (n.link s) ∧ Rep m r (n.link s.opp) := by
  cases s with
  | left => exact Iff.rfl
  | right =>
    have hswap : ∀ n : Node K, (m x.1 = some n ∧ n.key = x.2 ∧ Rep m r n.llink ∧ Rep m l n.rlink) ↔
        m x.1 = some n ∧ n.key = x.2 ∧ Rep m l n.rlink ∧ Rep m r n.llink :=
      fun n => and_congr_right fun _ => and_congr_right fun _ => and_comm
    exact and_congr_right fun _ => and_congr_right fun _ => exists_congr hswap

/- What the links lead to does not depend on other nodes. -/
theorem Rep.congr (ht : Rep m t a) (h : ∀ x ∈ inorder t, m' x.1 = m x.1) : Rep m' t a := by
  induction t generalizing a with
  | nil => exact ht
  | node x l r ihl ihr =>
    obtain ⟨ha, h0, n, hn, hk, hl, hr⟩ := ht
    have hx : m' x.1 = some n := by rw [h x (by simp [inorder]), hn]
    have hl' := ihl hl fun y hy => h y (by simp [inorder, hy])
    have hr' := ihr hr fun y hy => h y (by simp [inorder, hy])
    exact ⟨ha, h0, n, hx, hk, hl', hr'⟩

theorem Rep.nil_of_zero (ht : Rep m t 0) : t = .nil := by
  cases t with
  | nil => rfl
  | node x l r => exact (ht.2.1 ht.1.symm).elim

theorem Rep.alloc (ht : Rep m t a) (hx : x ∈ inorder t) :
    x.1 ≠ 0 ∧ ∃ n, m x.1 = some n ∧ n.key = x.2 := by
  induction t generalizing a with
  | nil => cases hx
  | node y l r ihl ihr =>
    obtain ⟨-, h0, n, hn, hk, hl, hr⟩ := ht
    rw [inorder, List.mem_append, List.mem_cons] at hx
    rcases hx with hx | rfl | hx
    · exact ihl hl hx
    · exact ⟨h0, n, hn, hk⟩
    · exact ihr hr hx

@[simp]
theorem Node.link_setLink (n : Node K) : (n.setLink b s).link s = b := by
  cases s <;> rfl

@[simp]
theorem Node.link_opp_setLink (n : Node K) : (n.setLink b s).link s.opp = n.link s.opp := by
  cases s <;> rfl

@[simp]
theorem Node.key_setLink (n : Node K) : (n.setLink b s).key = n.key := by
  cases s <;> rfl

/- The nodes before and after one side of a node. -/
def front (x : Nat × K) (u : BinaryTree (Nat × K)) : Side → List (Nat × K)
  | .left => []
  | .right => inorder u ++ [x]

def back (x : Nat × K) (u : BinaryTree (Nat × K)) : Side → List (Nat × K)
  | .left => x :: inorder u
  | .right => []

theorem inorder_join : inorder (join s x l r) = front x r s ++ inorder l ++ back x r s := by
  cases s <;> simp [join, front, back, inorder]

theorem mem_sides {y : Nat × K} :
    y ∈ front x r s ∨ y ∈ back x r s ↔ y = x ∨ y ∈ inorder r := by
  cases s <;> simp [front, back, or_comm]

theorem self_mem_sides : x ∈ front x r s ∨ x ∈ back x r s := mem_sides.2 (.inl rfl)

theorem mem_sides_of_mem {y : Nat × K} (hy : y ∈ inorder r) :
    y ∈ front x r s ∨ y ∈ back x r s := mem_sides.2 (.inr hy)

theorem nodup_join : (nodes (join s x l r)).Nodup ↔
    (nodes l).Nodup ∧ (nodes r).Nodup ∧ x.1 ∉ nodes l ∧ x.1 ∉ nodes r ∧
      ∀ y ∈ nodes l, y ∉ nodes r := by
  cases s <;> simp only [nodes, join, inorder, List.map_append, List.map_cons,
    List.nodup_append, List.nodup_cons, List.mem_cons] <;> grind

def Cell.owner : Cell → Option Nat
  | .root => none
  | .link a _ => some a

/- The walk from the tree at one cell to the tree at another, with the nodes that are before
and after that. -/
inductive Path : Cell → BinaryTree (Nat × K) → Cell → BinaryTree (Nat × K) →
    List (Nat × K) → List (Nat × K) → Prop
  | here (c : Cell) (t : BinaryTree (Nat × K)) : Path c t c t [] []
  | step (c : Cell) (x : Nat × K) (r : BinaryTree (Nat × K)) (s : Side)
      {l c' u pre post} : Path (.link x.1 s) l c' u pre post →
    Path c (join s x l r) c' u (front x r s ++ pre) (post ++ back x r s)

theorem Path.split (hp : Path c t c' u pre post) :
    inorder t = pre ++ inorder u ++ post := by
  induction hp with
  | here => simp
  | @step c x r s l c' u pre post hp ih => rw [inorder_join, ih]; simp

theorem Path.height_le (hp : Path c t c' u pre post) : u.height ≤ t.height := by
  induction hp with
  | here => exact Nat.le_refl _
  | @step c x r s l c' u pre post hp ih =>
    rw [height_join]
    omega

/- The cell at the end belongs to a node that is passed. -/
theorem Path.owner (hp : Path c t c' u pre post) :
    c' = c ∨ ∃ x ∈ pre ++ post, c'.owner = some x.1 := by
  induction hp with
  | here => exact .inl rfl
  | @step c x r s l c' u pre post hp ih =>
    rcases ih with rfl | ⟨y, hy, ho⟩
    · exact .inr ⟨x, by grind [self_mem_sides (x := x) (r := r) (s := s)], rfl⟩
    · exact .inr ⟨y, by grind, ho⟩

/- The cell at the end has the address of the tree that is there. -/
theorem Path.read {h : Heap K} (hp : Path c t c' u pre post) (hc : h.read c = some a)
    (ht : Rep h.mem t a) : ∃ b, h.read c' = some b ∧ Rep h.mem u b := by
  induction hp generalizing a with
  | here => exact ⟨a, hc, ht⟩
  | @step c x r s l c' u pre post hp ih =>
    obtain ⟨-, -, n, hn, -, hl, -⟩ := rep_join.1 ht
    exact ih (by rw [Heap.read, hn]; rfl) hl

/- Another tree takes the place of the one at the end, when one link is changed for it. -/
theorem Path.relink (hp : Path c t c' u pre post) (ht : Rep m t a) (hn : (nodes t).Nodup)
    (hc : ∀ x ∈ inorder t, c.owner ≠ some x.1)
    (hm : ∀ x ∈ pre ++ post, c'.owner ≠ some x.1 → m' x.1 = m x.1)
    (hl : ∀ y s, c' = .link y s → m' y = (m y).map fun n => n.setLink b s)
    (hv : Rep m' v b) : ∃ t', Rep m' t' (if c' = c then b else a) ∧
      inorder t' = pre ++ inorder v ++ post := by
  induction hp generalizing a with
  | here => exact ⟨v, by rwa [if_pos rfl], by simp⟩
  | @step c x r s l c' u pre post hp ih =>
    obtain ⟨ha, h0, n, hx, hk, hln, hrn⟩ := rep_join.1 ht
    obtain ⟨hnl, -, hxl, hxr, hlr⟩ := nodup_join.1 hn
    have hown : ∀ y ∈ inorder l, (Cell.link x.1 s).owner ≠ some y.1 := by
      intro y hy he
      exact hxl (Option.some.inj he ▸ mem_nodes hy)
    obtain ⟨l', hl', hin⟩ := ih hln hnl hown (fun y hy => hm y (by grind)) hl
    -- the cell at the end is a link of x or of a node of l
    have hend : c' = .link x.1 s ∨ ∃ y ∈ inorder l, c'.owner = some y.1 := by
      rcases hp.owner with he | ⟨y, hy, ho⟩
      · exact .inl he
      · exact .inr ⟨y, by rw [hp.split]; grind, ho⟩
    have hcc : c' ≠ c := by
      intro he
      rcases hend with h | ⟨y, hy, ho⟩
      · have hx : x ∈ inorder (join s x l r) := by
          rw [inorder_join]
          grind [self_mem_sides (x := x) (r := r) (s := s)]
        exact hc x hx (by rw [← he, h]; rfl)
      · exact hc y (by rw [inorder_join]; grind) (by rw [← he, ho])
    have hother : Rep m' r (n.link s.opp) := by
      refine hrn.congr fun y hy => hm y ?_ ?_
      · grind [mem_sides_of_mem (x := x) (s := s) hy]
      · intro ho
        rcases hend with h | ⟨z, hz, ho'⟩
        · rw [h] at ho
          exact hxr (Option.some.inj ho ▸ mem_nodes hy)
        · rw [ho] at ho'
          exact hlr z.1 (mem_nodes hz) (Option.some.inj ho' ▸ mem_nodes hy)
    refine ⟨join s x l' r, ?_, ?_⟩
    · rw [if_neg hcc, rep_join]
      by_cases he : c' = .link x.1 s
      · rw [if_pos he] at hl'
        exact ⟨ha, h0, n.setLink b s, by rw [hl _ _ he, hx]; rfl, by rw [n.key_setLink, hk],
          by rwa [n.link_setLink], by rwa [n.link_opp_setLink]⟩
      · rw [if_neg he] at hl'
        refine ⟨ha, h0, n, ?_, hk, hl', hother⟩
        rw [hm x _ _, hx]
        · grind [self_mem_sides (x := x) (r := r) (s := s)]
        · intro ho
          rcases hend with h | ⟨y, hy, ho'⟩
          · exact he h
          · rw [ho] at ho'
            exact hxl (Option.some.inj ho' ▸ mem_nodes hy)
    · rw [inorder_join, hin]
      simp

end rep

/-! Searching. -/

section search
variable {κ : Type} [LinearOrder κ] {rank : K → κ} {compar} {h : Heap K} {key : K}
  {t u l r : BinaryTree (Nat × K)} {x : Nat × K} {a b p n : Nat} {c c' : Cell} {s : Side}
  {pre post : List (Nat × K)}

/- compar orders the keys as their ranks are ordered. -/
structure IsOrder (compar : K → K → Int) (rank : K → κ) : Prop where
  lt : ∀ a b, compar a b < 0 ↔ rank a < rank b
  eq : ∀ a b, compar a b = 0 ↔ rank a = rank b

/- Where a search for `key` ends: the tree at that cell is empty or has the key at its root. -/
structure Found (rank : K → κ) (h : Heap K) (key : K) (c : Cell) (t : BinaryTree (Nat × K))
    (c' : Cell) (b : Nat) (u : BinaryTree (Nat × K)) (pre post : List (Nat × K)) : Prop where
  path : Path c t c' u pre post
  read : h.read c' = some b
  rep : Rep h.mem u b
  stop : u = .nil ∨ ∃ x l r, u = .node x l r ∧ rank x.2 = rank key
  before : ∀ x ∈ pre, rank x.2 < rank key
  after : ∀ x ∈ post, rank key < rank x.2

theorem Found.step (hf : Found rank h key (.link x.1 s) l c' b u pre post)
    (hfront : ∀ y ∈ front x r s, rank y.2 < rank key)
    (hback : ∀ y ∈ back x r s, rank key < rank y.2) :
    Found rank h key c (join s x l r) c' b u (front x r s ++ pre) (post ++ back x r s) := by
  refine ⟨.step c x r s hf.path, hf.read, hf.rep, hf.stop, fun y hy => ?_, fun y hy => ?_⟩
  · rcases List.mem_append.1 hy with hy | hy
    · exact hfront y hy
    · exact hf.before y hy
  · rcases List.mem_append.1 hy with hy | hy
    · exact hf.after y hy
    · exact hback y hy

/- One turn of the loop at a node. -/
theorem searchLoop_node (hc : h.read c = some a) (ht : Rep h.mem (.node x l r) a) :
    searchLoop compar h key (n + 1) c = if compar key x.2 = 0 then some (c, a) else
      searchLoop compar h key n (.link x.1 (sideOf (compar key x.2))) := by
  obtain ⟨rfl, h0, node, hn, hk, -, -⟩ := ht
  simp [searchLoop, hc, h0, hn, hk]

theorem read_link (hs : Rep h.mem (.node x l r) a) : ∃ la ra, h.read (.link x.1 .left) = some la ∧
    h.read (.link x.1 .right) = some ra ∧ Rep h.mem l la ∧ Rep h.mem r ra := by
  obtain ⟨-, -, node, hn, -, hl, hr⟩ := hs
  exact ⟨node.llink, node.rlink, by rw [Heap.read, hn]; rfl, by rw [Heap.read, hn]; rfl, hl, hr⟩

theorem searchLoop_found (ho : IsOrder compar rank) (hc : h.read c = some a)
    (ht : Rep h.mem t a) (hs : Ordered (fun x : Nat × K => rank x.2) t) :
    ∃ c' b u pre post, Found rank h key c t c' b u pre post ∧
      ∀ n > t.height, searchLoop compar h key n c = some (c', b) := by
  induction t generalizing c a with
  | nil =>
    have ha : a = 0 := ht
    refine ⟨c, 0, .nil, [], [], ⟨.here c .nil, ha ▸ hc, rfl, .inl rfl, by simp, by simp⟩, ?_⟩
    rintro (_ | n) hn
    · cases hn
    · simp [searchLoop, hc, ha]
  | node x l r ihl ihr =>
    obtain ⟨hsl, hsr, hlx, hxr⟩ := ordered_node.1 hs
    obtain ⟨la, ra, hla, hra, hl, hr⟩ := read_link ht
    have hturn : ∀ n > (BinaryTree.node x l r).height, ∃ m, l.height < m ∧ r.height < m ∧
        searchLoop compar h key n c = if compar key x.2 = 0 then some (c, a) else
          searchLoop compar h key m (.link x.1 (sideOf (compar key x.2))) := by
      rintro (_ | m) hn
      · cases hn
      · have hh : max l.height r.height + 1 < m + 1 := hn
        exact ⟨m, by omega, by omega, searchLoop_node hc ht⟩
    rcases lt_trichotomy (rank key) (rank x.2) with hlt | heq | hgt
    · have hneg := (ho.lt key x.2).2 hlt
      obtain ⟨c', b, u, pre, post, hf, he⟩ := ihl hla hl hsl
      have hback : ∀ y ∈ back x r .left, rank key < rank y.2 := by
        intro y hy
        rcases List.mem_cons.1 hy with rfl | hy
        · exact hlt
        · exact hlt.trans (hxr y hy)
      refine ⟨c', b, u, _, _, hf.step (by simp [front]) hback, fun n hn => ?_⟩
      obtain ⟨m, hm, -, hs⟩ := hturn n hn
      rw [hs, if_neg (by omega), show sideOf (compar key x.2) = .left from if_pos hneg, he m hm]
    · refine ⟨c, a, _, [], [], ⟨.here c _, hc, ht, .inr ⟨x, l, r, rfl, heq.symm⟩,
        by simp, by simp⟩, fun n hn => ?_⟩
      obtain ⟨m, -, -, hs⟩ := hturn n hn
      rw [hs, if_pos ((ho.eq key x.2).2 heq)]
    · have hpos : ¬ compar key x.2 < 0 := fun hlt => hgt.not_gt ((ho.lt key x.2).1 hlt)
      have hne : compar key x.2 ≠ 0 := fun he => hgt.ne ((ho.eq key x.2).1 he).symm
      obtain ⟨c', b, u, pre, post, hf, he⟩ := ihr hra hr hsr
      have hfront : ∀ y ∈ front x l .right, rank y.2 < rank key := by
        intro y hy
        rcases List.mem_append.1 hy with hy | hy
        · exact (hlx y hy).trans hgt
        · rwa [List.mem_singleton.1 hy]
      refine ⟨c', b, u, _, _, hf.step hfront (by simp [back]), fun n hn => ?_⟩
      obtain ⟨m, -, hm, hs⟩ := hturn n hn
      rw [hs, if_neg hne, show sideOf (compar key x.2) = .right from if_neg hpos, he m hm]

/- What a search has passed and what is at its end. -/
theorem Found.mem (hf : Found rank h key c t c' b u pre post) (hx : x ∈ inorder t)
    (hk : rank x.2 = rank key) : x ∈ inorder u := by
  rw [hf.path.split, List.mem_append, List.mem_append] at hx
  rcases hx with (hx | hx) | hx
  · exact ((hf.before x hx).ne hk).elim
  · exact hx
  · exact ((hf.after x hx).ne hk.symm).elim

theorem searchLoop_link (hs : searchLoop compar h key n (.link a s) = some (c', b)) :
    ∃ y s', c' = .link y s' := by
  induction n generalizing a s with
  | zero => cases hs
  | succ n ih =>
    simp only [searchLoop, Option.bind_eq_bind, Option.bind_eq_some_iff] at hs
    obtain ⟨d, -, hs⟩ := hs
    split_ifs at hs with hd
    · exact ⟨a, s, by simpa using (Prod.mk.inj (Option.some.inj hs)).1.symm⟩
    · obtain ⟨node, -, hs⟩ := Option.bind_eq_some_iff.1 hs
      split_ifs at hs with hr
      · exact ⟨a, s, by simpa using (Prod.mk.inj (Option.some.inj hs)).1.symm⟩
      · exact ih hs

/- tdelete walks as tsearch does, and has the owner of the cell with it. -/
theorem deleteLoop_searchLoop (hs : searchLoop compar h key n c = some (c', b))
    (hc : h.read c = some a) (ha : a ≠ 0) (hp : c.owner.getD p = p) :
    deleteLoop compar h key n c p =
      some (if b = 0 then none else some (c', c'.owner.getD p)) := by
  induction n generalizing c a p with
  | zero => cases hs
  | succ n ih =>
    simp only [searchLoop, hc, Option.bind_eq_bind, Option.bind_some, if_neg ha] at hs
    obtain ⟨node, hn, hs⟩ := Option.bind_eq_some_iff.1 hs
    simp only [deleteLoop, hc, hn, Option.bind_eq_bind, Option.bind_some]
    by_cases hr : compar key node.key = 0
    · rw [if_pos hr] at hs ⊢
      obtain ⟨rfl, rfl⟩ := Prod.mk.inj (Option.some.inj hs)
      rw [if_neg ha, hp]
    · rw [if_neg hr] at hs ⊢
      obtain ⟨y, s', rfl⟩ := searchLoop_link hs
      have hread : h.read (.link a (sideOf (compar key node.key))) =
          some (node.link (sideOf (compar key node.key))) := by rw [Heap.read, hn]; rfl
      rw [hread, Option.bind_some]
      by_cases hd : node.link (sideOf (compar key node.key)) = 0
      · obtain _ | m := n
        · cases hs
        · simp only [searchLoop, hread, hd, Option.bind_eq_bind, Option.bind_some, if_pos] at hs
          rw [if_pos hd, ← (Prod.mk.inj (Option.some.inj hs)).2, if_pos rfl]
      · rw [if_neg hd, ih hs hread hd rfl]
        rfl

end search

end Svr32.Libc
