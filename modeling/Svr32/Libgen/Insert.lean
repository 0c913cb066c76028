import Mathlib.Order.Basic
import Svr32.Libgen.Tree

/-! tinsert of a key that is not there: the search, and the way back from the new node. -/
namespace Svr32.Libgen
open Svr32.Lib Svr32.Lib.SearchTree BinaryTree
variable {α κ : Type} [LinearOrder κ] {key : α → κ} {compare : α → α → Int}
  (freed : α → α → Option Int) {d : α} {n : TNode α} {l r t : Tree α}

/-- The comparison of the user is that of the keys. -/
structure Orders (key : α → κ) (compare : α → α → Int) : Prop where
  neg : ∀ a b, compare a b < 0 ↔ key a < key b
  pos : ∀ a b, 0 < compare a b ↔ key b < key a

theorem Orders.zero (h : Orders key compare) {a b : α} : compare a b = 0 ↔ key a = key b := by
  have hneg := h.neg a b
  have hpos := h.pos a b
  constructor
  · intro h0
    exact le_antisymm (not_lt.1 fun hlt => by have := hpos.2 hlt; omega)
      (not_lt.1 fun hlt => by have := hneg.2 hlt; omega)
  · intro he
    have h₁ : ¬ compare a b < 0 := fun hlt => (he ▸ hneg.1 hlt).ne rfl
    have h₂ : ¬ 0 < compare a b := fun hlt => (he ▸ hpos.1 hlt).ne rfl
    omega

def nkey (key : α → κ) (n : TNode α) : κ := key n.data

/- The keys of the nodes grow from left to right, those of deleted nodes included. -/
def Sorted (key : α → κ) (t : Tree α) : Prop := Ordered (nkey key) t

def Fresh (key : α → κ) (d : α) (t : Tree α) : Prop := ∀ n ∈ inorder t, nkey key n ≠ key d

/-- The nodes that the search for `d` meets are not deleted. -/
def Clear (compare : α → α → Int) (d : α) : Tree α → Prop
  | .nil => True
  | .node n l r => n.deleted = false ∧ (compare d n.data < 0 → Clear compare d l) ∧
      (0 < compare d n.data → Clear compare d r)

/- The balance factors that it meets are zero. -/
def Calm (compare : α → α → Int) (d : α) : Tree α → Prop
  | .nil => True
  | .node n l r => n.balance_factor = 0 ∧ (compare d n.data < 0 → Calm compare d l) ∧
      (0 < compare d n.data → Calm compare d r)

/- All but the first are zero. -/
def CalmBelow (compare : α → α → Int) (d : α) : Tree α → Prop
  | .nil => False
  | .node n l r => (compare d n.data < 0 → Calm compare d l) ∧
      (0 < compare d n.data → Calm compare d r)

/- The path leads to the last balance factor that is not zero. -/
def Focus (compare : α → α → Int) (d : α) : Tree α → List Side → Prop
  | .nil, _ => False
  | .node n l r, [] => n.balance_factor ≠ 0 ∧ CalmBelow compare d (.node n l r)
  | .node n l _, .left :: s => compare d n.data < 0 ∧ Focus compare d l s
  | .node n _ r, .right :: s => 0 < compare d n.data ∧ Focus compare d r s

/- The tree with the new node where the search for it ends. -/
def graft (compare : α → α → Int) (d : α) : Tree α → Tree α
  | .nil => mknode d
  | .node n l r =>
    if compare d n.data < 0 then .node n (graft compare d l) r
    else if 0 < compare d n.data then .node n l (graft compare d r)
    else .node n l r

theorem Fresh.sides (ho : Orders key compare) (h : Fresh key d (.node n l r)) :
    Fresh key d l ∧ Fresh key d r ∧ (compare d n.data < 0 ∨ 0 < compare d n.data) := by
  have hn : nkey key n ≠ key d := h n (by rw [inorder]; simp)
  refine ⟨fun m hm => h m (by rw [inorder]; simp [hm]), fun m hm => h m (by rw [inorder]; simp [hm]),
    ?_⟩
  have h0 : ¬ compare d n.data = 0 := fun h0 => hn (ho.zero.1 h0).symm
  omega

theorem compare_clear (h : Clear compare d (.node n l r)) :
    COMPARE compare freed d (.node n l r) = some (compare d n.data) := by
  rw [COMPARE, h.1]
  rfl

theorem graft_left (h : compare d n.data < 0) :
    graft compare d (.node n l r) = .node n (graft compare d l) r := by
  rw [graft, if_pos h]

theorem graft_right (h : 0 < compare d n.data) :
    graft compare d (.node n l r) = .node n l (graft compare d r) := by
  rw [graft, if_neg (by omega), if_pos h]

/-- The new node is in its place. -/
theorem graft_faces (ho : Orders key compare) (hs : Sorted key t) (hf : Fresh key d t) :
    ∃ L R, faces t = L ++ R ∧ faces (graft compare d t) = L ++ (d, false) :: R ∧
      (∀ f ∈ L, key f.1 < key d) ∧ ∀ f ∈ R, key d < key f.1 := by
  induction t with
  | nil => exact ⟨[], [], rfl, rfl, fun _ hm => (nomatch hm), fun _ hm => (nomatch hm)⟩
  | node n l r ihl ihr =>
    obtain ⟨hfl, hfr, hlt | hlt⟩ := hf.sides ho
    all_goals
      obtain ⟨hsl, hsr, hln, hnr⟩ := ordered_node.1 hs
    · obtain ⟨L, R, he, hg, hL, hR⟩ := ihl hsl hfl
      refine ⟨L, R ++ (n.data, n.deleted) :: faces r, ?_, ?_, hL, fun f hm => ?_⟩
      · rw [faces_node, he, List.append_assoc]
      · rw [graft_left hlt, faces_node, hg, List.append_assoc]
        rfl
      · have hdn := (ho.neg d n.data).1 hlt
        rcases List.mem_append.1 hm with hm | hm
        · exact hR f hm
        · rcases List.mem_cons.1 hm with rfl | hm
          · exact hdn
          · obtain ⟨m, hmr, rfl⟩ := List.mem_map.1 hm
            exact lt_trans hdn (hnr m hmr)
    · obtain ⟨L, R, he, hg, hL, hR⟩ := ihr hsr hfr
      refine ⟨faces l ++ (n.data, n.deleted) :: L, R, ?_, ?_, fun f hm => ?_, hR⟩
      · rw [faces_node, he, List.append_assoc]
        rfl
      · rw [graft_right hlt, faces_node, hg, List.append_assoc]
        rfl
      · have hdn := (ho.pos d n.data).1 hlt
        rcases List.mem_append.1 hm with hm | hm
        · obtain ⟨m, hml, rfl⟩ := List.mem_map.1 hm
          exact lt_trans (hln m hml) hdn
        · rcases List.mem_cons.1 hm with rfl | hm
          · exact hdn
          · exact hL f hm

/-- The loop of adjust_balance, where all balance factors are zero: the tree is one higher. -/
theorem walk_spec (ho : Orders key compare) (hf : Fresh key d t) (hcl : Clear compare d t)
    (hc : Calm compare d t) (ha : Avl t) :
    ∃ u, walk compare freed d (graft compare d t) = some u ∧ Avl u ∧ u.height = t.height + 1 ∧
      faces u = faces (graft compare d t) ∧ (t ≠ .nil → balance u ≠ some 0) := by
  induction t with
  | nil =>
    have h0 : compare d d = 0 := ho.zero.2 rfl
    refine ⟨mknode d, ?_, by simp [Avl, mknode], rfl, rfl, fun h => (h rfl).elim⟩
    simp [graft, walk, mknode, COMPARE, h0]
  | node n l r ihl ihr =>
    obtain ⟨hb, hb₁, hb₂, hal, har⟩ := ha
    obtain ⟨hc0, hcl', hcr⟩ := hc
    have hcmp : ∀ l' r', COMPARE compare freed d (.node n l' r') = some (compare d n.data) :=
      fun l' r' => by rw [COMPARE, hcl.1]; rfl
    obtain ⟨hfl, hfr, hlt | hlt⟩ := hf.sides ho
    · obtain ⟨u, hw, hu, hh, hfu, -⟩ := ihl hfl (hcl.2.1 hlt) (hcl' hlt) hal
      refine ⟨.node { n with balance_factor := -1 } u r, ?_, ?_, ?_, ?_, fun _ => by simp [balance]⟩
      · rw [graft_left hlt, walk, hcmp]
        simp [hw, hlt, show ¬ compare d n.data = 0 by omega]
      · exact ⟨by simp only; omega, by simp, by simp, hu, har⟩
      · simp only [height]
        omega
      · rw [graft_left hlt, faces_node, faces_node, hfu]
    · obtain ⟨u, hw, hu, hh, hfu, -⟩ := ihr hfr (hcl.2.2 hlt) (hcr hlt) har
      refine ⟨.node { n with balance_factor := 1 } l u, ?_, ?_, ?_, ?_, fun _ => by simp [balance]⟩
      · rw [graft_right hlt, walk, hcmp]
        simp [hw, show ¬ compare d n.data < 0 by omega, show ¬ compare d n.data = 0 by omega]
      · exact ⟨by simp only; omega, by simp, by simp, hal, hu⟩
      · simp only [height]
        omega
      · rw [graft_right hlt, faces_node, faces_node, hfu]

/- What the insertion makes of the tree `t`: it is `g` higher. -/
structure Grown (compare : α → α → Int) (d : α) (t u : Tree α) (g : Int) : Prop where
  avl : Avl u
  height : (u.height : Int) = t.height + g
  faces : faces u = faces (graft compare d t)

theorem side_of {i : Int} : (i < 0 → side i = .left) ∧ (0 < i → side i = .right) := by
  constructor
  · exact fun h => if_pos h
  · exact fun h => if_neg (by omega)

/- The child that the search goes to. -/
theorem graft_link (hlt : compare d n.data ≠ 0) :
    graft compare d (.node n l r) = setLink (side (compare d n.data)) (.node n l r)
      (graft compare d (link (side (compare d n.data)) (.node n l r))) := by
  rcases Int.lt_or_gt_of_ne hlt with h | h
  · rw [graft_left h, side_of.1 h]
    rfl
  · rw [graft_right h, side_of.2 h]
    rfl

theorem Fresh.link (ho : Orders key compare) (h : Fresh key d (.node n l r)) (a : Side) :
    Fresh key d (link a (.node n l r)) := by
  obtain ⟨hl, hr, -⟩ := h.sides ho
  cases a
  · exact hl
  · exact hr

theorem Clear.link (h : Clear compare d (.node n l r)) (hlt : compare d n.data ≠ 0) :
    Clear compare d (link (side (compare d n.data)) (.node n l r)) := by
  rcases Int.lt_or_gt_of_ne hlt with hneg | hpos
  · rw [side_of.1 hneg]
    exact h.2.1 hneg
  · rw [side_of.2 hpos]
    exact h.2.2 hpos

theorem CalmBelow.link (h : CalmBelow compare d (.node n l r)) (hlt : compare d n.data ≠ 0) :
    Calm compare d (link (side (compare d n.data)) (.node n l r)) := by
  rcases Int.lt_or_gt_of_ne hlt with hneg | hpos
  · rw [side_of.1 hneg]
    exact h.1 hneg
  · rw [side_of.2 hpos]
    exact h.2 hpos

theorem faces_join {a : Side} {t t' u : Tree α} (h : faces t' = faces t) (b : Int) :
    faces (join a { n with balance_factor := b } t' u) = faces (join a n t u) := by
  cases a <;> simp only [join, faces_node, h]

/-- adjust_balance and balancing_act at the place for re-balancing. -/
theorem act_spec (ho : Orders key compare) (hf : Fresh key d (.node n l r))
    (hcl : Clear compare d (.node n l r)) (hc : CalmBelow compare d (.node n l r))
    (ha : Avl (.node n l r)) :
    ∃ u v g, adjustBalance compare freed d (graft compare d (.node n l r)) = some (u, true) ∧
      balancingAct compare freed d u = some (v, g, true) ∧
      Grown compare d (.node n l r) v g ∧ g = if n.balance_factor = 0 then 1 else 0 := by
  have hlt : compare d n.data ≠ 0 := by
    obtain ⟨-, -, h | h⟩ := hf.sides ho <;> omega
  obtain ⟨w, hw, hwa, hwh, hwf, hwb⟩ := walk_spec freed ho
    (hf.link ho (side (compare d n.data))) (hcl.link hlt) (hc.link hlt) (by
      generalize side (compare d n.data) = a
      cases a
      · exact ha.2.2.2.1
      · exact ha.2.2.2.2)
  rw [graft_link hlt]
  obtain ⟨a, hside⟩ : ∃ a, a = side (compare d n.data) := ⟨_, rfl⟩
  rw [← hside] at hw hwh hwf hwb ⊢
  have hjoin := join_eta a n l r
  have hgraft := graft_link (l := l) (r := r) hlt
  rw [← hside] at hgraft
  rw [hjoin] at ha hgraft ⊢
  generalize link a (.node n l r) = c at *
  generalize link a.opp (.node n l r) = o at *
  simp only [link_join, setLink_join] at hgraft ⊢
  obtain ⟨hb, hb₁, hb₂, hca, hoa⟩ := avl_join.1 ha
  have hcmp : ∀ x y, COMPARE compare freed d (join a n x y) = some (compare d n.data) := by
    intro x y
    cases a <;> simp [join, COMPARE, hcl.1]
  have hadj : adjustBalance compare freed d (join a n (graft compare d c) o) =
      some (join a n w o, true) := by
    simp [adjustBalance, hcmp, hlt, ← hside, hw]
  have hfaces : faces (join a n w o) = faces (join a n (graft compare d c) o) :=
    faces_join hwf n.balance_factor
  have hact : balancingAct compare freed d (join a n w o) =
      if n.balance_factor = 0 then some (join a { n with balance_factor := a.sign } w o, 1, true)
      else if n.balance_factor = -a.sign then
        some (join a { n with balance_factor := 0 } w o, 0, true)
      else if n.balance_factor = a.sign then
        (rotate a (join a n w o)).map fun u => (u.1, 0, u.2)
      else some (join a n w o, 0, false) := by
    simp [balancingAct, hcmp, hlt, ← hside]
  have hs := sign_cases a
  rw [← hgraft] at hfaces
  have hold : (join a n c o).height = max c.height o.height + 1 := height_join a n c o
  by_cases h0 : n.balance_factor = 0
  · -- the tree has grown higher
    rw [if_pos h0] at hact
    refine ⟨_, _, 1, hadj, hact, ⟨?_, ?_, ?_⟩, by rw [if_pos h0]⟩
    · rw [avl_join]
      rcases hs with hs | hs <;> rw [hs] at hb ⊢ <;>
        exact ⟨by simp only; omega, by simp, by simp, hwa, hoa⟩
    · rw [height_join, height_join]
      rcases hs with hs | hs <;> rw [hs] at hb <;> omega
    · rw [← hfaces]
      exact faces_join rfl a.sign
  by_cases h1 : n.balance_factor = -a.sign
  · -- it has become more balanced
    rw [if_neg h0, if_pos h1] at hact
    refine ⟨_, _, 0, hadj, hact, ⟨?_, ?_, ?_⟩, by rw [if_neg h0]⟩
    · rw [avl_join]
      rcases hs with hs | hs <;> rw [hs] at hb h1 ⊢ <;>
        exact ⟨by simp only; omega, by simp, by simp, hwa, hoa⟩
    · rw [height_join, height_join]
      rcases hs with hs | hs <;> rw [hs] at hb h1 <;> omega
    · rw [← hfaces]
      exact faces_join rfl 0
  · -- it has gotten out of balance
    have h2 : n.balance_factor = a.sign := by omega
    rw [if_neg h0, if_neg h1, if_pos h2] at hact
    have hco : c.height = o.height + 1 := by
      rcases hs with hs | hs <;> rw [hs] at hb h2 <;> omega
    have hcn : c ≠ .nil := by
      rintro rfl
      rw [height] at hco
      omega
    have htilt : Tilted a (join a n w o) := by
      rw [Tilted, link_join, link_opp_join]
      exact ⟨hwa, hoa, by omega, hwb hcn⟩
    obtain ⟨v, hrot, hva, hvh, hvf⟩ := rotate_spec htilt
    rw [hrot] at hact
    rw [link_join] at hvh
    refine ⟨_, v, 0, hadj, hact, ⟨hva, ?_, hvf.trans hfaces⟩, by rw [if_neg h0]⟩
    omega

end Svr32.Libgen

/-! tinsert: the search for the link, the new node, and the re-balancing at the remembered place. -/
namespace Svr32.Libgen
open Svr32.Lib Svr32.Lib.SearchTree BinaryTree
variable {α κ : Type} [LinearOrder κ] {key : α → κ} {compare : α → α → Int}
  (freed : α → α → Option Int) {d : α} {n : TNode α} {l r t : Tree α}

theorem Grown.left (hu : Grown compare d l t 0) (hlt : compare d n.data < 0)
    (ha : Avl (.node n l r)) : Grown compare d (.node n l r) (.node n t r) 0 := by
  obtain ⟨hb, hb₁, hb₂, hl, hr⟩ := ha
  obtain ⟨hta, hth, htf⟩ := hu
  refine ⟨⟨by omega, hb₁, hb₂, hta, hr⟩, ?_, ?_⟩
  · simp only [BinaryTree.height]
    omega
  · rw [graft_left hlt, faces_node, faces_node, htf]

theorem Grown.right (hu : Grown compare d r t 0) (hlt : 0 < compare d n.data)
    (ha : Avl (.node n l r)) : Grown compare d (.node n l r) (.node n l t) 0 := by
  obtain ⟨hb, hb₁, hb₂, hl, hr⟩ := ha
  obtain ⟨hta, hth, htf⟩ := hu
  refine ⟨⟨by omega, hb₁, hb₂, hl, hta⟩, ?_, ?_⟩
  · simp only [BinaryTree.height]
    omega
  · rw [graft_right hlt, faces_node, faces_node, htf]

/-- Re-balancing at the last balance factor that is not zero leaves the height as it was. -/
theorem focus_spec {s : List Side} (ho : Orders key compare) (hf : Fresh key d t)
    (hcl : Clear compare d t) (hfocus : Focus compare d t s) (ha : Avl t) :
    ∃ u v, alter (adjustBalance compare freed d) s (graft compare d t) = some (u, true) ∧
      alter (balancingAct compare freed d) s u = some (v, 0, true) ∧ Grown compare d t v 0 := by
  induction t generalizing s with
  | nil => exact hfocus.elim
  | node n l r ihl ihr =>
    obtain ⟨hfl, hfr, -⟩ := hf.sides ho
    cases s with
    | nil =>
      obtain ⟨hb, hc⟩ := hfocus
      obtain ⟨u, v, g, hadj, hact, hg, hg0⟩ := act_spec freed ho hf hcl hc ha
      rw [if_neg hb] at hg0
      subst hg0
      exact ⟨u, v, hadj, hact, hg⟩
    | cons a s =>
      cases a with
      | left =>
        obtain ⟨hlt, hfocus⟩ := hfocus
        obtain ⟨u, v, hu, hv, hg⟩ := ihl hfl (hcl.2.1 hlt) hfocus ha.2.2.2.1
        refine ⟨.node n u r, .node n v r, ?_, ?_, hg.left hlt ha⟩
        · rw [graft_left hlt, alter, hu]
          rfl
        · rw [alter, hv]
          rfl
      | right =>
        obtain ⟨hlt, hfocus⟩ := hfocus
        obtain ⟨u, v, hu, hv, hg⟩ := ihr hfr (hcl.2.2 hlt) hfocus ha.2.2.2.2
        refine ⟨.node n l u, .node n l v, ?_, ?_, hg.right hlt ha⟩
        · rw [graft_right hlt, alter, hu]
          rfl
        · rw [alter, hv]
          rfl

theorem isNull_iff : isNull t = true ↔ t = .nil := by
  cases t <;> simp [isNull]

/- One step of the search. -/
theorem search_left {p s : List Side} (hcl : Clear compare d (.node n l r))
    (hlt : compare d n.data < 0) : search compare freed d (.node n l r) p s =
      if isNull l then some (.leaf p .left s)
      else search compare freed d l (p ++ [.left]) (bookkeep l (p ++ [.left]) s) := by
  rw [search, compare_clear freed hcl]
  simp [show ¬ compare d n.data = 0 by omega, show ¬ 0 < compare d n.data by omega]

theorem search_right {p s : List Side} (hcl : Clear compare d (.node n l r))
    (hlt : 0 < compare d n.data) : search compare freed d (.node n l r) p s =
      if isNull r then some (.leaf p .right s)
      else search compare freed d r (p ++ [.right]) (bookkeep r (p ++ [.right]) s) := by
  rw [search, compare_clear freed hcl]
  simp [show ¬ compare d n.data = 0 by omega, hlt]

/- Where the search in `t` ends, if it begins with the place `s₀`: `z` is the way to the last
balance factor below the first node that is not zero, if there is one. -/
structure Lands (compare : α → α → Int) (freed : α → α → Option Int) (d : α) (t : Tree α)
    (p : List Side) (a : Side) (z : List Side) : Prop where
  search : ∀ p₀ s₀, search compare freed d t p₀ s₀ =
    some (.leaf (p₀ ++ p) a (if z = [] then s₀ else p₀ ++ z))
  add : alter (addNode d a) p t = some (graft compare d t, ())
  calm : z = [] → CalmBelow compare d t
  focus : z ≠ [] → Focus compare d t z

theorem bookkeep_eq (n : TNode α) (l r : Tree α) (pq s : List Side) :
    bookkeep (.node n l r) pq s = if n.balance_factor = 0 then s else pq := by
  rw [bookkeep, balance]
  simp only [Option.some.injEq]

/- The place, as seen from the node above. -/
def above (b : Int) (a : Side) (z : List Side) : List Side :=
  if z = [] then (if b = 0 then [] else [a]) else a :: z

theorem bookkeep_above (m : TNode α) (x y : Tree α) (a : Side) (p₀ s₀ z : List Side) :
    (if z = [] then bookkeep (.node m x y) (p₀ ++ [a]) s₀ else p₀ ++ [a] ++ z) =
      if above m.balance_factor a z = [] then s₀ else p₀ ++ above m.balance_factor a z := by
  rw [bookkeep_eq, above]
  by_cases hz : z = [] <;> by_cases hm : m.balance_factor = 0 <;> simp [hz, hm]

section above
variable {m : TNode α} {x y : Tree α} {p z : List Side} {a : Side}

theorem Lands.left (h : Lands compare freed d (.node m x y) p a z)
    (hcl : Clear compare d (.node n (.node m x y) r)) (hlt : compare d n.data < 0) :
    Lands compare freed d (.node n (.node m x y) r) (.left :: p) a
      (above m.balance_factor .left z) := by
  refine ⟨fun p₀ s₀ => ?_, ?_, fun hz => ?_, fun hz => ?_⟩
  · rw [search_left freed hcl hlt, isNull, if_neg Bool.false_ne_true, h.search, bookkeep_above,
      List.append_assoc]
    rfl
  · rw [alter, h.add, graft_left hlt]
    rfl
  · have hz0 : z = [] ∧ m.balance_factor = 0 := by
      by_cases hz0 : z = [] <;> by_cases hm : m.balance_factor = 0 <;> simp [above, hz0, hm] at hz ⊢
    exact ⟨fun _ => ⟨hz0.2, h.calm hz0.1⟩, fun hp => by omega⟩
  · by_cases hz0 : z = []
    · have hm : m.balance_factor ≠ 0 := fun hm => hz (by simp [above, hz0, hm])
      rw [above, if_pos hz0, if_neg hm]
      exact ⟨hlt, hm, h.calm hz0⟩
    · rw [above, if_neg hz0]
      exact ⟨hlt, h.focus hz0⟩

theorem Lands.right (h : Lands compare freed d (.node m x y) p a z)
    (hcl : Clear compare d (.node n l (.node m x y))) (hlt : 0 < compare d n.data) :
    Lands compare freed d (.node n l (.node m x y)) (.right :: p) a
      (above m.balance_factor .right z) := by
  refine ⟨fun p₀ s₀ => ?_, ?_, fun hz => ?_, fun hz => ?_⟩
  · rw [search_right freed hcl hlt, isNull, if_neg Bool.false_ne_true, h.search, bookkeep_above,
      List.append_assoc]
    rfl
  · rw [alter, h.add, graft_right hlt]
    rfl
  · have hz0 : z = [] ∧ m.balance_factor = 0 := by
      by_cases hz0 : z = [] <;> by_cases hm : m.balance_factor = 0 <;> simp [above, hz0, hm] at hz ⊢
    exact ⟨fun hp => by omega, fun _ => ⟨hz0.2, h.calm hz0.1⟩⟩
  · by_cases hz0 : z = []
    · have hm : m.balance_factor ≠ 0 := fun hm => hz (by simp [above, hz0, hm])
      rw [above, if_pos hz0, if_neg hm]
      exact ⟨hlt, hm, h.calm hz0⟩
    · rw [above, if_neg hz0]
      exact ⟨hlt, h.focus hz0⟩

end above

theorem search_spec (ho : Orders key compare) (hf : Fresh key d t) (hcl : Clear compare d t)
    (ht : t ≠ .nil) : ∃ p a z, Lands compare freed d t p a z := by
  induction t with
  | nil => exact (ht rfl).elim
  | node n l r ihl ihr =>
    obtain ⟨hfl, hfr, hlt | hlt⟩ := hf.sides ho
    · cases l with
      | nil =>
        refine ⟨[], .left, [], fun p₀ s₀ => ?_, ?_, fun _ => ?_, fun h => (h rfl).elim⟩
        · rw [search_left freed hcl hlt, List.append_nil, if_pos rfl]
          rfl
        · rw [graft_left hlt]
          rfl
        · exact ⟨fun _ => trivial, fun h => by omega⟩
      | node m x y =>
        obtain ⟨p, a, z, hz⟩ := ihl hfl (hcl.2.1 hlt) nofun
        exact ⟨_, _, _, hz.left freed hcl hlt⟩
    · cases r with
      | nil =>
        refine ⟨[], .right, [], fun p₀ s₀ => ?_, ?_, fun _ => ?_, fun h => (h rfl).elim⟩
        · rw [search_right freed hcl hlt, List.append_nil, if_pos rfl]
          rfl
        · rw [graft_right hlt]
          rfl
        · exact ⟨fun h => by omega, fun _ => trivial⟩
      | node m x y =>
        obtain ⟨p, a, z, hz⟩ := ihr hfr (hcl.2.2 hlt) nofun
        exact ⟨_, _, _, hz.right freed hcl hlt⟩

end Svr32.Libgen
