import Mathlib.Data.Finset.Card
import Svr32.Libgen.Insert

/-! Sequences of tinsert: what the tree has, and its balance. -/
namespace Svr32.Libgen
open Svr32.Lib Svr32.Lib.SearchTree BinaryTree
variable {α κ : Type} [LinearOrder κ] {key : α → κ} {compare : α → α → Int}
  (freed : α → α → Option Int) {d : α} {n : TNode α} {l r t : Tree α} {h h' : THead α}

/- The data that is not deleted. -/
def present (t : Tree α) : List α := ((faces t).filter fun f => !f.2).map Prod.fst

/-- The tree is ordered and balanced; height and number of nodes are recorded in 16 bits. -/
structure Inv (key : α → κ) (h : THead α) : Prop where
  avl : Avl h.head
  sorted : Sorted key h.head
  height : h.height = i16 h.head.height
  numnodes : h.numnodes = i16 (present h.head).length

theorem sorted_faces : Sorted key t ↔ (faces t).Pairwise fun f g => key f.1 < key g.1 := by
  rw [faces, List.pairwise_map]
  rfl

theorem i16_add (x y : Int) : i16 (i16 x + y) = i16 (x + y) := Int.bmod_add_bmod

/- The place that is left for the new data. -/
structure Gap (key : α → κ) (d : α) (fs gs : List (α × Bool)) : Prop where
  split : ∃ L R, fs = L ++ R ∧ gs = L ++ (d, false) :: R ∧ (∀ f ∈ L, key f.1 < key d) ∧
    ∀ f ∈ R, key d < key f.1

theorem Gap.sorted {fs gs : List (α × Bool)} (hg : Gap key d fs gs)
    (hs : fs.Pairwise fun f g => key f.1 < key g.1) : gs.Pairwise fun f g => key f.1 < key g.1 := by
  obtain ⟨L, R, rfl, rfl, hL, hR⟩ := hg
  obtain ⟨hl, hr, hlr⟩ := List.pairwise_append.1 hs
  refine List.pairwise_append.2 ⟨hl, List.pairwise_cons.2 ⟨hR, hr⟩, fun f hf g hg => ?_⟩
  rcases List.mem_cons.1 hg with rfl | hg
  · exact hL f hf
  · exact hlr f hf g hg

theorem Gap.present (hg : Gap key d (faces l) (faces r)) : (present r).Perm (d :: present l) := by
  obtain ⟨L, R, hl, hr, -, -⟩ := hg
  rw [Libgen.present, Libgen.present, hl, hr, List.filter_append, List.filter_append]
  simp only [List.filter_cons, Bool.not_false, if_true, List.map_append, List.map_cons]
  exact List.perm_middle

/-- A new key comes into its place in the order. -/
theorem tinsert_new (ho : Orders key compare) (hi : Inv key h) (hf : Fresh key d h.head)
    (hcl : Clear compare d h.head) : ∃ h', tinsert compare freed h d = some (h', true) ∧
      Inv key h' ∧ Gap key d (faces h.head) (faces h'.head) := by
  cases ht : h.head with
  | nil =>
    have hg : Gap key d (faces (.nil : Tree α)) (faces (mknode d)) :=
      ⟨[], [], rfl, rfl, by rintro _ ⟨⟩, by rintro _ ⟨⟩⟩
    refine ⟨⟨mknode d, 1, 1⟩, ?_, ⟨?_, ?_, by simp [mknode, i16_eq], by
      simp [Libgen.present, faces, mknode, inorder, i16_eq]⟩, hg⟩
    · rw [tinsert, ht]
    · simp [Avl, mknode]
    · exact sorted_faces.2 (hg.sorted List.Pairwise.nil)
  | node n l r =>
    obtain ⟨ha, hs, hh, hn⟩ := hi
    rw [ht] at hf hcl ha hs hh hn
    obtain ⟨p, a, z, hsearch, hadd, hcalm, hfocus⟩ :=
      search_spec freed ho hf hcl (by rintro ⟨⟩)
    obtain ⟨u, v, g, hadj, hact, hgrown⟩ : ∃ u v g,
        alter (adjustBalance compare freed d) z (graft compare d (.node n l r)) = some (u, true) ∧
        alter (balancingAct compare freed d) z u = some (v, g, true) ∧
        Grown compare d (.node n l r) v g := by
      by_cases hz : z = []
      · subst hz
        obtain ⟨u, v, g, hadj, hact, hg, -⟩ := act_spec freed ho hf hcl (hcalm rfl) ha
        exact ⟨u, v, g, hadj, hact, hg⟩
      · obtain ⟨u, v, hadj, hact, hg⟩ := focus_spec freed ho hf hcl (hfocus hz) ha
        exact ⟨u, v, 0, hadj, hact, hg⟩
    have hz : (if z = [] then [] else z) = z := by
      by_cases hz : z = [] <;> simp [hz]
    have hgap : Gap key d (faces (.node n l r)) (faces v) := by
      rw [hgrown.faces]
      exact ⟨graft_faces ho hs hf⟩
    refine ⟨⟨v, i16 (h.height + g), i16 (h.numnodes + 1)⟩, ?_, ⟨hgrown.avl, ?_, ?_, ?_⟩, hgap⟩
    · rw [tinsert, ht]
      simp only [hsearch, hz, Option.bind_eq_bind, Option.bind_some, addAt, ht, List.nil_append,
        hadd, hadj, hact, Bool.true_eq_false, if_false]
    · exact sorted_faces.2 (hgap.sorted (sorted_faces.1 hs))
    · simp only
      rw [hh, i16_add, hgrown.height]
    · simp only
      rw [hn, i16_add, hgap.present.length_eq]
      rfl

/- The node `m` is at the end of the path. -/
inductive Place (m : TNode α) : Tree α → List Side → Prop
  | here (x y : Tree α) : Place m (.node m x y) []
  | left {n : TNode α} {l r : Tree α} {p : List Side} : Place m l p →
      Place m (.node n l r) (.left :: p)
  | right {n : TNode α} {l r : Tree α} {p : List Side} : Place m r p →
      Place m (.node n l r) (.right :: p)

/-- A change of a node, apart from its balance factor, changes nothing else. -/
theorem Place.alter {β : Type} {m k : TNode α} {p : List Side}
    {f : Tree α → Option (Tree α × β)} {b : β} (hp : Place m t p)
    (hf : ∀ x y, f (.node m x y) = some (.node k x y, b))
    (hb : k.balance_factor = m.balance_factor) :
    ∃ u, SearchTree.alter f p t = some (u, b) ∧ u.height = t.height ∧ (Avl t → Avl u) ∧
      ∃ L R, inorder t = L ++ m :: R ∧ inorder u = L ++ k :: R := by
  induction hp with
  | here x y =>
    refine ⟨.node k x y, hf x y, rfl, fun ha => ?_, inorder x, inorder y, rfl, rfl⟩
    rw [Avl, hb]
    exact ha
  | @left n l r p _ ih =>
    obtain ⟨u, hu, hh, ha, L, R, hL, hR⟩ := ih
    refine ⟨.node n u r, by rw [SearchTree.alter, hu]; rfl, ?_, fun hn => ?_, L,
      R ++ n :: inorder r, ?_, ?_⟩
    · rw [BinaryTree.height, BinaryTree.height, hh]
    · obtain ⟨h₁, h₂, h₃, hl, hr⟩ := hn
      exact ⟨by rw [hh]; exact h₁, h₂, h₃, ha hl, hr⟩
    · rw [inorder, hL, List.append_assoc]
      rfl
    · rw [inorder, hR, List.append_assoc]
      rfl
  | @right n l r p _ ih =>
    obtain ⟨u, hu, hh, ha, L, R, hL, hR⟩ := ih
    refine ⟨.node n l u, by rw [SearchTree.alter, hu]; rfl, ?_, fun hn => ?_,
      inorder l ++ n :: L, R, ?_, ?_⟩
    · rw [BinaryTree.height, BinaryTree.height, hh]
    · obtain ⟨h₁, h₂, h₃, hl, hr⟩ := hn
      exact ⟨by rw [hh]; exact h₁, h₂, h₃, hl, ha hr⟩
    · rw [inorder, hL, List.append_assoc]
      rfl
    · rw [inorder, hR, List.append_assoc]
      rfl

theorem find_left {p : List Side} (hcl : Clear compare d (.node n l r))
    (hlt : compare d n.data < 0) : find compare freed d (.node n l r) p =
      if isNull l then some none else find compare freed d l (p ++ [.left]) := by
  rw [find, compare_clear freed hcl]
  simp [show ¬ compare d n.data = 0 by omega, show ¬ 0 < compare d n.data by omega]

theorem find_right {p : List Side} (hcl : Clear compare d (.node n l r))
    (hlt : 0 < compare d n.data) : find compare freed d (.node n l r) p =
      if isNull r then some none else find compare freed d r (p ++ [.right]) := by
  rw [find, compare_clear freed hcl]
  simp [show ¬ compare d n.data = 0 by omega, hlt]

theorem isNull_of_mem {m : TNode α} (h : m ∈ inorder t) : isNull t = false := by
  cases t with
  | nil => cases h
  | node n l r => rfl

/-- The search for a key that is there. -/
theorem search_found {m : TNode α} (ho : Orders key compare) (hs : Sorted key t)
    (hcl : Clear compare d t) (hm : m ∈ inorder t) (hk : nkey key m = key d) :
    ∃ p, (∀ p₀ s₀, search compare freed d t p₀ s₀ = some (.node (p₀ ++ p))) ∧
      (∀ p₀, find compare freed d t p₀ = some (some (p₀ ++ p))) ∧ Place m t p ∧
      m.deleted = false := by
  induction t with
  | nil => cases hm
  | node n l r ihl ihr =>
    obtain ⟨hsl, hsr, hln, hnr⟩ := ordered_node.1 hs
    rcases lt_trichotomy (key d) (nkey key n) with hlt | heq | hlt
    · have hneg := (ho.neg d n.data).2 hlt
      have hml := (hs.mem_left (hk.trans_lt hlt)).1 hm
      obtain ⟨p, hsearch, hfind, hp, hd⟩ := ihl hsl (hcl.2.1 hneg) hml
      refine ⟨.left :: p, fun p₀ s₀ => ?_, fun p₀ => ?_, hp.left, hd⟩
      · rw [search_left freed hcl hneg, isNull_of_mem hml, if_neg Bool.false_ne_true, hsearch,
          List.append_assoc]
        rfl
      · rw [find_left freed hcl hneg, isNull_of_mem hml, if_neg Bool.false_ne_true, hfind,
          List.append_assoc]
        rfl
    · have hnm : m = n := by
        rw [inorder] at hm
        rcases List.mem_append.1 hm with hm | hm
        · exact absurd (hk.trans heq) (hln m hm).ne
        · rcases List.mem_cons.1 hm with rfl | hm
          · rfl
          · exact absurd (hk.trans heq) (hnr m hm).ne'
      subst hnm
      have h0 : compare d m.data = 0 := ho.zero.2 heq
      refine ⟨[], fun p₀ s₀ => ?_, fun p₀ => ?_, .here l r, hcl.1⟩
      · rw [search, compare_clear freed hcl]
        simp [h0]
      · rw [find, compare_clear freed hcl]
        simp [h0]
    · have hpos := (ho.pos d n.data).2 hlt
      have hmr := (hs.mem_right (hlt.trans_eq hk.symm)).1 hm
      obtain ⟨p, hsearch, hfind, hp, hd⟩ := ihr hsr (hcl.2.2 hpos) hmr
      refine ⟨.right :: p, fun p₀ s₀ => ?_, fun p₀ => ?_, hp.right, hd⟩
      · rw [search_right freed hcl hpos, isNull_of_mem hmr, if_neg Bool.false_ne_true, hsearch,
          List.append_assoc]
        rfl
      · rw [find_right freed hcl hpos, isNull_of_mem hmr, if_neg Bool.false_ne_true, hfind,
          List.append_assoc]
        rfl

/-- A key that is there is not inserted again. -/
theorem tinsert_old {m : TNode α} (ho : Orders key compare) (hs : Sorted key h.head)
    (hcl : Clear compare d h.head) (hm : m ∈ inorder h.head) (hk : nkey key m = key d) :
    tinsert compare freed h d = some (h, false) := by
  obtain ⟨p, hsearch, -, hp, hd⟩ := search_found freed ho hs hcl hm hk
  obtain ⟨u, hu, -⟩ := hp.alter (f := revive d) (b := false) (k := m)
    (fun x y => by simp [revive, hd]) rfl
  rw [tinsert]
  cases ht : h.head with
  | nil =>
    rw [ht] at hm
    cases hm
  | node n l r =>
    rw [ht] at hsearch hu
    simp only [hsearch, Option.bind_eq_bind, Option.bind_some, reviveAt, ht, List.nil_append, hu,
      if_true]

/- tinsert of one after the other. -/
def tinserts (compare : α → α → Int) (freed : α → α → Option Int) :
    THead α → List α → Option (THead α)
  | h, [] => some h
  | h, d :: ds => do
    let (h, _) ← tinsert compare freed h d
    tinserts compare freed h ds

/- As tcreate makes it. -/
def tcreate : THead α := ⟨.nil, 0, 0⟩

/-- What the sequence of keys makes of the tree. -/
structure Holds (key : α → κ) (ks : List κ) (h : THead α) : Prop extends Inv key h where
  live : ∀ n ∈ inorder h.head, n.deleted = false
  keys : ∀ k, k ∈ (inorder h.head).map (nkey key) ↔ k ∈ ks

theorem clear_of_live (h : ∀ n ∈ inorder t, n.deleted = false) : Clear compare d t := by
  induction t with
  | nil => trivial
  | node n l r ihl ihr =>
    refine ⟨h n (by simp [inorder]), fun _ => ihl fun m hm => h m (by simp [inorder, hm]),
      fun _ => ihr fun m hm => h m (by simp [inorder, hm])⟩

theorem Holds.tinsert {ks : List κ} (ho : Orders key compare) (h₀ : Holds key ks h) (d : α) :
    ∃ h' ok, tinsert compare freed h d = some (h', ok) ∧ Holds key (key d :: ks) h' := by
  have hcl : Clear compare d h.head := clear_of_live h₀.live
  by_cases hd : key d ∈ (inorder h.head).map (nkey key)
  · obtain ⟨m, hm, hk⟩ := List.mem_map.1 hd
    refine ⟨h, false, tinsert_old freed ho h₀.sorted hcl hm hk, h₀.toInv, h₀.live, fun k => ?_⟩
    rw [List.mem_cons, h₀.keys]
    constructor
    · exact Or.inr
    · rintro (rfl | hks)
      · exact (h₀.keys _).1 hd
      · exact hks
  · have hf : Fresh key d h.head := fun m hm hk => hd (List.mem_map.2 ⟨m, hm, hk⟩)
    obtain ⟨h', hins, hinv, L, R, hl, hr, -, -⟩ := tinsert_new freed ho h₀.toInv hf hcl
    have hmem : ∀ f, f ∈ faces h'.head ↔ f = (d, false) ∨ f ∈ faces h.head := by
      intro f
      rw [hl, hr]
      simp only [List.mem_append, List.mem_cons]
      tauto
    refine ⟨h', true, hins, hinv, fun n hn => ?_, fun k => ?_⟩
    · rcases (hmem (n.data, n.deleted)).1 (List.mem_map.2 ⟨n, hn, rfl⟩) with he | hm
      · exact congrArg Prod.snd he
      · obtain ⟨m, hm, he⟩ := List.mem_map.1 hm
        have hdel : m.deleted = n.deleted := congrArg Prod.snd he
        exact hdel ▸ h₀.live m hm
    · have hkeys : ∀ t : Tree α, (inorder t).map (nkey key) = (faces t).map fun f => key f.1 := by
        intro t
        rw [faces, List.map_map]
        rfl
      have h₀k := h₀.keys k
      rw [hkeys] at h₀k ⊢
      simp only [List.mem_map, hmem, List.mem_cons] at h₀k ⊢
      rw [← h₀k]
      constructor
      · rintro ⟨f, rfl | hf, rfl⟩
        · exact Or.inl rfl
        · exact Or.inr ⟨f, hf, rfl⟩
      · rintro (rfl | ⟨f, hf, rfl⟩)
        · exact ⟨_, Or.inl rfl, rfl⟩
        · exact ⟨f, Or.inr hf, rfl⟩

theorem Holds.tinserts {ks : List κ} (ho : Orders key compare) (h₀ : Holds key ks h)
    (ds : List α) : ∃ h', Libgen.tinserts compare freed h ds = some h' ∧
      Holds key ((ds.map key).reverse ++ ks) h' := by
  induction ds generalizing h ks with
  | nil => exact ⟨h, rfl, h₀⟩
  | cons d ds ih =>
    obtain ⟨h', ok, hins, hh⟩ := h₀.tinsert freed ho d
    obtain ⟨u, hu, hk⟩ := ih hh
    refine ⟨u, ?_, ?_⟩
    · rw [Libgen.tinserts, hins]
      exact hu
    · rw [List.map_cons, List.reverse_cons, List.append_assoc]
      exact hk

theorem holds_tcreate : Holds key [] (tcreate : THead α) where
  avl := trivial
  sorted := List.Pairwise.nil
  height := by simp [tcreate, i16_eq]
  numnodes := by simp [tcreate, Libgen.present, faces, inorder, i16_eq]
  live := fun _ hn => (nomatch hn)
  keys := fun _ => ⟨fun hk => (nomatch hk), fun hk => (nomatch hk)⟩

/-- What the tree should be after keys have been inserted. -/
structure Right (key : α → κ) (ds : List α) (h : THead α) : Prop where
  sorted : Sorted key h.head
  keys : ∀ k, k ∈ (inorder h.head).map (nkey key) ↔ k ∈ ds.map key
  avl : Avl h.head
  height : h.height = h.head.height
  numnodes : h.numnodes = (inorder h.head).length

theorem height_le (t : Tree α) : t.height ≤ (inorder t).length := by
  induction t with
  | nil => exact Nat.le_refl 0
  | node n l r ihl ihr =>
    rw [BinaryTree.height, inorder, List.length_append, List.length_cons]
    omega

/- The nodes are as many as the keys. -/
theorem Holds.card {ks : List κ} (h₀ : Holds key ks h) :
    (inorder h.head).length = ks.toFinset.card := by
  have hnodup : ((inorder h.head).map (nkey key)).Nodup :=
    (List.pairwise_map.2 h₀.sorted).imp fun hlt => hlt.ne
  rw [← List.length_map (nkey key), ← List.toFinset_card_of_nodup hnodup]
  congr 1
  ext k
  rw [List.mem_toFinset, List.mem_toFinset, h₀.keys]

theorem Holds.count {ks : List κ} (h₀ : Holds key ks h) :
    h.numnodes = i16 (inorder h.head).length := by
  rw [h₀.numnodes, present, List.filter_eq_self.2, List.length_map, faces, List.length_map]
  intro f hf
  obtain ⟨n, hn, rfl⟩ := List.mem_map.1 hf
  rw [h₀.live n hn]
  rfl

/-- A sequence of insertions makes the tree that it should, as long as the keys can be counted in
16 bits. -/
theorem tinserts_right_iff (ho : Orders key compare) (ds : List α) :
    ∃ h, tinserts compare freed tcreate ds = some h ∧
      (Right key ds h ↔ (ds.map key).toFinset.card < 2 ^ 15) := by
  obtain ⟨h, hins, hh⟩ := (@holds_tcreate α κ _ key).tinserts freed ho ds
  rw [List.append_nil] at hh
  have hkeys : ∀ k, k ∈ (inorder h.head).map (nkey key) ↔ k ∈ ds.map key := fun k => by
    rw [hh.keys, List.mem_reverse]
  have hcard := hh.card
  rw [List.toFinset_reverse] at hcard
  refine ⟨h, hins, ⟨fun hr => ?_, fun hlt => ?_⟩⟩
  · have hn := hr.numnodes
    have hrange := i16_range (inorder h.head).length
    rw [← hh.count] at hrange
    omega
  · have hle := height_le h.head
    refine ⟨hh.sorted, hkeys, hh.avl, ?_, ?_⟩
    · rw [hh.height]
      exact i16_eq (by omega) (by omega)
    · rw [hh.count]
      exact i16_eq (by omega) (by omega)

/- Integers in their own order. -/
theorem orders_sub : Orders (id : Int → Int) fun a b => a - b where
  neg := fun a b => by
    simp only [id]
    omega
  pos := fun a b => by
    simp only [id]
    omega

theorem tinserts_right_three : ∃ h, tinserts (fun a b : Int => a - b) (fun _ _ => none) tcreate
    [3, 1, 2] = some h ∧ (Right id [3, 1, 2] h ↔ (([3, 1, 2] : List Int).map id).toFinset.card <
      2 ^ 15) :=
  tinserts_right_iff (fun _ _ => none) orders_sub [3, 1, 2]

/-- After 32768 insertions the count is negative. -/
theorem count_not_right : ∃ h, tinserts (fun a b : Int => a - b) (fun _ _ => none) tcreate
    ((List.range 32768).map Int.ofNat) = some h ∧ h.numnodes = -32768 ∧
      ¬ Right id ((List.range 32768).map Int.ofNat) h := by
  obtain ⟨ds, hds⟩ : ∃ ds, ds = (List.range 32768).map Int.ofNat := ⟨_, rfl⟩
  obtain ⟨h, hins, hh⟩ := (@holds_tcreate Int Int _ id).tinserts
    (fun _ _ => none) orders_sub ds
  have hnodup : ds.Nodup := hds ▸ List.Nodup.map (fun _ _ he => Int.ofNat.inj he) List.nodup_range
  have hlen : (inorder h.head).length = 32768 := by
    rw [hh.card, List.append_nil, List.toFinset_reverse, List.map_id,
      List.toFinset_card_of_nodup hnodup, hds, List.length_map, List.length_range]
  have hcount : h.numnodes = -32768 := by
    rw [hh.count, hlen]
    decide
  rw [← hds]
  refine ⟨h, hins, hcount, fun hr => ?_⟩
  have hn := hr.numnodes
  omega

end Svr32.Libgen
