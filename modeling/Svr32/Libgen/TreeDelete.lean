import Mathlib.Logic.Function.Basic
import Svr32.Libgen.TreeRun

/-! tdelete leaves the node in the tree, with the data that it frees. -/
namespace Svr32.Libgen
open Svr32.Lib Svr32.Lib.SearchTree BinaryTree
variable {α κ : Type} [LinearOrder κ] {key : α → κ} {compare : α → α → Int}
  (freed : α → α → Option Int) {d : α} {n : TNode α} {l r t : Tree α} {h h' : THead α}
  {m : κ → Option α}

inductive TreeOp (α : Type) where
  | tinsert (data : α)
  | tlookup (data : α)
  | tdelete (data : α)

def TreeOp.arg : TreeOp α → α
  | .tinsert d => d
  | .tlookup d => d
  | .tdelete d => d

def treeOp (compare : α → α → Int) (freed : α → α → Option Int) (h : THead α) :
    TreeOp α → Option (THead α × Answer α)
  | .tinsert d => (tinsert compare freed h d).map fun u => (u.1, .flag u.2)
  | .tlookup d => (tlookup compare freed h d).map fun o => (h, .data o)
  | .tdelete d => (tdelete compare freed h d).map fun u => (u.1, .flag u.2)

/- The tree as a map from keys to data: what an operation is for. -/
def mapOp (key : α → κ) (m : κ → Option α) : TreeOp α → (κ → Option α) × Answer α
  | .tinsert d =>
    if m (key d) = none then (Function.update m (key d) (some d), .flag true) else (m, .flag false)
  | .tlookup d => (m, .data (m (key d)))
  | .tdelete d =>
    if m (key d) = none then (m, .flag false) else (Function.update m (key d) none, .flag true)

/-- The map has the data of the nodes that are not deleted. -/
structure Keeps (key : α → κ) (m : κ → Option α) (h : THead α) : Prop extends Inv key h where
  held : ∀ k d, m k = some d ↔ (d, false) ∈ faces h.head ∧ key d = k

theorem mem_faces {f : α × Bool} : f ∈ faces t ↔ ∃ n ∈ inorder t, (n.data, n.deleted) = f :=
  List.mem_map

theorem Keeps.missing (hk : Keeps key m h) (hf : Fresh key d h.head) : m (key d) = none := by
  rw [Option.eq_none_iff_forall_ne_some]
  intro e he
  obtain ⟨hm, hke⟩ := (hk.held _ e).1 he
  obtain ⟨n, hn, hne⟩ := mem_faces.1 hm
  have hdata : n.data = e := congrArg Prod.fst hne
  exact hf n hn (by rw [nkey, hdata, hke])

theorem Keeps.there (hk : Keeps key m h) (hn : n ∈ inorder h.head) (hd : n.deleted = false)
    (hkey : nkey key n = key d) : m (key d) = some n.data :=
  (hk.held _ _).2 ⟨mem_faces.2 ⟨n, hn, by rw [hd]⟩, hkey⟩

theorem find_missing (ho : Orders key compare) (hf : Fresh key d t) (hcl : Clear compare d t)
    (ht : t ≠ .nil) (p : List Side) : find compare freed d t p = some none := by
  induction t generalizing p with
  | nil => exact (ht rfl).elim
  | node n l r ihl ihr =>
    obtain ⟨hfl, hfr, hlt | hlt⟩ := hf.sides ho
    · rw [find_left freed hcl hlt]
      by_cases hl : isNull l = true
      · rw [if_pos hl]
      · rw [if_neg hl]
        exact ihl hfl (hcl.2.1 hlt) (mt isNull_iff.2 hl) _
    · rw [find_right freed hcl hlt]
      by_cases hr : isNull r = true
      · rw [if_pos hr]
      · rw [if_neg hr]
        exact ihr hfr (hcl.2.2 hlt) (mt isNull_iff.2 hr) _

/- The key is nowhere, or at a node that is not deleted. -/
theorem search_either (ho : Orders key compare) (hs : Sorted key t) (hcl : Clear compare d t) :
    Fresh key d t ∨ ∃ n ∈ inorder t, nkey key n = key d ∧ n.deleted = false := by
  by_cases hd : ∃ n ∈ inorder t, nkey key n = key d
  · obtain ⟨n, hn, hkey⟩ := hd
    obtain ⟨-, -, -, -, hdel⟩ := search_found (fun _ _ => none) ho hs hcl hn hkey
    exact Or.inr ⟨n, hn, hkey, hdel⟩
  · exact Or.inl fun n hn hkey => hd ⟨n, hn, hkey⟩

theorem Keeps.tinsert (ho : Orders key compare) (hk : Keeps key m h)
    (hcl : Clear compare d h.head) : ∃ h',
      treeOp compare freed h (.tinsert d) = some (h', (mapOp key m (.tinsert d)).2) ∧
      Keeps key (mapOp key m (.tinsert d)).1 h' := by
  rcases search_either ho hk.sorted hcl with hf | ⟨n, hn, hkey, hdel⟩
  · obtain ⟨h', hins, hinv, L, R, hl, hr, -, -⟩ := tinsert_new freed ho hk.toInv hf hcl
    rw [mapOp, if_pos (hk.missing hf)]
    refine ⟨h', by rw [treeOp, hins]; rfl, hinv, fun k e => ?_⟩
    have hmem : ∀ f, f ∈ faces h'.head ↔ f = (d, false) ∨ f ∈ faces h.head := by
      intro f
      rw [hl, hr]
      simp only [List.mem_append, List.mem_cons]
      tauto
    rw [hmem]
    simp only
    by_cases hkd : k = key d
    · subst hkd
      rw [Function.update_self]
      constructor
      · rintro he
        cases he
        exact ⟨Or.inl rfl, rfl⟩
      · rintro ⟨he | he, hke⟩
        · cases he
          rfl
        · have hno := (hk.held _ e).2 ⟨he, hke⟩
          rw [hk.missing hf] at hno
          cases hno
    · rw [Function.update_of_ne hkd, hk.held]
      constructor
      · rintro ⟨he, hke⟩
        exact ⟨Or.inr he, hke⟩
      · rintro ⟨he | he, hke⟩
        · cases he
          exact (hkd hke.symm).elim
        · exact ⟨he, hke⟩
  · rw [mapOp, hk.there hn hdel hkey, if_neg nofun]
    exact ⟨h, by rw [treeOp, tinsert_old freed ho hk.sorted hcl hn hkey]; rfl, hk⟩

theorem Keeps.tlookup (ho : Orders key compare) (hk : Keeps key m h)
    (hcl : Clear compare d h.head) :
    treeOp compare freed h (.tlookup d) = some (h, (mapOp key m (.tlookup d)).2) := by
  rw [treeOp, Libgen.tlookup, mapOp]
  rcases search_either ho hk.sorted hcl with hf | ⟨n, hn, hkey, hdel⟩
  · rw [hk.missing hf]
    cases ht : h.head with
    | nil => rfl
    | node x l r =>
      rw [ht] at hf hcl
      simp only [find_missing freed ho hf hcl nofun, Option.bind_eq_bind, Option.bind_some,
        Option.map_some]
  · obtain ⟨p, -, hfind, hp, -⟩ := search_found freed ho hk.sorted hcl hn hkey
    obtain ⟨u, hu, -⟩ := hp.alter (f := dataOf) (b := some n.data) (k := n)
      (fun x y => by simp [dataOf, hdel]) rfl
    rw [hk.there hn hdel hkey]
    cases ht : h.head with
    | nil =>
      rw [ht] at hn
      cases hn
    | node x l r =>
      rw [ht] at hfind hu
      simp only [hfind, Option.bind_eq_bind, Option.bind_some, List.nil_append, hu, Option.map_some]

theorem Keeps.tdelete (ho : Orders key compare) (hk : Keeps key m h)
    (hcl : Clear compare d h.head) : ∃ h',
      treeOp compare freed h (.tdelete d) = some (h', (mapOp key m (.tdelete d)).2) ∧
      Keeps key (mapOp key m (.tdelete d)).1 h' := by
  rcases search_either ho hk.sorted hcl with hf | ⟨n, hn, hkey, hdel⟩
  · rw [mapOp, if_pos (hk.missing hf)]
    refine ⟨h, ?_, hk⟩
    rw [treeOp, Libgen.tdelete]
    cases ht : h.head with
    | nil => rfl
    | node x l r =>
      rw [ht] at hf hcl
      simp only [find_missing freed ho hf hcl (by rintro ⟨⟩), Option.bind_eq_bind, Option.bind_some,
        Option.map_some]
  · obtain ⟨p, -, hfind, hp, -⟩ := search_found freed ho hk.sorted hcl hn hkey
    obtain ⟨u, hu, hh, ha, L, R, hL, hR⟩ := hp.alter (f := mark) (b := true)
      (k := { n with deleted := true }) (fun x y => by simp [mark, hdel]) rfl
    have hfL : faces h.head = L.map (fun n => (n.data, n.deleted)) ++ (n.data, false) ::
        R.map fun n => (n.data, n.deleted) := by
      rw [faces, hL, List.map_append, List.map_cons, hdel]
    have hfR : faces u = L.map (fun n => (n.data, n.deleted)) ++ (n.data, true) ::
        R.map fun n => (n.data, n.deleted) := by
      rw [faces, hR, List.map_append, List.map_cons]
    generalize L.map (fun n => (n.data, n.deleted)) = fl at *
    generalize R.map (fun n => (n.data, n.deleted)) = fr at *
    have hpres : ((present h.head).length : Int) = (present u).length + 1 := by
      rw [present, present, hfL, hfR]
      simp
      omega
    have hsorted := sorted_faces.1 hk.sorted
    rw [hfL] at hsorted
    obtain ⟨hsl, hsr, hlr⟩ := List.pairwise_append.1 hsorted
    obtain ⟨hnr, hsr⟩ := List.pairwise_cons.1 hsr
    rw [mapOp, hk.there hn hdel hkey, if_neg (by rintro ⟨⟩)]
    refine ⟨⟨u, h.height, i16 (h.numnodes - 1)⟩, ?_, ⟨ha hk.avl, ?_, ?_, ?_⟩, fun k e => ?_⟩
    · rw [treeOp, Libgen.tdelete]
      cases ht : h.head with
      | nil =>
        rw [ht] at hn
        cases hn
      | node x l r =>
        rw [ht] at hfind hu
        simp only [hfind, Option.bind_eq_bind, Option.bind_some, List.nil_append, markAt, ht, hu,
          Bool.true_eq_false, if_false, Option.map_some]
    · rw [sorted_faces, hfR]
      exact List.pairwise_append.2 ⟨hsl, List.pairwise_cons.2 ⟨hnr, hsr⟩, fun f hf g hg => by
        rcases List.mem_cons.1 hg with rfl | hg
        · exact hlr f hf (n.data, false) List.mem_cons_self
        · exact hlr f hf g (List.mem_cons_of_mem _ hg)⟩
    · rw [hh]
      exact hk.height
    · simp only
      rw [hk.numnodes, hpres, Int.sub_eq_add_neg, i16_add]
      congr 1
      omega
    · simp only
      have hheld := hk.held k e
      rw [hfL] at hheld
      rw [hfR]
      simp only [List.mem_append, List.mem_cons] at hheld ⊢
      by_cases hkd : k = key d
      · subst hkd
        rw [Function.update_self]
        constructor
        · rintro ⟨⟩
        · rintro ⟨hmem, hke⟩
          have hlt : key (e, false).1 = key n.data := hke.trans hkey.symm
          rcases hmem with he | he | he
          · exact absurd hlt (hlr _ he (n.data, false) List.mem_cons_self).ne
          · cases he
          · exact absurd hlt (hnr _ he).ne'
      · rw [Function.update_of_ne hkd, hheld]
        constructor
        · rintro ⟨he | he | he, hke⟩
          · exact ⟨Or.inl he, hke⟩
          · cases he
            exact (hkd (hke.symm.trans hkey)).elim
          · exact ⟨Or.inr (Or.inr he), hke⟩
        · rintro ⟨he | he | he, hke⟩
          · exact ⟨Or.inl he, hke⟩
          · cases he
          · exact ⟨Or.inr (Or.inr he), hke⟩

/-- Where the search meets no deleted node, an operation does what it is for, whatever the
comparison makes of freed data. -/
theorem Keeps.treeOp (ho : Orders key compare) (hk : Keeps key m h) (o : TreeOp α)
    (hcl : Clear compare o.arg h.head) : ∃ h',
      treeOp compare freed h o = some (h', (mapOp key m o).2) ∧ Keeps key (mapOp key m o).1 h' := by
  cases o with
  | tinsert d => exact hk.tinsert freed ho hcl
  | tlookup d => exact ⟨h, hk.tlookup freed ho hcl, hk⟩
  | tdelete d => exact hk.tdelete freed ho hcl

/- A comparison that cannot go on with freed data. -/
def trap : α → α → Option Int := fun _ _ => none

/- The two searches stop at freed data. -/
theorem trapped (hcl : ¬ Clear compare d t) (p s : List Side) :
    search compare trap d t p s = none ∧ find compare trap d t p = none := by
  induction t generalizing p s with
  | nil => exact (hcl trivial).elim
  | node n l r ihl ihr =>
    rw [search, find, COMPARE]
    by_cases hd : n.deleted = true
    · rw [if_pos hd, trap]
      exact ⟨rfl, rfl⟩
    · rw [if_neg hd]
      rw [Bool.not_eq_true] at hd
      rw [Clear, not_and, not_and_or] at hcl
      simp only [Option.bind_eq_bind, Option.bind_some]
      rcases hcl hd with hside | hside
      · obtain ⟨hlt, hl⟩ := Classical.not_imp.1 hside
        have hnull : isNull l = false := by
          cases l with
          | nil => exact (hl trivial).elim
          | node m x y => rfl
        simp only [if_neg (show ¬ compare d n.data = 0 by omega),
          if_neg (show ¬ compare d n.data > 0 by omega), hnull, if_neg Bool.false_ne_true]
        exact ⟨(ihl hl _ _).1, (ihl hl _ s).2⟩
      · obtain ⟨hlt, hr⟩ := Classical.not_imp.1 hside
        have hnull : isNull r = false := by
          cases r with
          | nil => exact (hr trivial).elim
          | node m x y => rfl
        simp only [if_neg (show ¬ compare d n.data = 0 by omega), if_pos hlt, hnull,
          if_neg Bool.false_ne_true]
        exact ⟨(ihr hr _ _).1, (ihr hr _ s).2⟩

/-- An operation whose search meets a deleted node passes freed data to the comparison. -/
theorem treeOp_trapped (o : TreeOp α) (hcl : ¬ Clear compare o.arg h.head) :
    treeOp compare trap h o = none := by
  cases o with
  | tinsert d =>
    rw [TreeOp.arg] at hcl
    rw [treeOp, tinsert]
    cases ht : h.head with
    | nil =>
      rw [ht] at hcl
      exact (hcl trivial).elim
    | node n l r =>
      rw [ht] at hcl
      simp only [(trapped hcl [] []).1, Option.bind_eq_bind, Option.bind_none, Option.map_none]
  | tlookup d =>
    rw [TreeOp.arg] at hcl
    rw [treeOp, tlookup]
    cases ht : h.head with
    | nil =>
      rw [ht] at hcl
      exact (hcl trivial).elim
    | node n l r =>
      rw [ht] at hcl
      simp only [(trapped hcl [] []).2, Option.bind_eq_bind, Option.bind_none, Option.map_none]
  | tdelete d =>
    rw [TreeOp.arg] at hcl
    rw [treeOp, tdelete]
    cases ht : h.head with
    | nil =>
      rw [ht] at hcl
      exact (hcl trivial).elim
    | node n l r =>
      rw [ht] at hcl
      simp only [(trapped hcl [] []).2, Option.bind_eq_bind, Option.bind_none, Option.map_none]

/- Runs whose searches meet no deleted node, with the map that the tree should be. -/
inductive ClearRun (key : α → κ) (compare : α → α → Int) : THead α → (κ → Option α) → Prop
  | start : ClearRun key compare tcreate fun _ => none
  | step {h h' : THead α} {m : κ → Option α} {a : Answer α} (o : TreeOp α) :
      ClearRun key compare h m → Clear compare o.arg h.head →
      treeOp compare trap h o = some (h', a) → ClearRun key compare h' (mapOp key m o).1

theorem keeps_tcreate : Keeps key (fun _ => none) (tcreate : THead α) where
  toInv := holds_tcreate.toInv
  held := fun _ _ => ⟨fun hm => (nomatch hm), fun hm => (nomatch hm.1)⟩

/-- In a run whose searches have met no deleted node, the next operation passes no freed data to
the comparison, and answers as the map does, exactly if its search meets none either. -/
theorem clear_run (ho : Orders key compare) (hr : ClearRun key compare h m) (o : TreeOp α) :
    (Clear compare o.arg h.head → ∃ h', treeOp compare trap h o = some (h', (mapOp key m o).2) ∧
      Keeps key (mapOp key m o).1 h') ∧
      (¬ Clear compare o.arg h.head → treeOp compare trap h o = none) := by
  have hk : Keeps key m h := by
    induction hr with
    | start => exact keeps_tcreate
    | step o _ hcl hop ih =>
      obtain ⟨h', hop', hk⟩ := ih.treeOp trap ho o hcl
      rw [hop] at hop'
      cases hop'
      exact hk
  exact ⟨hk.treeOp trap ho o, treeOp_trapped o⟩

/- Two integers, of which the one at the end of its path is deleted. -/
def pruned : THead Int := ⟨.node ⟨false, 1, 1⟩ .nil (.node ⟨true, 0, 2⟩ .nil .nil), 2, 1⟩

def prunedMap : Int → Option Int :=
  (mapOp id (mapOp id (mapOp id (fun _ => none) (.tinsert 1)).1 (.tinsert 2)).1 (.tdelete 2)).1

theorem clear_run_pruned :
    (Clear (fun a b : Int => a - b) 0 pruned.head → ∃ h', treeOp (fun a b : Int => a - b) trap
      pruned (.tinsert 0) = some (h', (mapOp id prunedMap (.tinsert 0)).2) ∧
      Keeps id (mapOp id prunedMap (.tinsert 0)).1 h') ∧
      (¬ Clear (fun a b : Int => a - b) 0 pruned.head →
        treeOp (fun a b : Int => a - b) trap pruned (.tinsert 0) = none) :=
  @clear_run Int Int _ id (fun a b => a - b) pruned prunedMap orders_sub
    (.step (.tdelete 2) (.step (.tinsert 2) (.step (.tinsert 1) .start trivial rfl)
      ⟨rfl, fun _ => trivial, fun _ => trivial⟩ rfl)
      ⟨rfl, fun _ => trivial, fun _ => ⟨rfl, fun _ => trivial, fun _ => trivial⟩⟩ rfl) (.tinsert 0)

/-- A key that has been deleted is not inserted again before its freed data is compared. -/
theorem freed_compared : ∃ h h', treeOp (fun a b : Int => a - b) trap tcreate (.tinsert 1) =
    some (h, .flag true) ∧ treeOp (fun a b : Int => a - b) trap h (.tdelete 1) =
      some (h', .flag true) ∧ treeOp (fun a b : Int => a - b) trap h' (.tinsert 1) = none :=
  ⟨_, _, rfl, rfl, rfl⟩

end Svr32.Libgen
