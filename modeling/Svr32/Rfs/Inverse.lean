import Svr32.Rfs.Rglid
import Mathlib.Algebra.Ring.Nat
import Mathlib.Algebra.Ring.Int.Defs

/-! The forward mapping: glid over a table that lists entries and ranges in order, against a
scan of what the table lists. -/
namespace Svr32.Rfs
variable {v defval : Nat} {l pre post : List Item}

/- What a table lists: an id, or a range of ids that are all mapped to one. A local id of
0xFFFF would mark the start of a range, so none is mapped to it. -/
inductive Item
  | one (rem loc : Nat) (h : loc ≠ UF)
  | range (first last loc : Nat) (h : loc ≠ UF) (hle : first ≤ last)

namespace Item

def first : Item → Nat
  | one rem _ _ => rem
  | range first _ _ _ _ => first

def last : Item → Nat
  | one rem _ _ => rem
  | range _ last _ _ _ => last

def loc : Item → Nat
  | one _ loc _ => loc
  | range _ _ loc _ _ => loc

/- A range takes two entries, its start and its end. -/
def entries : Item → List IdTab
  | one rem loc _ => [⟨rem, loc⟩]
  | range first last loc _ _ => [⟨first, UF⟩, ⟨last, loc⟩]

def holds (v : Nat) (x : Item) : Bool := x.first ≤ v && v ≤ x.last

theorem first_le (x : Item) : x.first ≤ x.last := by
  cases x with
  | one rem loc h => exact Nat.le_refl _
  | range first last loc h hle => exact hle

end Item

/- In order of the remote ids, and no two overlap. -/
def Sorted (l : List Item) : Prop := l.Pairwise fun x y => x.last < y.first

def table (l : List Item) : List IdTab := l.flatMap Item.entries

/- A scan of the table: the entry or the range that has the id, else the default, else the
id itself. -/
def scan (defval : Nat) (l : List Item) (v : Nat) : Nat :=
  match l.find? (Item.holds v) with
  | some x => x.loc
  | none => if defval ≠ 0 then defval else v

theorem table_append (a b : List Item) : table (a ++ b) = table a ++ table b :=
  List.flatMap_append

/-- An entry of the map is an entry of the table. -/
theorem setidmap_tab (map : List IdTab) (i : Nat) :
    (setidmap defval map).tab (TABLE + i) = map.getD i ⟨0, 0⟩ := by
  have hi : ¬ TABLE + i < HEADSIZE + CACHESIZE := Nat.not_lt.mpr (Nat.le_add_right _ _)
  simp only [setidmap, if_neg hi]
  exact congrArg (map.getD · _) (Nat.add_sub_cancel_left TABLE i)

theorem setidmap_inTab (map : List IdTab) (i : Nat) :
    InTab (setidmap defval map) i ↔ ∃ k < map.length, i = TABLE + k := by
  constructor
  · intro hi
    refine ⟨i - TABLE, ?_, ?_⟩
    · have h1 := hi.1
      have h2 : i < TABLE + map.length := hi.2
      omega
    · have h1 := hi.1
      omega
  · rintro ⟨k, hk, rfl⟩
    exact ⟨Nat.le_add_right _ _, Nat.add_lt_add_left hk TABLE⟩

/-- What an entry of the table is: the start of a range with its end behind it, or the end
of what is listed. -/
theorem table_entry {k : Nat} {t : IdTab} (h : (table l)[k]? = some t) :
    (t.iLoc = UF → ∃ x ∈ l, ∃ t', (table l)[k + 1]? = some t' ∧ t'.iLoc ≠ UF ∧
      x.first = t.iRem ∧ x.last = t'.iRem ∧ x.loc = t'.iLoc) ∧
    (t.iLoc ≠ UF → ∃ x ∈ l, x.last = t.iRem ∧ x.loc = t.iLoc) := by
  induction l generalizing k with
  | nil => simp [table] at h
  | cons x l ih =>
    have hcut : table (x :: l) = x.entries ++ table l := rfl
    rw [hcut] at h ⊢
    by_cases hk : x.entries.length ≤ k
    · rw [List.getElem?_append_right hk] at h
      rw [List.getElem?_append_right (by omega), Nat.sub_add_comm hk]
      obtain ⟨hstart, hstop⟩ := ih h
      constructor
      · intro hu
        obtain ⟨y, hy, hrest⟩ := hstart hu
        exact ⟨y, List.mem_cons_of_mem x hy, hrest⟩
      · intro hu
        obtain ⟨y, hy, hrest⟩ := hstop hu
        exact ⟨y, List.mem_cons_of_mem x hy, hrest⟩
    · cases x with
      | one rem loc hu =>
        have hk0 : k = 0 := by
          simp only [Item.entries, List.length_singleton] at hk
          omega
        subst hk0
        cases h
        exact ⟨fun he => absurd he hu, fun _ => ⟨_, List.mem_cons_self, rfl, rfl⟩⟩
      | range first last loc hu hle =>
        match k, h with
        | 0, h =>
          cases h
          exact ⟨fun _ => ⟨_, List.mem_cons_self, ⟨last, loc⟩, rfl, hu, rfl, rfl, rfl⟩,
            fun hn => absurd rfl hn⟩
        | 1, h =>
          cases h
          exact ⟨fun he => absurd he hu, fun _ => ⟨_, List.mem_cons_self, rfl, rfl⟩⟩
        | k + 2, _ => exact absurd (by simp [Item.entries]) hk

/-- What is listed has its entries in the table. -/
theorem entry_table {x : Item} (hx : x ∈ l) :
    ∃ k : Nat, ∀ (i : Nat) (t : IdTab), x.entries[i]? = some t → (table l)[k + i]? = some t := by
  obtain ⟨pre, post, rfl⟩ := List.append_of_mem hx
  refine ⟨(table pre).length, fun i t h => ?_⟩
  have hi := (List.getElem?_eq_some_iff.mp h).1
  have hcut : table (pre ++ x :: post) = table pre ++ (x.entries ++ table post) :=
    table_append pre (x :: post)
  rw [hcut, List.getElem?_append_right (Nat.le_add_right _ _), Nat.add_sub_cancel_left,
    List.getElem?_append_left hi]
  exact h

theorem Item.entries_rem {x : Item} {t : IdTab} (h : t ∈ x.entries) :
    x.first ≤ t.iRem ∧ t.iRem ≤ x.last := by
  cases x with
  | one rem loc hu =>
    rw [List.mem_singleton.mp h]
    exact ⟨Nat.le_refl _, Nat.le_refl _⟩
  | range first last loc hu hle =>
    simp only [Item.entries, List.mem_cons, List.not_mem_nil, or_false] at h
    rcases h with rfl | rfl
    · exact ⟨Nat.le_refl _, hle⟩
    · exact ⟨hle, Nat.le_refl _⟩

/-- The entries are in order, and only the start of a range may equal what follows it. -/
theorem Sorted.table (h : Sorted l) : (table l).Pairwise fun t t' =>
    t.iRem ≤ t'.iRem ∧ (t.iLoc ≠ UF → t.iRem < t'.iRem) := by
  refine List.pairwise_flatMap.mpr ⟨fun x _ => ?_, h.imp fun {x y} hxy t ht t' ht' => ?_⟩
  · cases x with
    | one rem loc hu => exact List.pairwise_singleton _ _
    | range first last loc hu hle =>
      simp only [Item.entries, List.pairwise_cons, List.mem_singleton, List.not_mem_nil,
        List.Pairwise.nil, and_true, forall_eq, false_imp_iff, implies_true]
      exact ⟨hle, fun hn => absurd rfl hn⟩
  · have h1 := (Item.entries_rem ht).2
    have h2 := (Item.entries_rem ht').1
    exact ⟨by omega, fun _ => by omega⟩

theorem setidmap_get (defval : Nat) {map : List IdTab} {k : Nat} {t : IdTab}
    (h : map[k]? = some t) :
    InTab (setidmap defval map) (TABLE + k) ∧ (setidmap defval map).tab (TABLE + k) = t := by
  refine ⟨(setidmap_inTab map _).mpr ⟨k, (List.getElem?_eq_some_iff.mp h).1, rfl⟩, ?_⟩
  rw [setidmap_tab, List.getD_eq_getElem?_getD, h, Option.getD_some]

theorem setidmap_at {map : List IdTab} {i : Nat} (hi : InTab (setidmap defval map) i) :
    ∃ k, i = TABLE + k ∧ map[k]? = some ((setidmap defval map).tab i) := by
  obtain ⟨k, hk, rfl⟩ := (setidmap_inTab map i).mp hi
  refine ⟨k, rfl, ?_⟩
  rw [setidmap_tab, List.getD_eq_getElem?_getD, List.getElem?_eq_getElem hk, Option.getD_some]

theorem Sorted.ordered (h : Sorted l) (defval : Nat) : Ordered (setidmap defval (Rfs.table l)) := by
  have hpair : ∀ i j, InTab (setidmap defval (Rfs.table l)) i →
      InTab (setidmap defval (Rfs.table l)) j → i < j →
      ((setidmap defval (Rfs.table l)).tab i).iRem ≤ ((setidmap defval (Rfs.table l)).tab j).iRem ∧
      (((setidmap defval (Rfs.table l)).tab i).iLoc ≠ UF →
        ((setidmap defval (Rfs.table l)).tab i).iRem <
          ((setidmap defval (Rfs.table l)).tab j).iRem) := by
    intro i j hi hj hlt
    obtain ⟨k, rfl, hk⟩ := setidmap_at hi
    obtain ⟨k', rfl, hk'⟩ := setidmap_at hj
    obtain ⟨hl, he⟩ := List.getElem?_eq_some_iff.mp hk
    obtain ⟨hl', he'⟩ := List.getElem?_eq_some_iff.mp hk'
    have hp := List.pairwise_iff_getElem.mp h.table k k' hl hl' (by omega)
    rwa [he, he'] at hp
  refine ⟨rfl, fun i j hi hj hlt => (hpair i j hi hj hlt).1,
    fun i j hi hj hlt => (hpair i j hi hj hlt).2, fun i hi hu => ?_⟩
  obtain ⟨k, rfl, hk⟩ := setidmap_at hi
  obtain ⟨x, -, t', ht', hu', -⟩ := (table_entry hk).1 hu
  obtain ⟨hin, he⟩ := setidmap_get defval ht'
  exact ⟨hin, by rw [Nat.add_assoc, he]; exact hu'⟩

/-- The mapping of the table is what it lists. -/
theorem maps_table (defval : Nat) (l : List Item) (v y : Nat) :
    Maps (setidmap defval (Rfs.table l)) v y ↔ ∃ x ∈ l, x.holds v = true ∧ x.loc = y := by
  constructor
  · intro hm
    cases hm with
    | @one i hi hv hu =>
      obtain ⟨k, rfl, hk⟩ := setidmap_at hi
      obtain ⟨x, hx, hlast, hloc⟩ := (table_entry hk).2 hu
      have hle := x.first_le
      exact ⟨x, hx, by simp [Item.holds]; omega, hloc⟩
    | @range i hi hu h1 h2 =>
      obtain ⟨k, rfl, hk⟩ := setidmap_at hi
      obtain ⟨x, hx, t', ht', hu', hfirst, hlast, hloc⟩ := (table_entry hk).1 hu
      have he := (setidmap_get defval ht').2
      rw [← Nat.add_assoc] at he
      rw [he] at h2 ⊢
      exact ⟨x, hx, by simp [Item.holds]; omega, hloc⟩
  · rintro ⟨x, hx, hv, rfl⟩
    simp only [Item.holds, Bool.and_eq_true, decide_eq_true_eq] at hv
    cases x with
    | one rem loc hu =>
      obtain ⟨k, hk⟩ := entry_table hx
      obtain ⟨hin, he⟩ := setidmap_get defval (hk 0 ⟨rem, loc⟩ rfl)
      have hm := Maps.one (v := v) hin (by rw [he]; exact Nat.le_antisymm hv.1 hv.2)
        (by rw [he]; exact hu)
      rwa [he] at hm
    | range first last loc hu hle =>
      obtain ⟨k, hk⟩ := entry_table hx
      obtain ⟨hin, he⟩ := setidmap_get defval (hk 0 ⟨first, UF⟩ rfl)
      have he' := (setidmap_get defval (hk 1 ⟨last, loc⟩ rfl)).2
      have hm := Maps.range (v := v) hin (by rw [he]) (by rw [he]; exact hv.1)
        (by rw [Nat.add_assoc, Nat.add_assoc, he']; exact hv.2)
      rwa [Nat.add_assoc, Nat.add_assoc, he'] at hm

/-- For a table whose entries and ranges are in order and do not overlap, glid gives what a
scan of it would give. -/
theorem glid_scan (h : Sorted l) (defval v : Nat) :
    glid (some (setidmap defval (Rfs.table l))) v = scan defval l v := by
  rw [scan]
  cases hf : l.find? (Item.holds v) with
  | some x =>
    have hm := (maps_table defval l v x.loc).mpr
      ⟨x, List.mem_of_find?_eq_some hf, List.find?_some hf, rfl⟩
    exact glid_mapped (h.ordered defval) hm
  | none =>
    refine glid_unmapped (h.ordered defval) ?_
    rintro ⟨y, hm⟩
    obtain ⟨x, hx, hv, -⟩ := (maps_table defval l v y).mp hm
    exact absurd hv (List.find?_eq_none.mp hf x hx)

theorem glid_scan_range : glid (some (setidmap 9 (table
      [.one 3 7 (by decide), .range 5 8 2 (by decide) (by decide)]))) 6 = 2 :=
  glid_scan (l := [.one 3 7 (by decide), .range 5 8 2 (by decide) (by decide)])
    (by simp [Sorted, Item.last, Item.first]) 9 6

end Svr32.Rfs

/-! When rglid inverts glid, after any calls. -/
namespace Svr32.Rfs
open Svr32.Lib
variable {m : IdMap} {idt : Option IdMap} {l r i : Nat}

/- A map that idload could have made, or none, with its cache unused. -/
def Loaded (idt : Option IdMap) : Prop :=
  idt = none ∨ ∃ defval map, idt = some (setidmap defval map) ∧ Valid (setidmap defval map)

/- Calls of rglid on one map. -/
def idCalls : System (Option IdMap) where
  init := Loaded
  step idt idt' := ∃ l, l < 2 ^ 16 ∧ l ≠ UF ∧ idt' = (rglid idt l).2

/-- rglid inverts glid at a local id, with the cache or without. -/
structure Right (idt : Option IdMap) (l : Nat) : Prop where
  inverse : (rglid idt l).1 = NO_ACCESS ∨ glid idt (rglid idt l).1 = l
  access : (rglid idt l).1 = NO_ACCESS → ∀ r < 2 ^ 16, glid idt r ≠ l
  cached : (rglid idt l).1 = uncached idt l

/- NO_ACCESS is not itself in use as an id, and the id is not a default that the table gives
another local id while other remote ids have it. -/
def Fine (m : IdMap) (l : Nat) : Prop :=
  (∀ i, FirstGives m i l → (m.tab i).iRem ≠ NO_ACCESS) ∧
  ((∀ i, InTab m i → ¬ Gives m i l) →
    ¬ (l = NO_ACCESS ∧ ¬ Mapped m l ∧ (m.iDefault = 0 ∨ m.iDefault = l)) ∧
    ¬ (m.iDefault ≠ 0 ∧ l = m.iDefault ∧ Mapped m l ∧ ∃ r < 2 ^ 16, ¬ Mapped m r))

theorem right_none (l : Nat) : Right none l := by
  have hne : OTHERID ≠ NO_ACCESS := by decide
  by_cases hl : l = OTHERID
  · have ha : (rglid none l).1 = OTHERID := if_neg (not_not.mpr hl)
    exact ⟨.inr (by rw [ha, hl]; rfl), fun h => absurd (ha.symm.trans h) hne, rfl⟩
  · have ha : (rglid none l).1 = NO_ACCESS := if_pos hl
    exact ⟨.inl ha, fun _ r _ hr => hl hr.symm, rfl⟩

/-- An id that no entry gives is the mapping of no id. -/
theorem not_maps (hno : ∀ i, InTab m i → ¬ Gives m i l) (r : Nat) : ¬ Maps m r l := fun hm => by
  obtain ⟨i, hi, hg⟩ := hm.gives
  exact hno i hi hg

theorem glid_eq_unmapped (h : Valid m) (hno : ∀ i, InTab m i → ¬ Gives m i l)
    (hr : glid (some m) r = l) : ¬ Mapped m r ∧ unmapped m r = l := by
  rcases glid_spec h.ordered r with hm | ⟨hn, he⟩
  · rw [hr] at hm
    exact absurd hm (not_maps hno r)
  · exact ⟨hn, he.symm.trans hr⟩

theorem unmapped_eq : unmapped m r = l ↔
    m.iDefault ≠ 0 ∧ m.iDefault = l ∨ m.iDefault = 0 ∧ r = l := by
  rw [unmapped]
  by_cases hd : m.iDefault = 0
  · rw [if_neg (not_not.mpr hd)]
    exact ⟨fun h => .inr ⟨hd, h⟩, fun h => h.elim (fun h => absurd hd h.1) fun h => h.2⟩
  · rw [if_pos hd]
    exact ⟨fun h => .inl ⟨hd, h⟩, fun h => h.elim (fun h => h.2) fun h => absurd h.1 hd⟩

/- What the answer has to be right for. -/
def Inverts (m : IdMap) (l a : Nat) : Prop :=
  (a = NO_ACCESS ∨ glid (some m) a = l) ∧ (a = NO_ACCESS → ∀ r < 2 ^ 16, glid (some m) r ≠ l)

/-- An id that is its own image is answered by itself. -/
theorem sound_self (h : Valid m) (hno : ∀ i, InTab m i → ¬ Gives m i l)
    (hg : glid (some m) l = l) : Inverts m l l ↔ Fine m l := by
  obtain ⟨hum, hue⟩ := glid_eq_unmapped h hno hg
  have hdef := unmapped_eq.mp hue
  constructor
  · intro hs
    refine ⟨fun i hi => absurd hi.2.1 (hno i hi.1), fun _ => ⟨fun hc => ?_, fun hc => hum hc.2.2.1⟩⟩
    have hlt : l < 2 ^ 16 := by
      rw [hc.1]
      decide
    exact hs.2 hc.1 l hlt hg
  · intro hf
    refine ⟨.inr hg, fun hl => absurd ⟨hl, hum, ?_⟩ (hf.2 hno).1⟩
    exact hdef.elim (fun hd => .inr hd.2) fun hd => .inl hd.1

/-- An id that glid changes and no entry gives is answered by NO_ACCESS. -/
theorem sound_changed (h : Valid m) (hno : ∀ i, InTab m i → ¬ Gives m i l)
    (hg : glid (some m) l ≠ l) : Inverts m l NO_ACCESS ↔ Fine m l := by
  have hmap : m.iDefault ≠ 0 → l = m.iDefault → Mapped m l := fun hd hl => by
    by_contra hum
    exact hg ((glid_unmapped h.ordered hum).trans (unmapped_eq.mpr (.inl ⟨hd, hl.symm⟩)))
  constructor
  · intro hs
    refine ⟨fun i hi => absurd hi.2.1 (hno i hi.1), fun _ => ⟨fun hc => ?_, fun hc => ?_⟩⟩
    · refine hg ((glid_unmapped h.ordered hc.2.1).trans (unmapped_eq.mpr ?_))
      by_cases hd : m.iDefault = 0
      · exact .inr ⟨hd, rfl⟩
      · exact .inl ⟨hd, hc.2.2.resolve_left hd⟩
    · obtain ⟨hd, hl, -, r, hr, hum⟩ := hc
      exact hs.2 rfl r hr ((glid_unmapped h.ordered hum).trans (unmapped_eq.mpr (.inl ⟨hd, hl.symm⟩)))
  · intro hf
    refine ⟨.inl rfl, fun _ r hr hrl => ?_⟩
    obtain ⟨hum, hue⟩ := glid_eq_unmapped h hno hrl
    rcases unmapped_eq.mp hue with ⟨hd, hl⟩ | ⟨hd, hl⟩
    · exact (hf.2 hno).2 ⟨hd, hl.symm, hmap hd hl.symm, r, hr, hum⟩
    · exact hg (hl ▸ hrl)

/-- An id that an entry gives is answered by the id of the first such entry. -/
theorem sound_first (h : Valid m) (hl : l ≠ UF) (hi : FirstGives m i l) :
    Inverts m l (m.tab i).iRem ↔ Fine m l := by
  have hg : glid (some m) (m.tab i).iRem = l := glid_mapped h.ordered (hi.2.1.maps h hi.1 hl)
  have honly : ∀ j, FirstGives m j l → j = i := fun j hj => by
    rcases Nat.lt_trichotomy j i with hlt | he | hlt
    · exact absurd hj.2.1 (hi.2.2 j hj.1 hlt)
    · exact he
    · exact absurd hi.2.1 (hj.2.2 i hi.1 hlt)
  constructor
  · intro hs
    refine ⟨fun j hj hc => ?_, fun hno => absurd hi.2.1 (hno i hi.1)⟩
    rw [honly j hj] at hc
    exact hs.2 hc (m.tab i).iRem (by rw [hc]; decide) hg
  · exact fun hf => ⟨.inr hg, fun hc => absurd hc (hf.1 i hi)⟩

theorem sound_uncached (h : Valid m) (hl : l ≠ UF) :
    Inverts m l (uncached (some m) l) ↔ Fine m l := by
  rw [uncached]
  by_cases hs : m.iSize = 0
  · have hnot : ∀ i, InTab m i → ¬ Gives m i l := fun i hi => by
      obtain ⟨h1, h2⟩ := hi
      omega
    have hans : (rglid (some m) l).1 =
        if m.iDefault ≠ 0 ∧ l ≠ m.iDefault then NO_ACCESS else unmapped m l := by
      rw [rglid, if_pos hs]
    have hglid : glid (some m) l = unmapped m l := if_pos hs
    rw [if_pos hs, hans]
    by_cases hd : m.iDefault ≠ 0 ∧ l ≠ m.iDefault
    · rw [if_pos hd]
      refine sound_changed h hnot fun hg => ?_
      rcases unmapped_eq.mp (hglid.symm.trans hg) with hc | hc
      · exact hd.2 hc.2.symm
      · exact hd.1 hc.1
    · rw [if_neg hd]
      have hself : unmapped m l = l := by
        refine unmapped_eq.mpr ?_
        by_cases h0 : m.iDefault = 0
        · exact .inr ⟨h0, rfl⟩
        · exact .inl ⟨h0, by_contra fun hne => hd ⟨h0, fun he => hne he.symm⟩⟩
      rw [hself]
      exact sound_self h hnot (hglid.trans hself)
  · rw [if_neg hs, rglidSearch]
    have hspec := inTable_spec m l
    rcases hf : inTable m l with _ | i
    · rw [hf] at hspec
      by_cases hg : glid (some m) l = l
      · simp only [if_neg (not_not.mpr hg)]
        rw [(glid_eq_unmapped h hspec hg).2]
        exact sound_self h hspec hg
      · simp only [if_pos hg]
        exact sound_changed h hspec hg
    · rw [hf] at hspec
      exact sound_first h hl hspec

theorem setidmap_good {defval : Nat} {map : List IdTab} (h : Valid (setidmap defval map)) :
    Good (setidmap defval map) :=
  ⟨h, fun k _ hk => by
    have hlt : k < HEADSIZE + CACHESIZE := hk
    simp only [setidmap, if_pos hlt]
    exact .inl trivial⟩

theorem good_reachable (hr : idCalls.Reachable idt) : ∀ m, idt = some m → Good m := by
  refine idCalls.invariant (fun idt => ∀ m, idt = some m → Good m) ?_ ?_ hr
  · rintro idt (rfl | ⟨defval, map, rfl, hv⟩) m hm
    · cases hm
    · cases hm
      exact setidmap_good hv
  · rintro idt idt' h ⟨l, -, hl, rfl⟩ m hm
    cases idt with
    | none => cases hm
    | some m₀ =>
      obtain ⟨-, m', hm', hgood, -⟩ := (h m₀ rfl).rglid hl
      cases hm.symm.trans hm'
      exact hgood

/-- After any calls, rglid inverts glid at an id exactly where the id is fine. -/
theorem rglid_right (hr : idCalls.Reachable idt) (hl : l ≠ UF) :
    Right idt l ↔ ∀ m, idt = some m → Fine m l := by
  cases idt with
  | none => exact ⟨fun _ m hm => (by cases hm), fun _ => right_none l⟩
  | some m =>
    have hgood := good_reachable hr m rfl
    obtain ⟨hans, -⟩ := hgood.rglid hl
    have hsound := sound_uncached hgood.valid hl
    rw [← hans] at hsound
    constructor
    · intro h m' hm
      cases hm
      exact hsound.mp ⟨h.inverse, h.access⟩
    · intro h
      obtain ⟨h1, h2⟩ := hsound.mpr (h m rfl)
      exact ⟨h1, h2, hans⟩

/- Remote id 5 is local 7, the others are local 5. -/
def five : IdMap := setidmap 5 [⟨5, 7⟩]

theorem five_valid : Valid five := by
  refine ⟨rfl, by decide, fun i j hi hj hlt => ?_, fun i hi hu => ?_⟩
  · obtain ⟨h1, h2⟩ := hi
    obtain ⟨h3, h4⟩ := hj
    have hs : five.iSize = 1 := rfl
    omega
  · obtain ⟨h1, h2⟩ := hi
    have hs : five.iSize = 1 := rfl
    have heq : i = 9 := by
      simp only [TABLE, HEADSIZE, CACHESIZE] at h1 h2
      omega
    subst heq
    exact absurd hu (by decide)

theorem five_reachable : idCalls.Reachable (some five) :=
  System.reachable_init (.inr ⟨5, [⟨5, 7⟩], rfl, five_valid⟩)

/-- Local 7 after a call for it. -/
theorem rglid_right_seven : Right (rglid (some five) 7).2 7 ↔
    ∀ m, (rglid (some five) 7).2 = some m → Fine m 7 :=
  rglid_right (System.reachable_step five_reachable ⟨7, by decide, by decide, rfl⟩) (by decide)

/-- Local 5 is the image of remote 1, and is answered by NO_ACCESS. -/
theorem rglid_default : ¬ ∀ idt, idCalls.Reachable idt → ∀ l < 2 ^ 16, l ≠ UF →
    (rglid idt l).1 = NO_ACCESS → ∀ r < 2 ^ 16, glid idt r ≠ l := fun h =>
  h (some five) five_reachable 5 (by decide) (by decide) (by decide) 1 (by decide) (by decide)

end Svr32.Rfs
