import Svr32.Libgen.Hash

/-! The hash table as a set: what every entry has, and the two places where a record can be. -/
namespace Svr32.Libgen
open Svr32.Lib
variable {α : Type} {compare : α → α → Int} {getkey : α → Nat} {t t' : HHead α} {d x : α}
  {e : HEntry α} {S : List α}

/-- Equality of records, and a key that equal records share. -/
structure Consistent (compare : α → α → Int) (getkey : α → Nat) : Prop where
  refl : ∀ a, compare a a = 0
  symm : ∀ a b, compare a b = 0 → compare b a = 0
  trans : ∀ a b c, compare a b = 0 → compare b c = 0 → compare a c = 0
  key : ∀ a b, compare a b = 0 → getkey a = getkey b

def HEntry.items (e : HEntry α) : List α := e.data.toList ++ e.next

def stored (es : List (HEntry α)) : List α := es.flatMap HEntry.items

/- The two places for a record. -/
def place1 (getkey : α → Nat) (m : Nat) (x : α) : Nat := getkey x % m

def place2 (getkey : α → Nat) (m : Nat) (x : α) : Nat :=
  let h := 1 + getkey x % (m - 2)
  if place1 getkey m x < h then place1 getkey m x + m - h else place1 getkey m x - h

/-- Each record is at one of its places, those in a chain at the second; a chain hangs from an
entry with data only. -/
structure Table (getkey : α → Nat) (t : HHead α) : Prop where
  size : t.head.length = t.m
  three : 3 ≤ t.m
  word : t.m < 2 ^ 32
  chain : ∀ e ∈ t.head, e.data = none → e.next = []
  data : ∀ p e, t.head[p]? = some e → ∀ x ∈ e.data, place1 getkey t.m x = p ∨
    place2 getkey t.m x = p
  next : ∀ p e, t.head[p]? = some e → ∀ x ∈ e.next, place2 getkey t.m x = p

theorem place1_lt (h : Table getkey t) (x : α) : place1 getkey t.m x < t.head.length := by
  rw [h.size]
  exact Nat.mod_lt _ (by have := h.three; omega)

theorem place2_lt (h : Table getkey t) (x : α) : place2 getkey t.m x < t.head.length := by
  have h3 := h.three
  have h1 := place1_lt h x
  have hmod : getkey x % (t.m - 2) < t.m - 2 := Nat.mod_lt _ (by omega)
  rw [h.size] at h1 ⊢
  simp only [place2]
  split <;> omega

theorem h1_eq (h : Table getkey t) (x : α) :
    h1 t (getkey x) = some (place1 getkey t.m x) := by
  rw [h1, if_neg (by have := h.three; omega)]
  rfl

theorem second_eq (h : Table getkey t) (x : α) :
    second t (place1 getkey t.m x) (getkey x) = some (place2 getkey t.m x) := by
  have h3 := h.three
  have hw := h.word
  have hd : (t.m + 2 ^ 32 - 2) % 2 ^ 32 = t.m - 2 := by omega
  have h1 := place1_lt h x
  have hmod : getkey x % (t.m - 2) < t.m - 2 := Nat.mod_lt _ (by omega)
  rw [h.size] at h1
  rw [second, h2]
  simp only [hd, if_neg (show ¬ t.m - 2 = 0 by omega), Option.bind_eq_bind, Option.bind_some, place2]
  generalize place1 getkey t.m x = p at *
  generalize getkey x % (t.m - 2) = r at *
  by_cases hlt : p < 1 + r
  · have hneg : (p : Int) - ((1 + r : Nat) : Int) < 0 := by omega
    simp only [if_pos hneg, if_pos hlt]
    rw [if_pos (by omega), Option.some.injEq]
    omega
  · have hneg : ¬ (p : Int) - ((1 + r : Nat) : Int) < 0 := by omega
    simp only [if_neg hneg, if_neg hlt]
    rw [if_pos (by omega), Option.some.injEq]
    omega

/-- An entry is replaced: the other records stay. -/
theorem stored_set {es : List (HEntry α)} {p : Nat} (he : es[p]? = some e) :
    ∃ rest, (stored es).Perm (e.items ++ rest) ∧
      ∀ e', (stored (es.set p e')).Perm (e'.items ++ rest) := by
  obtain ⟨hp, rfl⟩ := List.getElem?_eq_some_iff.1 he
  have hsplit : es = es.take p ++ es[p] :: es.drop (p + 1) := by
    rw [List.getElem_cons_drop, List.take_append_drop]
  have hset : ∀ e', es.set p e' = es.take p ++ e' :: es.drop (p + 1) := fun e' =>
    List.set_eq_take_append_cons_drop.trans (if_pos hp)
  have hperm : ∀ e' : HEntry α, (stored (es.take p ++ e' :: es.drop (p + 1))).Perm
      (e'.items ++ (stored (es.take p) ++ stored (es.drop (p + 1)))) := by
    intro e'
    rw [stored, List.flatMap_append, List.flatMap_cons, ← stored, ← stored,
      ← List.append_assoc, ← List.append_assoc]
    exact List.Perm.append_right _ List.perm_append_comm
  refine ⟨stored (es.take p) ++ stored (es.drop (p + 1)), ?_, fun e' => ?_⟩
  · conv_lhs => rw [hsplit]
    exact hperm es[p]
  · rw [hset]
    exact hperm e'

theorem equal_iff : equal compare d x = true ↔ compare d x = 0 := beq_iff_eq

/- The places of equal records are the same. -/
theorem Consistent.place (hc : Consistent compare getkey) (m : Nat) (h : compare d x = 0) :
    place1 getkey m x = place1 getkey m d ∧ place2 getkey m x = place2 getkey m d := by
  have hk := hc.key d x h
  rw [place2, place2, place1, place1, hk]
  exact ⟨rfl, rfl⟩

/-- A record that is equal to `d` is at a place of `d`. -/
theorem Table.where (h : Table getkey t) (hc : Consistent compare getkey) (hx : x ∈ stored t.head)
    (he : compare d x = 0) :
    (∃ e, t.head[place1 getkey t.m d]? = some e ∧ e.data = some x) ∨
      ∃ e, t.head[place2 getkey t.m d]? = some e ∧ (e.data = some x ∨ x ∈ e.next) := by
  obtain ⟨hp₁, hp₂⟩ := hc.place t.m he
  obtain ⟨e, hem, hxe⟩ := List.mem_flatMap.1 hx
  obtain ⟨p, hp⟩ := List.mem_iff_getElem?.1 hem
  rcases List.mem_append.1 hxe with hdata | hnext
  · have hdata' : e.data = some x := Option.mem_toList.1 hdata
    rcases h.data p e hp x hdata' with hpx | hpx
    · refine Or.inl ⟨e, ?_, hdata'⟩
      rw [← hp₁, hpx]
      exact hp
    · refine Or.inr ⟨e, ?_, Or.inl hdata'⟩
      rw [← hp₂, hpx]
      exact hp
  · refine Or.inr ⟨e, ?_, Or.inr hnext⟩
    rw [← hp₂, h.next p e hp x hnext]
    exact hp

/- The table has the records of the set, of which no two are equal. -/
structure Has (compare : α → α → Int) (getkey : α → Nat) (S : List α) (t : HHead α) : Prop
    extends Table getkey t where
  perm : (stored t.head).Perm S
  distinct : S.Pairwise fun a b => compare a b ≠ 0

/- In a set, a record can be looked up in any order. -/
theorem find_set (hc : Consistent compare getkey) (hd : S.Pairwise fun a b => compare a b ≠ 0)
    (hx : x ∈ S) (he : compare d x = 0) : S.find? (equal compare d) = some x := by
  obtain ⟨L, R, rfl⟩ := List.append_of_mem hx
  refine List.find?_eq_some_iff_append.2 ⟨equal_iff.2 he, L, R, rfl, fun a ha => ?_⟩
  have hax := (List.pairwise_append.1 hd).2.2 a ha x List.mem_cons_self
  rw [Bool.not_eq_true', ← Bool.not_eq_true, equal_iff]
  exact fun h0 => hax (hc.trans _ _ _ (hc.symm _ _ h0) he)

theorem find_none (h : ∀ x ∈ S, compare d x ≠ 0) : S.find? (equal compare d) = none :=
  List.find?_eq_none.2 fun x hx => mt equal_iff.1 (h x hx)

theorem Table.put (h : Table getkey t) {p : Nat} {n : Int} (he : t.head[p]? = some e) {f : HEntry α}
    (hchain : f.data = none → f.next = [])
    (hdata : ∀ x ∈ f.data, place1 getkey t.m x = p ∨ place2 getkey t.m x = p)
    (hnext : ∀ x ∈ f.next, place2 getkey t.m x = p) : Table getkey (put t p f n) := by
  have hget : ∀ q g, (t.head.set p f)[q]? = some g → g = f ∧ q = p ∨ t.head[q]? = some g := by
    intro q g hg
    rw [List.getElem?_set] at hg
    by_cases hq : p = q
    · rw [if_pos hq] at hg
      split at hg
      · exact Or.inl ⟨(Option.some.inj hg).symm, hq.symm⟩
      · cases hg
    · rw [if_neg hq] at hg
      exact Or.inr hg
  refine ⟨(List.length_set ..).trans h.size, h.three, h.word, fun g hg => ?_, fun q g hg => ?_,
    fun q g hg => ?_⟩
  · rcases List.mem_or_eq_of_mem_set hg with hg | rfl
    · exact h.chain g hg
    · exact hchain
  · rcases hget q g hg with ⟨rfl, rfl⟩ | hg
    · exact hdata
    · exact h.data q g hg
  · rcases hget q g hg with ⟨rfl, rfl⟩ | hg
    · exact hnext
    · exact h.next q g hg

section at_entry
variable {p : Nat} {n : Int} {f : HEntry α}

/- A record that is in none of its places comes into an entry. -/
theorem Has.add (h : Has compare getkey S t) (he : t.head[p]? = some e)
    (hf : f.items.Perm (d :: e.items)) (ht : Table getkey (put t p f n))
    (hd : ∀ x ∈ S, compare d x ≠ 0) : Has compare getkey (d :: S) (Libgen.put t p f n) := by
  refine ⟨ht, ?_, List.pairwise_cons.2 ⟨hd, h.distinct⟩⟩
  obtain ⟨rest, hold, hnew⟩ := stored_set he
  have hmore : (f.items ++ rest).Perm (d :: (e.items ++ rest)) := hf.append_right rest
  exact (hnew f).trans (hmore.trans ((hold.symm.trans h.perm).cons d))

/- A record leaves its entry. -/
theorem Has.drop (hc : Consistent compare getkey) (h : Has compare getkey S t)
    (he : t.head[p]? = some e) (hf : e.items.Perm (x :: f.items)) (ht : Table getkey (put t p f n))
    (hx : compare d x = 0) :
    Has compare getkey (S.eraseP (equal compare d)) (Libgen.put t p f n) := by
  obtain ⟨rest, hold, hnew⟩ := stored_set he
  have hstored : (stored t.head).Perm (x :: stored (t.head.set p f)) :=
    hold.trans ((hf.append_right rest).trans ((hnew f).symm.cons x))
  have hmem : x ∈ S := h.perm.subset (hstored.symm.subset List.mem_cons_self)
  have hfind := find_set hc h.distinct hmem hx
  obtain ⟨-, L, R, rfl, hL⟩ := List.find?_eq_some_iff_append.1 hfind
  have herase : (L ++ x :: R).eraseP (equal compare d) = L ++ R := by
    rw [List.eraseP_append_right _ fun a ha => by simpa using hL a ha]
    exact congrArg _ (List.eraseP_cons_of_pos (p := equal compare d) (equal_iff.2 hx))
  rw [herase]
  refine ⟨ht, ?_, h.distinct.sublist (List.Sublist.append_left (List.sublist_cons_self x R) L)⟩
  exact (hstored.symm.trans (h.perm.trans List.perm_middle)).cons_inv

end at_entry

theorem match_some : e.match? compare d = some x ↔ e.data = some x ∧ compare d x = 0 := by
  rw [HEntry.match?, Option.filter_eq_some_iff, equal_iff]

theorem match_none : e.match? compare d = none ↔ ∀ x, e.data = some x → compare d x ≠ 0 := by
  rw [HEntry.match?, Option.filter_eq_none_iff]
  simp only [equal_iff]

theorem Table.entry1 (h : Table getkey t) (d : α) : ∃ e, t.head[place1 getkey t.m d]? = some e :=
  ⟨_, List.getElem?_eq_getElem (place1_lt h d)⟩

theorem Table.entry2 (h : Table getkey t) (d : α) : ∃ e, t.head[place2 getkey t.m d]? = some e :=
  ⟨_, List.getElem?_eq_getElem (place2_lt h d)⟩

theorem mem_stored {p : Nat} (he : t.head[p]? = some e) (hx : x ∈ e.items) : x ∈ stored t.head :=
  List.mem_flatMap.2 ⟨e, List.mem_of_getElem? he, hx⟩

theorem mem_items : x ∈ e.items ↔ e.data = some x ∨ x ∈ e.next := by
  rw [HEntry.items, List.mem_append, Option.mem_toList]

/- What the search of hlookup and of hdelete finds at the second place. -/
theorem Table.found2 (h : Table getkey t) (hc : Consistent compare getkey)
    (h₁ : t.head[place1 getkey t.m d]? = some e) (hno : e.match? compare d = none) {f : HEntry α}
    (h₂ : t.head[place2 getkey t.m d]? = some f) (hx : x ∈ stored t.head) (he : compare d x = 0) :
    x ∈ f.items := by
  rcases h.where hc hx he with ⟨e', he', hdata⟩ | ⟨f', hf', hitem⟩
  · rw [h₁, Option.some.injEq] at he'
    subst he'
    exact (match_none.1 hno x hdata he).elim
  · rw [h₂, Option.some.injEq] at hf'
    subst hf'
    exact mem_items.2 hitem

theorem Has.mem (h : Has compare getkey S t) : x ∈ stored t.head ↔ x ∈ S := h.perm.mem_iff

/-- hlookup finds the record of the set. -/
theorem Has.hlookup (hc : Consistent compare getkey) (h : Has compare getkey S t) (d : α) :
    hlookup compare getkey t d = some (S.find? (equal compare d)) := by
  obtain ⟨e, h₁⟩ := h.entry1 d
  obtain ⟨f, h₂⟩ := h.entry2 d
  rw [Libgen.hlookup, h1_eq h.toTable]
  simp only [Option.bind_eq_bind, Option.bind_some, h₁]
  cases hm : e.match? compare d with
  | some x =>
    obtain ⟨hdata, hx⟩ := match_some.1 hm
    rw [find_set hc h.distinct (h.mem.1 (mem_stored h₁ (mem_items.2 (Or.inl hdata)))) hx]
  | none =>
    simp only [second_eq h.toTable, Option.bind_some, hlookup2, Option.bind_eq_bind, h₂]
    cases hm₂ : f.match? compare d with
    | some x =>
      obtain ⟨hdata, hx⟩ := match_some.1 hm₂
      rw [find_set hc h.distinct (h.mem.1 (mem_stored h₂ (mem_items.2 (Or.inl hdata)))) hx]
    | none =>
      refine congrArg some ?_
      cases hnext : f.next.find? (equal compare d) with
      | some x =>
        have hx := equal_iff.1 (List.find?_some hnext)
        have hmem := mem_stored h₂ (mem_items.2 (Or.inr (List.mem_of_find?_eq_some hnext)))
        exact (find_set hc h.distinct (h.mem.1 hmem) hx).symm
      | none =>
        refine (find_none fun x hx he => ?_).symm
        rcases mem_items.1 (h.found2 hc h₁ hm h₂ (h.mem.2 hx) he) with hdata | hx
        · exact match_none.1 hm₂ x hdata he
        · exact List.find?_eq_none.1 hnext x hx (equal_iff.2 he)

theorem items_moveIn (h : e.data = some x) : e.items.Perm (x :: e.moveIn.items) := by
  rw [HEntry.items, HEntry.moveIn, h]
  cases e.next with
  | nil => exact List.Perm.refl _
  | cons q next => exact List.Perm.refl _

theorem mem_moveIn {y : α} (hy : y ∈ e.moveIn.items) : y ∈ e.next := by
  rw [HEntry.moveIn] at hy
  cases hn : e.next with
  | nil =>
    rw [hn] at hy
    cases hy
  | cons q next =>
    rw [hn] at hy
    exact hy

theorem Has.moveIn (hc : Consistent compare getkey) (h : Has compare getkey S t) {p : Nat} {n : Int}
    (he : t.head[p]? = some e) (hm : e.match? compare d = some x) :
    Has compare getkey (S.eraseP (equal compare d)) (put t p e.moveIn n) := by
  obtain ⟨hdata, hx⟩ := match_some.1 hm
  have hnext := h.next p e he
  refine h.drop hc he (items_moveIn hdata) (h.put he (fun h0 => ?_) (fun y hy => ?_) fun y hy => ?_)
    hx
  · rw [HEntry.moveIn] at h0 ⊢
    split at h0
    · cases h0
    · rfl
  · exact Or.inr (hnext y (mem_moveIn (mem_items.2 (Or.inl hy))))
  · exact hnext y (mem_moveIn (mem_items.2 (Or.inr hy)))

/- The mark that the two sets have the record, or have not. -/
theorem any_iff : S.any (equal compare d) = true ↔ ∃ x ∈ S, compare d x = 0 := by
  rw [List.any_eq_true]
  simp only [equal_iff]

/-- hdelete takes the record out of the set. -/
theorem Has.hdelete (hc : Consistent compare getkey) (h : Has compare getkey S t) (d : α) :
    ∃ t', hdelete compare getkey t d = some (t', S.any (equal compare d)) ∧ t'.m = t.m ∧
      Has compare getkey (S.eraseP (equal compare d)) t' := by
  obtain ⟨e, h₁⟩ := h.entry1 d
  obtain ⟨f, h₂⟩ := h.entry2 d
  have hany : ∀ x ∈ stored t.head, compare d x = 0 → S.any (equal compare d) = true :=
    fun x hx he => any_iff.2 ⟨x, h.mem.1 hx, he⟩
  rw [Libgen.hdelete, h1_eq h.toTable]
  simp only [Option.bind_eq_bind, Option.bind_some, h₁]
  cases hm : e.match? compare d with
  | some x =>
    obtain ⟨hdata, hx⟩ := match_some.1 hm
    rw [hany x (mem_stored h₁ (mem_items.2 (Or.inl hdata))) hx]
    exact ⟨_, rfl, rfl, h.moveIn hc h₁ hm⟩
  | none =>
    simp only [second_eq h.toTable, Option.bind_some, hdelete2, Option.bind_eq_bind, h₂]
    cases hm₂ : f.match? compare d with
    | some x =>
      obtain ⟨hdata, hx⟩ := match_some.1 hm₂
      rw [hany x (mem_stored h₂ (mem_items.2 (Or.inl hdata))) hx]
      exact ⟨_, rfl, rfl, h.moveIn hc h₂ hm₂⟩
    | none =>
      by_cases hn : f.next.any (equal compare d) = true
      · obtain ⟨x, hx, he⟩ := any_iff.1 hn
        simp only [hn, if_true]
        rw [hany x (mem_stored h₂ (mem_items.2 (Or.inr hx))) he]
        refine ⟨_, rfl, rfl, ?_⟩
        obtain ⟨y, L, R, -, hy, hL, hR⟩ := List.exists_of_eraseP hx (equal_iff.2 he)
        have hnext := h.next _ f h₂
        have hperm : f.items.Perm
            (y :: HEntry.items { f with next := f.next.eraseP (equal compare d) }) := by
          rw [HEntry.items, HEntry.items, hR, hL]
          exact (List.Perm.append_left _ List.perm_middle).trans List.perm_middle
        refine h.drop hc h₂ hperm (h.put h₂ (fun h0 => ?_) (h.data _ f h₂) fun z hz =>
          hnext z (List.mem_of_mem_eraseP hz)) (equal_iff.1 hy)
        rw [h.chain f (List.mem_of_getElem? h₂) h0] at hx
        cases hx
      · have hno : ∀ x ∈ S, compare d x ≠ 0 := by
          intro x hx he
          rcases mem_items.1 (h.found2 hc h₁ hm h₂ (h.mem.2 hx) he) with hdata | hx
          · exact match_none.1 hm₂ x hdata he
          · exact hn (any_iff.2 ⟨x, hx, he⟩)
        have hany' : S.any (equal compare d) = false := by
          rw [← Bool.not_eq_true, any_iff]
          rintro ⟨x, hx, he⟩
          exact hno x hx he
        rw [Bool.not_eq_true] at hn
        simp only [hn, Bool.false_eq_true, if_false]
        rw [hany', List.eraseP_of_forall_not fun x hx => mt equal_iff.1 (hno x hx)]
        exact ⟨t, rfl, rfl, h⟩

/-- hinsert can be asked for `d`: its first entry has a record, or no record of the table is equal
to it. -/
def Usual (compare : α → α → Int) (getkey : α → Nat) (t : HHead α) (d : α) : Prop :=
  hlookup compare getkey t d = some none ∨
    ∃ e ∈ t.head[place1 getkey t.m d]?, e.data ≠ none

/- A new record comes into an empty entry. -/
theorem Has.fill (h : Has compare getkey S t) {p : Nat} {n : Int}
    (hp : place1 getkey t.m d = p ∨ place2 getkey t.m d = p) (he : t.head[p]? = some e)
    (h0 : e.data = none) (hd : ∀ x ∈ S, compare d x ≠ 0) :
    Has compare getkey (d :: S) (put t p { e with data := some d } n) := by
  have hnext : e.next = [] := h.chain e (List.mem_of_getElem? he) h0
  refine h.add he ?_ (h.put he (fun h => (nomatch h)) (fun x hx => ?_) fun x hx => ?_) hd
  · rw [HEntry.items, HEntry.items, h0]
    exact List.Perm.refl _
  · rw [Option.mem_def, Option.some.injEq] at hx
    exact hx ▸ hp
  · simp only [hnext] at hx
    cases hx

/-- A record that the set has not is inserted. -/
theorem Has.hinsert_new (h : Has compare getkey S t) (hd : ∀ x ∈ S, compare d x ≠ 0) :
    ∃ t', hinsert compare getkey t d = some (t', true) ∧ t'.m = t.m ∧
      Has compare getkey (d :: S) t' := by
  obtain ⟨e, h₁⟩ := h.entry1 d
  obtain ⟨f, h₂⟩ := h.entry2 d
  have hno : ∀ {p : Nat} {e : HEntry α} {x : α}, t.head[p]? = some e → x ∈ e.items →
      equal compare d x = false := fun he hx => by
    rw [← Bool.not_eq_true, equal_iff]
    exact hd _ (h.mem.1 (mem_stored he hx))
  rw [hinsert, h1_eq h.toTable]
  simp only [Option.bind_eq_bind, Option.bind_some, h₁]
  cases hdata : e.data with
  | none => exact ⟨_, rfl, rfl, h.fill (Or.inl rfl) h₁ hdata hd⟩
  | some x =>
    simp only [hno h₁ (mem_items.2 (Or.inl hdata)), Bool.false_eq_true, if_false,
      second_eq h.toTable, Option.bind_some, hinsert2, Option.bind_eq_bind, h₂]
    cases hdata₂ : f.data with
    | none => exact ⟨_, rfl, rfl, h.fill (Or.inr rfl) h₂ hdata₂ hd⟩
    | some y =>
      have hany : f.next.any (equal compare d) = false := by
        rw [List.any_eq_false]
        intro z hz
        rw [hno h₂ (mem_items.2 (Or.inr hz))]
        exact Bool.false_ne_true
      simp only [hno h₂ (mem_items.2 (Or.inl hdata₂)), hany, Bool.false_eq_true, or_self, if_false]
      refine ⟨_, rfl, rfl, h.add h₂ ?_ (h.put h₂ (fun h0 => (nomatch h0))
        (fun z hz => h.data _ f h₂ z (hdata₂ ▸ hz)) fun z hz => ?_) hd⟩
      · rw [HEntry.items, HEntry.items, hdata₂, ← List.append_assoc]
        exact List.perm_append_singleton d _
      · rcases List.mem_append.1 hz with hz | hz
        · exact h.next _ f h₂ z hz
        · rw [List.mem_singleton.1 hz]

/-- A record that the set has is a duplicate, unless the first entry is empty. -/
theorem Has.hinsert_old (hc : Consistent compare getkey) (h : Has compare getkey S t)
    (hx : x ∈ S) (he : compare d x = 0) (h₁ : t.head[place1 getkey t.m d]? = some e) :
    (e.data ≠ none → hinsert compare getkey t d = some (t, false)) ∧
      (e.data = none → ∃ t', hinsert compare getkey t d = some (t', true)) := by
  obtain ⟨f, h₂⟩ := h.entry2 d
  rw [hinsert, h1_eq h.toTable]
  simp only [Option.bind_eq_bind, Option.bind_some, h₁]
  cases hdata : e.data with
  | none => exact ⟨fun hne => (hne rfl).elim, fun _ => ⟨_, rfl⟩⟩
  | some y =>
    refine ⟨fun _ => ?_, fun h0 => (nomatch h0)⟩
    by_cases hy : equal compare d y = true
    · simp only [hy, if_true]
    · have hm : e.match? compare d = none := match_none.2 fun z hz => by
        rw [hdata, Option.some.injEq] at hz
        exact hz ▸ mt equal_iff.2 hy
      simp only [hy, Bool.false_eq_true, if_false, second_eq h.toTable, Option.bind_some, hinsert2,
        Option.bind_eq_bind, h₂]
      rcases mem_items.1 (h.found2 hc h₁ hm h₂ (h.mem.2 hx) he) with hxf | hxf
      · simp only [hxf, equal_iff.2 he, true_or, if_true]
      · cases hf : f.data with
        | none =>
          rw [h.chain f (List.mem_of_getElem? h₂) hf] at hxf
          cases hxf
        | some z =>
          have hany : f.next.any (equal compare d) = true := any_iff.2 ⟨x, hxf, he⟩
          simp only [hany, or_true, if_true]

/- The table as a set: what an operation is for. -/
def setOp (compare : α → α → Int) (S : List α) : HashOp α → List α × Answer α
  | .hinsert d =>
    if S.any (equal compare d) = true then (S, .flag false) else (d :: S, .flag true)
  | .hlookup d => (S, .data (S.find? (equal compare d)))
  | .hdelete d => (S.eraseP (equal compare d), .flag (S.any (equal compare d)))

def Proper (compare : α → α → Int) (getkey : α → Nat) (t : HHead α) : HashOp α → Prop
  | .hinsert d => Usual compare getkey t d
  | .hlookup _ => True
  | .hdelete _ => True

/- Runs in which no record is inserted again while its first entry is empty. -/
inductive HashRun (compare : α → α → Int) (getkey : α → Nat) (m : Nat) : HHead α → List α → Prop
  | start : HashRun compare getkey m (hcreate m) []
  | step {t t' : HHead α} {S : List α} {a : Answer α} (o : HashOp α) :
      HashRun compare getkey m t S → Proper compare getkey t o →
      hashOp compare getkey t o = some (t', a) → HashRun compare getkey m t' (setOp compare S o).1

theorem has_hcreate {m : Nat} (h3 : 3 ≤ m) (hw : m < 2 ^ 32) :
    Has compare getkey [] (hcreate m : HHead α) := by
  have hget : ∀ (p : Nat) (e : HEntry α), (List.replicate m (⟨none, []⟩ : HEntry α))[p]? = some e →
      e = ⟨none, []⟩ := fun p e he => List.eq_of_mem_replicate (List.mem_of_getElem? he)
  refine ⟨⟨List.length_replicate, h3, hw, fun e he _ => ?_, fun p e he x hx => ?_,
    fun p e he x hx => ?_⟩, ?_, List.Pairwise.nil⟩
  · rw [List.eq_of_mem_replicate he]
  · rw [hget p e he] at hx
    cases hx
  · rw [hget p e he] at hx
    cases hx
  · have hnil : stored (List.replicate m (⟨none, []⟩ : HEntry α)) = [] :=
      List.flatMap_eq_nil_iff.2 fun e he => by rw [List.eq_of_mem_replicate he]; rfl
    rw [hcreate, hnil]

theorem any_false (h : ¬ S.any (equal compare d) = true) : ∀ x ∈ S, compare d x ≠ 0 :=
  fun x hx he => h (any_iff.2 ⟨x, hx, he⟩)

theorem Has.hashOp (hc : Consistent compare getkey) (h : Has compare getkey S t) (o : HashOp α)
    (ho : Proper compare getkey t o) : ∃ t',
      hashOp compare getkey t o = some (t', (setOp compare S o).2) ∧
      Has compare getkey (setOp compare S o).1 t' := by
  cases o with
  | hinsert d =>
    by_cases hany : S.any (equal compare d) = true
    · obtain ⟨x, hx, he⟩ := any_iff.1 hany
      obtain ⟨e, h₁⟩ := h.entry1 d
      have hne : e.data ≠ none := by
        rcases ho with ho | ⟨f, hf, hne⟩
        · rw [h.hlookup hc d, find_set hc h.distinct hx he] at ho
          cases ho
        · rw [h₁, Option.mem_def, Option.some.injEq] at hf
          exact hf ▸ hne
      refine ⟨t, ?_, ?_⟩
      · rw [Libgen.hashOp, (h.hinsert_old hc hx he h₁).1 hne, setOp, if_pos hany]
        rfl
      · rw [setOp, if_pos hany]
        exact h
    · obtain ⟨t', hins, -, hh⟩ := h.hinsert_new (any_false hany)
      refine ⟨t', ?_, ?_⟩
      · rw [Libgen.hashOp, hins, setOp, if_neg hany]
        rfl
      · rw [setOp, if_neg hany]
        exact hh
  | hlookup d =>
    refine ⟨t, ?_, h⟩
    rw [Libgen.hashOp, h.hlookup hc d]
    rfl
  | hdelete d =>
    obtain ⟨t', hdel, -, hh⟩ := h.hdelete hc d
    refine ⟨t', ?_, hh⟩
    rw [Libgen.hashOp, hdel]
    rfl

/-- An equal record that is inserted while its first entry is empty is taken for a new one. -/
theorem Has.improper (hc : Consistent compare getkey) (h : Has compare getkey S t) (o : HashOp α)
    (ho : ¬ Proper compare getkey t o) :
    (∃ t', Libgen.hashOp compare getkey t o = some (t', .flag true)) ∧
      (setOp compare S o).2 = .flag false := by
  cases o with
  | hinsert d =>
    obtain ⟨hlook, hdata⟩ := not_or.1 ho
    rw [h.hlookup hc d] at hlook
    have hany : S.any (equal compare d) = true := by
      by_contra hany
      exact hlook (congrArg some (find_none (any_false hany)))
    obtain ⟨x, hx, he⟩ := any_iff.1 hany
    obtain ⟨e, h₁⟩ := h.entry1 d
    have h0 : e.data = none := by
      by_contra hne
      exact hdata ⟨e, h₁, hne⟩
    obtain ⟨t', hins⟩ := (h.hinsert_old hc hx he h₁).2 h0
    refine ⟨⟨t', ?_⟩, ?_⟩
    · rw [Libgen.hashOp, hins]
      rfl
    · rw [setOp, if_pos hany]
  | hlookup d => exact (ho trivial).elim
  | hdelete d => exact (ho trivial).elim

/-- In such a run the table is the set, and the next operation answers as the set does exactly if
it does not insert a record again while the first entry of the record is empty. -/
theorem hash_run {m : Nat} (hc : Consistent compare getkey) (h3 : 3 ≤ m) (hw : m < 2 ^ 32)
    (hr : HashRun compare getkey m t S) :
    Has compare getkey S t ∧ ∀ o,
      (Proper compare getkey t o → ∃ t', hashOp compare getkey t o =
        some (t', (setOp compare S o).2) ∧ Has compare getkey (setOp compare S o).1 t') ∧
      (¬ Proper compare getkey t o → ∃ t', hashOp compare getkey t o = some (t', .flag true) ∧
        (setOp compare S o).2 = .flag false) := by
  have hh : Has compare getkey S t := by
    induction hr with
    | start => exact has_hcreate h3 hw
    | step o _ ho hop ih =>
      obtain ⟨t', hop', hh⟩ := ih.hashOp hc o ho
      rw [hop] at hop'
      cases hop'
      exact hh
  refine ⟨hh, fun o => ⟨hh.hashOp hc o, fun ho => ?_⟩⟩
  obtain ⟨⟨t', hop⟩, hset⟩ := hh.improper hc o ho
  exact ⟨t', hop, hset⟩

/- Numbers that are their own keys. -/
theorem consistent_sub : Consistent (fun a b : Nat => (a : Int) - b) id where
  refl := fun a => by simp
  symm := fun a b h => by omega
  trans := fun a b c h₁ h₂ => by omega
  key := fun a b h => by simp only [id]; omega

def three : HHead Nat := ⟨[⟨none, []⟩, ⟨some 4, []⟩, ⟨none, []⟩], 1, 3⟩

theorem hash_run_three :
    Has (fun a b : Nat => (a : Int) - b) id [4] three ∧ ∀ o,
      (Proper (fun a b : Nat => (a : Int) - b) id three o → ∃ t',
        hashOp (fun a b : Nat => (a : Int) - b) id three o =
          some (t', (setOp (fun a b : Nat => (a : Int) - b) [4] o).2) ∧
        Has (fun a b : Nat => (a : Int) - b) id (setOp (fun a b : Nat => (a : Int) - b) [4] o).1
          t') ∧
      (¬ Proper (fun a b : Nat => (a : Int) - b) id three o → ∃ t',
        hashOp (fun a b : Nat => (a : Int) - b) id three o = some (t', .flag true) ∧
          (setOp (fun a b : Nat => (a : Int) - b) [4] o).2 = .flag false) :=
  @hash_run Nat (fun a b => a - b) id three [4] 3 consistent_sub (by decide) (by decide)
    (.step (a := .flag true) (.hinsert 4) .start (Or.inl (by decide +kernel)) (by decide +kernel))

/-- In a table of 5, 1 and 16 share their two places, and 16 is inserted twice. -/
theorem equal_inserted_twice : (do
    let (t, _) ← hinsert (fun a b : Nat => (a : Int) - b) id (hcreate 5) 1
    let (t, _) ← hinsert (fun a b : Nat => (a : Int) - b) id t 16
    let (t, _) ← hdelete (fun a b : Nat => (a : Int) - b) id t 1
    hinsert (fun a b : Nat => (a : Int) - b) id t 16) =
      some (⟨[⟨none, []⟩, ⟨some 16, []⟩, ⟨none, []⟩, ⟨none, []⟩, ⟨some 16, []⟩], 2, 5⟩, true) := by
  decide +kernel

end Svr32.Libgen
