import Svr32.Malloc.Map
import Svr32.Lib.System

/-! mfree is the coalescing insertion of the freed span, unless the table is full. -/
namespace Svr32.Malloc
open Svr32.Lib

/- The outcome of one mfree that gives back the span `s`. -/
structure Gives (m : Map) (es : List (Span Nat)) (s : Span Nat) (r : Mfreed) : Prop where
  refused : r.overflow = true → r.map = m ∧ m.mapsize = 0
  accepted : r.overflow = false → Holds r.map (give s es) ∧
    r.map.mapsize + (give s es).length = m.mapsize + es.length

/-- The warning path writes nothing. -/
theorem mfree_overflow {m : Map} {size a : Nat} {r : Mfreed} (h : mfree m size a = some r)
    (ho : r.overflow = true) : r.map = m := by
  have hw : ∀ m', (wakeWant m').overflow = false := by
    intro m'
    unfold wakeWant
    split <;> rfl
  have hins : ∀ pre b bs, mfree.mfreeInsert m pre b bs size a = some r → r.map = m := by
    intro pre b bs hi
    unfold mfree.mfreeInsert at hi
    split at hi
    · obtain rfl := Option.some.inj hi
      simp [hw] at ho
    · split at hi
      · obtain rfl := Option.some.inj hi
        rfl
      · obtain ⟨l, -, rfl⟩ := Option.map_eq_some_iff.mp hi
        simp [hw] at ho
  unfold mfree at h
  split at h
  · obtain rfl := Option.some.inj h
    rfl
  · dsimp only at h
    split at h
    · simp at h
    · split at h
      · split at h
        · obtain ⟨m', -, rfl⟩ := Option.map_eq_some_iff.mp h
          simp [hw] at ho
        · exact hins _ _ _ h
      · exact hins _ _ _ h

theorem wakeWant_gives {m m' : Map} {es : List (Span Nat)} {s : Span Nat}
    (h : Holds m' (give s es))
    (hl : m'.mapsize + (give s es).length = m.mapsize + es.length) :
    Gives m es s (wakeWant m') := by
  unfold wakeWant
  split
  · exact ⟨by simp, fun _ => ⟨h, hl⟩⟩
  · exact ⟨by simp, fun _ => ⟨⟨h.slots, h.sep, h.bound, h.room⟩, hl⟩⟩

theorem give_bound {s : Span Nat} {es : List (Span Nat)} (hs : 1 ≤ s.lo ∧ s.hi < 2 ^ 32)
    (hb : ∀ t ∈ es, 1 ≤ t.lo ∧ t.hi < 2 ^ 32) : ∀ t ∈ give s es, 1 ≤ t.lo ∧ t.hi < 2 ^ 32 := by
  intro t ht
  have hc := give_cover s es
  have hin : ∀ x ∈ t.set, 1 ≤ x ∧ x + 1 < 2 ^ 32 := by
    intro x hx
    have hx' : x ∈ s.set ∪ cover es := hc ▸ subset_cover ht hx
    rcases hx' with hx' | ⟨u, hu, hx'⟩
    · have h1 := hx'.1
      have h2 := hx'.2
      omega
    · have h1 := hx'.1
      have h2 := hx'.2
      have h3 := hb u hu
      omega
  have hlt := t.lt
  have hlo := hin t.lo t.lo_mem
  have hhi := hin (t.hi - 1) ⟨by omega, by omega⟩
  omega

/-- Where the scan of mfree stops, on a table split at the freed span. -/
theorem scan_split {s : Span Nat} {l₁ l₂ : List (Span Nat)} (k : Nat)
    (h₁ : ∀ t ∈ l₁, t.hi ≤ s.lo) (h₂ : ∀ t ∈ l₂, s.hi ≤ t.lo) :
    let p : Slot → Bool := fun b => decide (b.mAddr ≤ s.lo ∧ b.mSize ≠ 0)
    let slots := l₁.map slotOf ++ (l₂.map slotOf ++ zeros (k + 1))
    slots.takeWhile p = l₁.map slotOf ∧
      slots.dropWhile p = l₂.map slotOf ++ zeros (k + 1) := by
  intro p slots
  have hp : ∀ b ∈ l₁.map slotOf, p b = true := by
    intro b hb
    obtain ⟨t, ht, rfl⟩ := List.mem_map.mp hb
    have hlo : t.lo ≤ s.lo := t.lt.le.trans (h₁ t ht)
    simp [p, hlo, t.size_pos.ne']
  have hstop : (l₂.map slotOf ++ zeros (k + 1)).takeWhile p = [] ∧
      (l₂.map slotOf ++ zeros (k + 1)).dropWhile p = l₂.map slotOf ++ zeros (k + 1) := by
    cases l₂ with
    | nil => simp [zeros_succ, p, zeroSlot]
    | cons u us =>
      have hu := h₂ u (by simp)
      have hlt := s.lt
      have : ¬ u.lo ≤ s.lo := by omega
      simp [p, this]
  constructor
  · simp only [slots]
    rw [List.takeWhile_append_of_pos hp, hstop.1, List.append_nil]
  · simp only [slots]
    rw [List.dropWhile_append_of_pos hp, hstop.2]

/-- The entry ending at the freed span grows over it and over a closed gap. -/
theorem coalesce_gives {m : Map} {l₁ l₂ : List (Span Nat)} {t s : Span Nat}
    {b : Slot} {bs : List Slot} (hb : l₂.map slotOf ++ zeros (m.mapsize + 1) = b :: bs)
    (h : Holds m (l₁ ++ t :: l₂)) (hs : 1 ≤ s.lo ∧ s.hi < 2 ^ 32) (ht : t.hi = s.lo)
    (h₂ : ∀ u ∈ l₂, s.hi ≤ u.lo)
    (hg : give s (l₁ ++ t :: l₂) = l₁ ++ joinRight (t.join s ht) l₂)
    (hsep : Separated (give s (l₁ ++ t :: l₂))) :
    ∃ r, coalesce m (l₁.map slotOf) (slotOf t) s.size s.lo (b :: bs) = some r ∧
      Holds r (give s (l₁ ++ t :: l₂)) ∧
      r.mapsize + (give s (l₁ ++ t :: l₂)).length = m.mapsize + (l₁ ++ t :: l₂).length := by
  have hbound := give_bound hs h.bound
  have hts := t.lo_add_size
  have hss := s.lo_add_size
  have hroom := h.room
  have hp : (⟨u32 (t.size + s.size), t.lo⟩ : Slot) = slotOf (t.join s ht) := by
    have : u32 (t.size + s.size) = t.size + s.size := u32_eq (by omega)
    simp only [slotOf, Span.join, Span.size, Slot.mk.injEq, and_true] at this ⊢
    simp only [Span.size] at hts hss
    omega
  simp only [List.length_append, List.length_cons] at hroom
  rw [← hb]
  cases l₂ with
  | nil =>
    refine ⟨{ m with slots := l₁.map slotOf ++ slotOf (t.join s ht) :: zeros (m.mapsize + 1) },
      ?_, ⟨?_, hsep, hbound, ?_⟩, ?_⟩
    · simp [zeros_succ, coalesce, zeroSlot, hp]
    · simp [hg, joinRight]
    · simp [hg, joinRight]; omega
    · simp [hg, joinRight]
  | cons u us =>
    have hu : u.lo ≠ 0 := by
      have := h.bound u (by simp)
      omega
    have ha : u32 (s.lo + s.size) = s.hi := by rw [hss]; exact u32_eq hs.2
    by_cases hj : s.hi = u.lo
    · have hjoin : (t.join s ht).hi = u.lo := hj
      have hus := u.lo_add_size
      have hub := h.bound u (by simp)
      have hq : (⟨u32 ((slotOf (t.join s ht)).mSize + u.size), t.lo⟩ : Slot) =
          slotOf ((t.join s ht).join u hjoin) := by
        have : u32 ((t.join s ht).size + u.size) = (t.join s ht).size + u.size :=
          u32_eq (by simp only [Span.size, Span.join] at *; omega)
        rw [slotOf_mSize, this]
        simp only [slotOf, Span.join, Span.size, Slot.mk.injEq, and_true]
        simp only [Span.size] at hus hts hss
        omega
      have hm : u32 (m.mapsize + 1) = m.mapsize + 1 := u32_eq (by omega)
      refine ⟨{ m with
          mapsize := m.mapsize + 1
          slots := l₁.map slotOf ++ slotOf ((t.join s ht).join u hjoin) ::
            (us.map slotOf ++ zeros (m.mapsize + 2)) }, ?_, ⟨?_, hsep, hbound, ?_⟩, ?_⟩
      · rw [← hp] at hq
        simp [coalesce, hu, ha, hj, carryDown_entry, hm, ← hq]
      · simp [hg, joinRight, hjoin]
      · simp only [hg, joinRight, hjoin, dif_pos, List.length_append, List.length_cons] at *
        omega
      · simp only [hg, joinRight, hjoin, dif_pos, List.length_append, List.length_cons]
        omega
    · have hjoin : ¬ (t.join s ht).hi = u.lo := hj
      refine ⟨{ m with slots := l₁.map slotOf ++ slotOf (t.join s ht) ::
          (slotOf u :: (us.map slotOf ++ zeros (m.mapsize + 1))) },
        ?_, ⟨?_, hsep, hbound, ?_⟩, ?_⟩
      · simp [coalesce, ha, hj, hp]
      · simp [hg, joinRight, hjoin]
      · simp [hg, joinRight, hjoin]; simp at hroom; omega
      · simp [hg, joinRight, hjoin]

/-- Nothing ends at the freed span: the next entry grows down over it, or a new
entry is made, or the table is full. -/
theorem mfreeInsert_gives {m : Map} {l₁ l₂ : List (Span Nat)} {s : Span Nat}
    {b : Slot} {bs : List Slot} (hb : l₂.map slotOf ++ zeros (m.mapsize + 1) = b :: bs)
    (h : Holds m (l₁ ++ l₂)) (hs : 1 ≤ s.lo ∧ s.hi < 2 ^ 32)
    (hg : give s (l₁ ++ l₂) = l₁ ++ joinRight s l₂)
    (hsep : Separated (give s (l₁ ++ l₂))) :
    ∃ r, mfree.mfreeInsert m (l₁.map slotOf) b bs s.size s.lo = some r ∧
      Gives m (l₁ ++ l₂) s r := by
  have hbound := give_bound hs h.bound
  have hss := s.lo_add_size
  have hroom := h.room
  simp only [List.length_append] at hroom
  have ha : u32 (s.lo + s.size) = s.hi := by rw [hss]; exact u32_eq hs.2
  -- the two inserting branches share their outcome: carryUp into the spare slots
  have hinsert : (joinRight s l₂ = s :: l₂) →
      ∃ r, (if m.mapsize = 0 then some (⟨m, true, false⟩ : Mfreed)
        else (carryUp ⟨s.size, s.lo⟩ (l₂.map slotOf ++ zeros (m.mapsize + 1))).map fun l =>
          wakeWant { m with mapsize := m.mapsize - 1, slots := l₁.map slotOf ++ l }) = some r ∧
        Gives m (l₁ ++ l₂) s r := by
    intro hj
    by_cases hz : m.mapsize = 0
    · exact ⟨⟨m, true, false⟩, by simp [hz], ⟨fun _ => ⟨rfl, hz⟩, by simp⟩⟩
    · obtain ⟨k, hk⟩ := Nat.exists_eq_succ_of_ne_zero hz
      refine ⟨wakeWant { m with
          mapsize := m.mapsize - 1
          slots := l₁.map slotOf ++ ⟨s.size, s.lo⟩ :: (l₂.map slotOf ++ zeros m.mapsize) },
        by simp only [hz, if_false, carryUp_eq, Option.map_some],
        wakeWant_gives ⟨?_, hsep, hbound, ?_⟩ ?_⟩
      · simp [hg, hj, hk, slotOf]
      · simp only [hg, hj, List.length_append, List.length_cons]
        omega
      · simp only [hg, hj, List.length_append, List.length_cons]
        omega
  cases l₂ with
  | nil =>
    obtain ⟨r, hr, hgv⟩ := hinsert rfl
    refine ⟨r, ?_, hgv⟩
    obtain ⟨rfl, -⟩ : zeroSlot = b ∧ zeros m.mapsize = bs := by simpa [zeros_succ] using hb
    rw [← hr, hb]
    simp [mfree.mfreeInsert, zeroSlot]
  | cons u us =>
    obtain ⟨rfl, hbs⟩ : slotOf u = b ∧ us.map slotOf ++ zeros (m.mapsize + 1) = bs := by
      simpa using hb
    by_cases hj : s.hi = u.lo
    · have hub := h.bound u (by simp)
      have hus := u.lo_add_size
      have hsl := s.lt
      have hq : (⟨u32 (u.size + s.size), u32sub u.lo s.size⟩ : Slot) = slotOf (s.join u hj) := by
        have h1 : u32 (u.size + s.size) = u.size + s.size := u32_eq (by omega)
        have h2 : u32sub u.lo s.size = u.lo - s.size := u32sub_eq (by omega) (by omega)
        rw [h1, h2]
        simp only [slotOf, Span.join, Span.size, Slot.mk.injEq]
        simp only [Span.size] at hus hss
        omega
      refine ⟨wakeWant { m with slots := l₁.map slotOf ++
            ⟨u32 (u.size + s.size), u32sub u.lo s.size⟩ :: bs },
        by simp [mfree.mfreeInsert, ha, hj, u.size_pos.ne'],
        wakeWant_gives ⟨?_, hsep, hbound, ?_⟩ ?_⟩
      · simp [hg, joinRight, hj, hq, ← hbs]
      · simp only [hg, joinRight, hj, dif_pos, List.length_append, List.length_cons] at hroom ⊢
        omega
      · simp only [hg, joinRight, hj, dif_pos, List.length_append, List.length_cons]
    · obtain ⟨r, hr, hgv⟩ := hinsert (by simp [joinRight, hj])
      refine ⟨r, ?_, hgv⟩
      rw [← hr, hb]
      simp [mfree.mfreeInsert, ha, hj]

/-- mfree of a span that meets no free unit never leaves the table, and adds
exactly that span, coalesced, unless it warns. -/
theorem mfree_gives {m : Map} {es : List (Span Nat)} (h : Holds m es) {s : Span Nat}
    (hs : 1 ≤ s.lo ∧ s.hi < 2 ^ 32) (hd : Disjoint s.set (cover es)) :
    ∃ r, mfree m s.size s.lo = some r ∧ Gives m es s r := by
  obtain ⟨l₁, l₂, rfl, h₁, h₂⟩ := split_at h.sep hd
  have hsep := give_separated h.sep hd
  have hslots : m.slots = l₁.map slotOf ++ (l₂.map slotOf ++ zeros (m.mapsize + 1)) := by
    rw [h.slots, List.map_append, List.append_assoc]
  obtain ⟨htake, hdrop⟩ := scan_split m.mapsize h₁ h₂
  obtain ⟨b, bs, hb⟩ : ∃ b bs, l₂.map slotOf ++ zeros (m.mapsize + 1) = b :: bs := by
    cases l₂ <;> exact ⟨_, _, rfl⟩
  unfold mfree
  simp only [s.size_pos.ne', if_false, hslots]
  rw [htake, hdrop, hb]
  rcases List.eq_nil_or_concat' l₁ with rfl | ⟨l, t, rfl⟩
  · have hg : give s ([] ++ l₂) = [] ++ joinRight s l₂ := by simpa using give_behind h₂
    exact mfreeInsert_gives hb h hs hg hsep
  · have hlast : ((l ++ [t]).map slotOf).getLast? = some (slotOf t) := by simp
    have hinit : ((l ++ [t]).map slotOf).dropLast = l.map slotOf := by simp
    have htl := t.lo_add_size
    have htb := h.bound t (by simp)
    have hend : u32 ((slotOf t).mAddr + (slotOf t).mSize) = t.hi := by
      simp only [slotOf_mAddr, slotOf_mSize, htl]
      exact u32_eq htb.2
    have hl : ∀ u ∈ l, u.hi < s.lo := by
      intro u hu
      have hut : u.hi < t.lo := by
        have hp := (List.pairwise_append.mp h.sep).1
        exact (List.pairwise_append.mp hp).2.2 u hu t (by simp)
      exact hut.trans (t.lt.trans_le (h₁ t (by simp)))
    simp only [hlast, hend, hinit]
    rcases (h₁ t (by simp)).lt_or_eq with hlt | heq
    · have hg : give s (l ++ [t] ++ l₂) = l ++ [t] ++ joinRight s l₂ := by
        rw [give_append, give_behind h₂]
        intro u hu
        rcases List.mem_append.mp hu with hu | hu
        · exact hl u hu
        · simpa [List.mem_singleton.mp hu] using hlt
      simp only [hlt.ne, if_false]
      exact mfreeInsert_gives hb h hs hg hsep
    · rw [List.append_assoc] at h hsep ⊢
      have hg : give s (l ++ t :: l₂) = l ++ joinRight (t.join s heq) l₂ := by
        rw [give_append _ hl, give_touching heq]
      obtain ⟨r, hr, hh, hlen⟩ := coalesce_gives hb h hs heq h₂ hg hsep
      exact ⟨wakeWant r, by simp only [heq, if_true, hr, Option.map_some], wakeWant_gives hh hlen⟩

end Svr32.Malloc

/-! Runs of malloc and mfree on one map, with the set of units handed out as a
ghost. Steps are the calls that do not take the overflow warning. -/
namespace Svr32.Malloc
open Svr32.Lib

/- Length of the declared table, header included: a C int, and at least 2. -/
structure TableLen where
  len : Nat
  two_le : 2 ≤ len
  lt : len < 2 ^ 31

structure State where
  map : Map
  used : Set Nat

inductive Step : State → State → Prop where
  | malloc {m m' : Map} {used : Set Nat} {size a : Nat} (hsize : 0 < size)
      (hcall : malloc m size = some (a, m')) :
      Step ⟨m, used⟩ ⟨m', if a = 0 then used else used ∪ Set.Ico a (a + size)⟩
  | mfree {m : Map} {used : Set Nat} {size a : Nat} {r : Mfreed} (hsize : 0 < size)
      (ha : 1 ≤ a) (hwrap : a + size < 2 ^ 32) (hused : Set.Ico a (a + size) ⊆ used)
      (hcall : mfree m size a = some r) (hfit : r.overflow = false) :
      Step ⟨m, used⟩ ⟨r.map, used \ Set.Ico a (a + size)⟩

/- mapinit, with all of `pool` still to be given to the map by mfree. -/
def system (n : TableLen) (pool : Set Nat) : System State where
  init s := ∃ want, s = ⟨mapinit n.len want, pool⟩
  step := Step

/- The free spans `es` account for everything that is not in use. -/
structure Accounts (n : TableLen) (pool : Set Nat) (s : State) (es : List (Span Nat)) : Prop where
  holds : Holds s.map es
  slots : s.map.mapsize + es.length = n.len - 2
  free : cover es = pool \ s.used
  sub : s.used ⊆ pool

theorem accounts_init (n : TableLen) (pool : Set Nat) (want : Nat) :
    Accounts n pool ⟨mapinit n.len want, pool⟩ [] := by
  have h2 := n.two_le
  have h31 := n.lt
  refine ⟨⟨?_, List.Pairwise.nil, by simp, ?_⟩, by simp [mapinit], by simp, le_rfl⟩
  · have hl : n.len - 1 = n.len - 2 + 1 := by omega
    simp [mapinit, zeros, hl]
  · simp only [mapinit, List.length_nil]
    omega

theorem ico_size {size a : Nat} (hsize : 0 < size) :
    ∃ s : Span Nat, s.lo = a ∧ s.size = size ∧ s.set = Set.Ico a (a + size) :=
  ⟨⟨a, a + size, by omega⟩, rfl, by simp [Span.size], rfl⟩

/-- First fit takes its units out of the free ones. -/
theorem firstFit_cover {es es' : List (Span Nat)} {size a : Nat} (hsep : Separated es)
    (hf : firstFit size es = some (a, es')) : Set.Ico a (a + size) ⊆ cover es ∧
      cover es' = cover es \ Set.Ico a (a + size) := by
  obtain ⟨pre, t, suf, rfl, rfl, rfl, hsize, -⟩ := firstFit_some hf
  have hts := t.lo_add_size
  have hd := separated_disjoint hsep
  have hin : Set.Ico t.lo (t.lo + size) ⊆ t.set := Set.Ico_subset_Ico_right (by omega)
  refine ⟨hin.trans (subset_cover (by simp)), ?_⟩
  have hout : ∀ x ∈ cover (pre ++ suf), x ∉ Set.Ico t.lo (t.lo + size) :=
    fun x hx hx' => Set.disjoint_left.mp hd (hin hx') hx
  ext x
  have hx := hout x
  simp only [cover_append, cover_cons, Span.rest_cover hsize, Set.mem_union,
    Set.mem_sdiff] at hx ⊢
  tauto

/-- malloc finds nothing, or takes free units. -/
theorem malloc_takes {m m' : Map} {es : List (Span Nat)} (h : Holds m es) {size a : Nat}
    (hsize : 0 < size) (hcall : malloc m size = some (a, m')) :
    (a = 0 ∧ m' = m) ∨ (1 ≤ a ∧ ∃ es', Holds m' es' ∧ Set.Ico a (a + size) ⊆ cover es ∧
      cover es' = cover es \ Set.Ico a (a + size)) := by
  cases hf : firstFit size es with
  | none =>
    rw [malloc_none h hsize hf] at hcall
    cases hcall
    exact .inl ⟨rfl, rfl⟩
  | some r =>
    obtain ⟨m₁, hm, hh, -, -⟩ := malloc_some h hsize hf
    rw [hm] at hcall
    cases hcall
    obtain ⟨hin, hcov⟩ := firstFit_cover h.sep hf
    obtain ⟨t, ht, hlo, -⟩ := hin ⟨le_rfl, Nat.lt_add_of_pos_right hsize⟩
    exact .inr ⟨(h.bound t ht).1.trans hlo, r.2, hh, hin, hcov⟩

/-- mfree takes the overflow warning, or makes its units free. -/
theorem mfree_puts {m : Map} {es : List (Span Nat)} (h : Holds m es) {size a : Nat}
    (hsize : 0 < size) (ha : 1 ≤ a) (hwrap : a + size < 2 ^ 32)
    (hd : Disjoint (Set.Ico a (a + size)) (cover es)) :
    ∃ r, mfree m size a = some r ∧ ((r.overflow = true ∧ r.map = m) ∨
      (r.overflow = false ∧ ∃ es', Holds r.map es' ∧
        cover es' = Set.Ico a (a + size) ∪ cover es)) := by
  obtain ⟨t, rfl, rfl, ht⟩ := ico_size (a := a) hsize
  rw [← ht] at hd ⊢
  obtain ⟨r, hr, hg⟩ := mfree_gives h ⟨ha, t.lo_add_size ▸ hwrap⟩ hd
  refine ⟨r, hr, ?_⟩
  cases ho : r.overflow with
  | true => exact .inl ⟨rfl, mfree_overflow hr ho⟩
  | false => exact .inr ⟨rfl, give t es, (hg.accepted ho).1, give_cover t es⟩

/-- A successful malloc moves its units from free to used. -/
theorem accounts_malloc {n : TableLen} {pool : Set Nat} {s : State} {es es' : List (Span Nat)}
    {m' : Map} {size a : Nat} (h : Accounts n pool s es)
    (hf : firstFit size es = some (a, es')) (hm : Holds m' es')
    (hl : m'.mapsize + es'.length = s.map.mapsize + es.length) :
    Accounts n pool ⟨m', s.used ∪ Set.Ico a (a + size)⟩ es' := by
  obtain ⟨hin, hcov⟩ := firstFit_cover h.holds.sep hf
  have hpool : cover es ⊆ pool := h.free ▸ Set.sdiff_subset
  refine ⟨hm, hl.trans h.slots, ?_, Set.union_subset h.sub (hin.trans hpool)⟩
  rw [hcov, h.free, Set.sdiff_sdiff]

/-- A successful mfree moves its units from used to free. -/
theorem accounts_mfree {n : TableLen} {pool : Set Nat} {s : State} {es : List (Span Nat)}
    {t : Span Nat} {m' : Map} (h : Accounts n pool s es) (hused : t.set ⊆ s.used)
    (hm : Holds m' (give t es))
    (hl : m'.mapsize + (give t es).length = s.map.mapsize + es.length) :
    Accounts n pool ⟨m', s.used \ t.set⟩ (give t es) := by
  refine ⟨hm, hl.trans h.slots, ?_, Set.sdiff_subset.trans h.sub⟩
  rw [give_cover, h.free]
  ext x
  have hx := @hused x
  have hp := @h.sub x
  simp only [Set.mem_union, Set.mem_sdiff]
  tauto

theorem disjoint_of_used {n : TableLen} {pool : Set Nat} {s : State} {es : List (Span Nat)}
    {t : Span Nat} (h : Accounts n pool s es) (hused : t.set ⊆ s.used) :
    Disjoint t.set (cover es) := by
  rw [h.free, Set.disjoint_left]
  exact fun x hx hc => hc.2 (hused hx)

theorem accounts_step {n : TableLen} {pool : Set Nat} {s s' : State}
    (h : ∃ es, Accounts n pool s es) (hst : Step s s') : ∃ es, Accounts n pool s' es := by
  obtain ⟨es, h⟩ := h
  cases hst with
  | malloc hsize hcall =>
    cases hf : firstFit _ es with
    | none =>
      rw [malloc_none h.holds hsize hf] at hcall
      obtain ⟨rfl, rfl⟩ : 0 = _ ∧ _ = _ := by simpa using hcall
      exact ⟨es, by simpa using h⟩
    | some r =>
      obtain ⟨m', hm, hh, -, hl⟩ := malloc_some h.holds hsize hf
      rw [hm] at hcall
      obtain ⟨rfl, rfl⟩ : r.1 = _ ∧ m' = _ := by simpa using hcall
      obtain ⟨pre, t, suf, he, -, ha, -, -⟩ := firstFit_some hf
      have hne : r.1 ≠ 0 := by
        have := h.holds.bound t (by simp [he])
        omega
      exact ⟨r.2, by simpa [hne] using accounts_malloc h hf hh hl⟩
  | @mfree m used size a r hsize ha hwrap hused hcall hfit =>
    obtain ⟨t, rfl, rfl, ht⟩ := ico_size (a := a) hsize
    rw [← ht] at hused ⊢
    obtain ⟨r', hr, hg⟩ :=
      mfree_gives h.holds ⟨ha, t.lo_add_size ▸ hwrap⟩ (disjoint_of_used h hused)
    rw [hr] at hcall
    obtain rfl := Option.some.inj hcall
    exact ⟨_, accounts_mfree h hused (hg.accepted hfit).1 (hg.accepted hfit).2⟩

theorem reachable_accounts {n : TableLen} {pool : Set Nat} {s : State}
    (h : (system n pool).Reachable s) : ∃ es, Accounts n pool s es := by
  refine System.invariant (fun s => ∃ es, Accounts n pool s es) ?_ ?_ h
  · rintro _ ⟨want, rfl⟩
    exact ⟨[], accounts_init n pool want⟩
  · exact fun _ _ hi hst => accounts_step hi hst

/-- In every run without an overflow warning the table holds separated entries and
cleared slots, counts its free slots, and covers exactly what is not in use; malloc
is first fit; no call leaves the table; a warning changes nothing. -/
theorem resource_map_run (n : TableLen) (pool : Set Nat) {s : State}
    (h : (system n pool).Reachable s) :
    ∃ es : List (Span Nat),
      s.map.slots = es.map slotOf ++ zeros (s.map.mapsize + 1) ∧
      Separated es ∧
      s.map.mapsize + es.length = n.len - 2 ∧
      cover es = pool \ s.used ∧
      (∀ size, 0 < size → ∃ a m', malloc s.map size = some (a, m') ∧
        ((a = 0 ∧ m' = s.map ∧ ∀ e ∈ es, e.size < size) ∨
          (1 ≤ a ∧ ∃ pre e suf, es = pre ++ e :: suf ∧ a = e.lo ∧ size ≤ e.size ∧
            ∀ t ∈ pre, t.size < size))) ∧
      (∀ size a, 0 < size → 1 ≤ a → a + size < 2 ^ 32 → Set.Ico a (a + size) ⊆ s.used →
        ∃ r, mfree s.map size a = some r ∧ (r.overflow = true → r.map = s.map)) := by
  obtain ⟨es, hes⟩ := reachable_accounts h
  refine ⟨es, hes.holds.slots, hes.holds.sep, hes.slots, hes.free, ?_, ?_⟩
  · intro size hsize
    cases hf : firstFit size es with
    | none => exact ⟨0, s.map, malloc_none hes.holds hsize hf, .inl ⟨rfl, rfl, firstFit_none hf⟩⟩
    | some r =>
      obtain ⟨m', hm, -, -, -⟩ := malloc_some hes.holds hsize hf
      obtain ⟨pre, e, suf, he, -, ha, hle, hp⟩ := firstFit_some hf
      have he1 := hes.holds.bound e (by simp [he])
      exact ⟨r.1, m', hm, .inr ⟨by omega, pre, e, suf, he, ha, hle, hp⟩⟩
  · intro size a hsize ha hwrap hused
    obtain ⟨t, rfl, rfl, ht⟩ := ico_size (a := a) hsize
    obtain ⟨r, hr, -⟩ := mfree_gives hes.holds ⟨ha, t.lo_add_size ▸ hwrap⟩
      (disjoint_of_used hes (ht ▸ hused))
    exact ⟨r, hr, mfree_overflow hr⟩

/- A table of four slots that is given units 1..10 and then asked for 3 of them. -/
theorem resource_map_run_malloc3 :
    ∃ es : List (Span Nat), (⟨1, 0, [⟨7, 4⟩, ⟨0, 0⟩, ⟨0, 0⟩]⟩ : Map).slots =
      es.map slotOf ++ zeros 2 := by
  let n : TableLen := ⟨4, by decide, by decide⟩
  let s₀ : State := ⟨mapinit 4 0, Set.Ico 1 11⟩
  have h₀ : (system n (Set.Ico 1 11)).Reachable s₀ := System.reachable_init ⟨0, rfl⟩
  have h₁ : (system n (Set.Ico 1 11)).Reachable
      ⟨⟨1, 0, [⟨10, 1⟩, ⟨0, 0⟩, ⟨0, 0⟩]⟩, Set.Ico 1 11 \ Set.Ico 1 (1 + 10)⟩ :=
    System.reachable_step h₀ (Step.mfree (by decide) (by decide) (by decide)
      (fun _ h => h) (r := ⟨⟨1, 0, [⟨10, 1⟩, ⟨0, 0⟩, ⟨0, 0⟩]⟩, false, false⟩) (by decide) rfl)
  have h₂ : (system n (Set.Ico 1 11)).Reachable
      ⟨⟨1, 0, [⟨7, 4⟩, ⟨0, 0⟩, ⟨0, 0⟩]⟩, Set.Ico 1 11 \ Set.Ico 1 (1 + 10) ∪ Set.Ico 1 (1 + 3)⟩ :=
    System.reachable_step h₁ (Step.malloc (a := 1) (by decide) (by decide))
  obtain ⟨es, hes, -⟩ := resource_map_run n (Set.Ico 1 11) h₂
  exact ⟨es, hes⟩

end Svr32.Malloc
