import Svr32.Rfs.Auth

/-! What checkalist says of a list that addalist made: an item that is a domain of the name is
missed where the count behind it is the next character of the name. -/
namespace Svr32.Rfs.Auth
variable {room : Nat → Bool} {names : List CString} {rest : List Word} {block : List Nat}

/- The words of a list that can be read. -/
def words (names : List CString) (rest : List Word) : List Word :=
  names.map (fun s => .name (some s)) ++ .null :: rest

theorem pointers_words (n : Nat) (names : List CString) (rest : List Word) :
    pointers n (words names rest) =
      if names.length < n then .ok (names.map some) else .error .EINVAL := by
  induction names generalizing n with
  | nil =>
    cases n with
    | zero => rfl
    | succ n =>
      rw [List.length_nil, if_pos (Nat.succ_pos n)]
      rfl
  | cons s names ih =>
    cases n with
    | zero => rfl
    | succ n =>
      have hnext := ih n
      rw [words] at hnext
      rw [words, List.map_cons, List.cons_append, pointers, hnext, List.length_cons]
      by_cases h : names.length < n
      · rw [if_pos h, if_pos (Nat.succ_lt_succ h)]
        rfl
      · rw [if_neg h, if_neg (fun hn => h (Nat.lt_of_succ_lt_succ hn))]
        rfl

theorem readName_short {s : CString} (h : s.1.length < BUFSIZ) : readName (some s) = .ok s := by
  rw [readName, upath, if_neg (by omega)]

theorem mapM_names {β : Type} {g : Option CString → Except Errno β} {f : CString → β}
    (h : ∀ s ∈ names, g (some s) = .ok (f s)) :
    (names.map some).mapM g = .ok (names.map f) := by
  induction names with
  | nil => rfl
  | cons s names ih =>
    rw [List.map_cons, List.mapM_cons, h s List.mem_cons_self,
      ih fun t ht => h t (List.mem_cons_of_mem _ ht)]
    rfl

theorem flatten_length (names : List CString) :
    (names.map item).flatten.length = (names.map fun s => s.1.length + 1).sum := by
  induction names with
  | nil => rfl
  | cons s names ih =>
    rw [List.map_cons, List.flatten_cons, List.length_append, ih, List.map_cons, List.sum_cons]
    rfl

theorem le_bump (s : Nat) : s ≤ bump s := Nat.le_add_right _ _

/-- The block of a list: the items, and at least one zero. -/
theorem addalist_block (h : ∀ s ∈ names, s.1.length < 256)
    (hb : addalist room (words names rest) = .ok block) :
    ∃ z, block = pack (names.map (·.1)) ++ 0 :: z := by
  have hname : ∀ s ∈ names, readName (some s) = .ok s := fun s hs =>
    readName_short (Nat.lt_trans (h s hs) (by decide))
  have hread := mapM_names (g := readName) (f := fun s => s) hname
  have hitem := mapM_names (f := item) (g := fun s => do .ok (item (← readName s)))
    fun s hs => by rw [hname s hs]; rfl
  have hpack : (names.map item).flatten = pack (names.map (·.1)) := by
    rw [pack, List.flatMap_map, List.flatMap]
    refine congrArg List.flatten (List.map_congr_left fun s hs => ?_)
    rw [item, Nat.mod_eq_of_lt (h s hs)]
  rw [addalist, pointers_words] at hb
  by_cases hn : names.length < MAXNAMES
  · rw [if_pos hn] at hb
    simp only [bind, Except.bind, hread, List.map_id'] at hb hitem
    split at hb
    · rw [hitem] at hb
      simp only [Except.ok.injEq] at hb
      have hlen := flatten_length names
      have hle := le_bump ((names.map fun s => s.1.length + 1).sum + 1)
      obtain ⟨k, hk⟩ := Nat.exists_eq_add_of_lt (Nat.lt_of_succ_le hle)
      refine ⟨List.replicate k 0, ?_⟩
      rw [← hb, hpack, ← List.replicate_succ, ← hpack, hlen, hk]
      congr 2
      omega
    · cases hb
  · rw [if_neg hn] at hb
    cases hb

/- When an item of a list stands for a name. -/
def Matches (domain name it : List Nat) : Prop :=
  it = name ∨ it.getLast? = some SEPARATOR ∧ it <+: name ∨ name = domain ++ SEPARATOR :: it

/- The comparison of an item with a name runs over the next item's count. -/
def Overrun (name it : List Nat) (b : List CString) : Prop :=
  ∃ c t, name = it ++ c :: t ∧ b.head?.map (·.1.length) = some c

/- Some item stands for the name, but each that does is a domain that is overrun. -/
def Masked (domain name : List Nat) (names : List CString) : Prop :=
  (∃ s ∈ names, Matches domain name s.1) ∧
    ∀ a s b, names = a ++ s :: b → Matches domain name s.1 →
      name ≠ domain ++ SEPARATOR :: s.1 ∧ Overrun name s.1 b

theorem namepart_iff (domain name it : List Nat) :
    namepart domain name = some it ↔ name = domain ++ SEPARATOR :: it := by
  induction domain generalizing name with
  | nil =>
    cases name with
    | nil => simp [namepart]
    | cons c np =>
      rw [namepart]
      by_cases hc : c = SEPARATOR <;> simp [hc]
  | cons d domain ih =>
    cases name with
    | nil => simp [namepart]
    | cons c np =>
      rw [namepart]
      by_cases hc : c = d
      · rw [if_neg (by simpa using hc), ih, hc]
        simp
      · rw [if_pos hc]
        simp [hc]

/- A name that goes on with `c` overruns an item where `c` is the count behind it. -/
theorem overrun_iff (name : CString) {it t : List Nat} {c : Nat} (h : name.1 = it ++ c :: t)
    (b : List CString) : Overrun name.1 it b ↔ c = countOf (b.map (·.1)) := by
  have hc : c ≠ 0 := fun hc => name.2 (by simp [h, hc])
  have hcount : c = countOf (b.map (·.1)) ↔ b.head?.map (·.1.length) = some c := by
    cases b with
    | nil => simpa [countOf] using hc
    | cons s b => simp [countOf, eq_comm]
  rw [hcount]
  constructor
  · rintro ⟨c', t', he, hb⟩
    rw [h, List.append_cancel_left_eq, List.cons.injEq] at he
    rw [hb, he.1]
  · exact fun hb => ⟨c, t, h, hb⟩

/-- A turn finds an item that stands for the name and is not overrun. -/
theorem hit_iff (domain name s : CString) (b : List CString) :
    Hit name.1 (namepart domain.1 name.1) s.1 (countOf (b.map (·.1))) ↔
      Matches domain.1 name.1 s.1 ∧
        ¬ (name.1 ≠ domain.1 ++ SEPARATOR :: s.1 ∧ Overrun name.1 s.1 b) := by
  have hover : ∀ {c t}, name.1 = s.1 ++ c :: t → _ := fun h => overrun_iff name h b
  rw [Hit, namepart_iff, Matches]
  by_cases hpart : name.1 = domain.1 ++ SEPARATOR :: s.1
  · simp [hpart]
  · simp only [hpart, or_false, ne_eq, not_false_eq_true, true_and]
    by_cases heq : s.1 = name.1
    · have hno : ¬ Overrun name.1 s.1 b := by
        rintro ⟨c, t, he, -⟩
        simp [heq] at he
      exact iff_of_true (.inl heq) ⟨.inl heq, hno⟩
    · simp only [heq, false_or]
      constructor
      · rintro ⟨hlast, c, t, he, hc⟩
        exact ⟨⟨hlast, ⟨c :: t, he.symm⟩⟩, fun ho => hc ((hover he).mp ho)⟩
      · rintro ⟨⟨hlast, t, ht⟩, hno⟩
        cases t with
        | nil => exact absurd (by simpa using ht) heq
        | cons c t => exact ⟨hlast, c, t, ht.symm, fun hc => hno ((hover ht.symm).mpr hc)⟩

/-- The search of a list that addalist made. -/
theorem checkalist_found (hb : addalist room (words names rest) = .ok block)
    (hn : ∀ s ∈ names, s.1 ≠ [] ∧ s.1.length ≤ MAXDNAME) (domain name : CString) (front : Nat) :
    checkalist domain block front name = true ↔
      ∃ a s b, names = a ++ s :: b ∧ Matches domain.1 name.1 s.1 ∧
        ¬ (name.1 ≠ domain.1 ++ SEPARATOR :: s.1 ∧ Overrun name.1 s.1 b) := by
  have hlen : ∀ s ∈ names, s.1.length < 256 := fun s hs =>
    Nat.lt_of_le_of_lt (hn s hs).2 (by decide)
  obtain ⟨z, rfl⟩ := addalist_block hlen hb
  have hitems : ∀ s ∈ names.map (·.1), s ≠ [] := fun s hs => by
    obtain ⟨t, ht, rfl⟩ := List.mem_map.mp hs
    exact (hn t ht).1
  have hsearch := @search_iff name.1 front (namepart domain.1 name.1) z [] _
    hitems
  rw [checkalist]
  refine hsearch.trans ⟨?_, ?_⟩
  · rintro ⟨a, it, b, he, hhit⟩
    obtain ⟨a', b', rfl, rfl, hb'⟩ := List.map_eq_append_iff.mp he
    obtain ⟨s, b'', rfl, rfl, rfl⟩ := List.map_eq_cons_iff.mp hb'
    exact ⟨a', s, b'', rfl, (hit_iff domain name s b'').mp hhit⟩
  · rintro ⟨a, s, b, rfl, h⟩
    exact ⟨a.map (·.1), s.1, b.map (·.1), by simp, (hit_iff domain name s b).mpr h⟩

/-- checkalist says what it should unless the items that stand for the name are all overrun. -/
theorem checkalist_iff (hb : addalist room (words names rest) = .ok block)
    (hn : ∀ s ∈ names, s.1 ≠ [] ∧ s.1.length ≤ MAXDNAME) (domain name : CString) (front : Nat) :
    (checkalist domain block front name = true ↔ ∃ s ∈ names, Matches domain.1 name.1 s.1) ↔
      ¬ Masked domain.1 name.1 names := by
  rw [checkalist_found hb hn]
  constructor
  · rintro h ⟨hex, hall⟩
    obtain ⟨a, s, b, he, hm, hno⟩ := h.mpr hex
    exact hno (hall a s b he hm)
  · intro h
    constructor
    · rintro ⟨a, s, b, rfl, hm, -⟩
      exact ⟨s, by simp, hm⟩
    · intro hex
      refine Classical.by_contradiction fun hno => h ⟨hex, fun a s b he hm => ?_⟩
      exact Classical.by_contradiction fun hnot => hno ⟨a, s, b, he, hm, hnot⟩

/- A domain in front of a name of 48 characters, the code of '0'. -/
def zeroNames : List CString := [⟨[97, 46], by decide⟩, ⟨List.replicate 48 120, by decide⟩]

def zeroBlock : List Nat := 2 :: 97 :: 46 :: 48 :: List.replicate 48 120 ++ List.replicate 4 0

theorem zeroNames_block : addalist (fun _ => true) (words zeroNames []) = .ok zeroBlock := rfl

theorem checkalist_iff_zero :
    (∀ s ∈ zeroNames, s.1 ≠ [] ∧ s.1.length ≤ MAXDNAME) ∧
    ((checkalist ⟨[98], by decide⟩ zeroBlock 0 ⟨[97, 46, 120], by decide⟩ = true ↔
      ∃ s ∈ zeroNames, Matches [98] [97, 46, 120] s.1) ↔
      ¬ Masked [98] [97, 46, 120] zeroNames) := by
  have hn : ∀ s ∈ zeroNames, s.1 ≠ [] ∧ s.1.length ≤ MAXDNAME := by decide
  exact ⟨hn, checkalist_iff zeroNames_block hn _ _ 0⟩

/-- The list `a.` and a name of 48 characters: `a.0` is in the domain, and is refused. -/
theorem checkalist_zero : ¬ ∀ (names : List CString) block,
    addalist (fun _ => true) (words names []) = .ok block →
    (∀ s ∈ names, s.1 ≠ [] ∧ s.1.length ≤ MAXDNAME) → ∀ (domain name : CString) front,
    (checkalist domain block front name = true ↔
      ∃ s ∈ names, Matches domain.1 name.1 s.1) := by
  intro h
  have hn : ∀ s ∈ zeroNames, s.1 ≠ [] ∧ s.1.length ≤ MAXDNAME := by decide
  have hiff := h zeroNames zeroBlock zeroNames_block hn ⟨[98], by decide⟩ ⟨[97, 46, 48], by decide⟩ 0
  have hmatch : ∃ s ∈ zeroNames, Matches [98] [97, 46, 48] s.1 :=
    ⟨_, List.mem_cons_self, .inr (.inl ⟨by decide, by decide⟩)⟩
  obtain ⟨a, s, b, he, hm, hno⟩ :=
    (checkalist_found zeroNames_block hn _ _ 0).mp (hiff.mpr hmatch)
  rcases a with _ | ⟨t, _ | ⟨t', a⟩⟩
  · cases he
    exact hno ⟨by decide, 48, [], rfl, rfl⟩
  · cases he
    rcases hm with hm | ⟨hm, -⟩ | hm
    · exact absurd hm (by decide)
    · exact absurd hm (by decide)
    · exact absurd hm (by decide)
  · exact absurd (congrArg List.length he) (by simp [zeroNames])

end Svr32.Rfs.Auth
