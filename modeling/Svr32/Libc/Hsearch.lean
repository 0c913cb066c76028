import Svr32.Lib.OpenAddr
import Mathlib.Data.Finset.Card
import Mathlib.Data.Nat.Bitwise
import Mathlib.Data.Nat.Prime.Basic

/-! lib/libc/port/gen/hsearch.c as it is compiled by default: open addressing with multiplicative
hashing. An int has 32 bits and a byte 8. A key is the list of its chars as `*key` yields them, of
either sign; the static prcnt, which only the test driver reads, is left out. -/
namespace Svr32.Libc
open Svr32.Lib.OpenAddr

abbrev Key := List Int

structure Entry (D : Type) where
  key : Key
  data : D
  deriving DecidableEq

inductive Action where
  | FIND
  | ENTER
  deriving DecidableEq

/- The statics of hsearch.c: an empty slot has the key NULL. -/
structure Hs (D : Type) where
  table : List (Option (Entry D))
  length : Nat
  m : Nat
  count : Nat
  deriving DecidableEq

/- An unsigned int. -/
def word (n : Int) : Nat := (n % 2 ^ 32).toNat

def FACTOR : Nat := 0o35761254233
def bitsper : Nat := 8
def SHIFT (m : Nat) : Nat := bitsper * 4 - m

/- The loop of crunch: the bytes are added up and counted. -/
def crunchLoop : Key → Nat → Nat → Nat
  | [], sum, s => word (sum + s)
  | c :: key, sum, s => crunchLoop key (word (sum + c)) (s + 1)

def crunch (key : Key) : Nat := crunchLoop key 0 0

def hashm (m : Nat) (key : Key) : Nat := word (crunch key * FACTOR) >>> SHIFT m

def hash2m (m : Nat) (key : Key) : Nat :=
  (word (word (crunch key * FACTOR) <<< m) >>> SHIFT m) ||| 1

/- while(unsize) { unsize >>= 1; length <<= 1; m++; } -/
def hcreateLoop : Nat → Nat → Nat → Nat → Nat × Nat
  | 0, _, length, m => (length, m)
  | fuel + 1, unsize, length, m =>
    if unsize = 0 then (length, m)
    else hcreateLoop fuel (unsize >>> 1) (word (length <<< 1)) (m + 1)

variable {D : Type}

/- hcreate: `core` is whether calloc finds the space. A word is zero after 32 turns. -/
def hcreate (core : Bool) (s : Hs D) (size : Int) : Option (Hs D) :=
  if size ≤ 0 then none
  else
    let (length, m) := hcreateLoop 32 (word size) 1 0
    if core then some { s with table := List.replicate length none, length, m } else none

/- hsearch: the slot that is returned, if any. The checks at D2 and at D5 are the same. -/
def hsearch (fuel : Nat) (s : Hs D) (item : Entry D) (action : Action) :
    Option (Hs D × Option Nat) :=
  let i := hashm s.m item.key
  let c := hash2m s.m item.key
  match search Entry.key s.table (fun i => (i + c) % s.length) item.key fuel i with
  | none => none
  | some (.hit i) => some (s, some i)
  | some (.free i) =>
    if action = .FIND then some (s, none)
    else if s.count = s.length - 1 then some (s, none)
    else some ({ s with count := s.count + 1, table := s.table.set i (some item) }, some i)

/- The item at the address that hsearch returns, NULL for none. -/
def deref (s : Hs D) (slot : Option Nat) : Option (Entry D) :=
  slot.bind fun i => (s.table[i]?).join

/- A call that has returned: its arguments, and the item at the address it returned. -/
structure Call (D : Type) where
  item : Entry D
  action : Action
  answer : Option (Entry D)

/- A sequence of calls. -/
def run (fuel : Nat) : Hs D → List (Entry D × Action) → Option (Hs D × List (Call D))
  | s, [] => some (s, [])
  | s, (item, action) :: calls => do
    let (s', slot) ← hsearch fuel s item action
    let (t, log) ← run fuel s' calls
    some (t, ⟨item, action, deref s' slot⟩ :: log)

/- The items that ENTER calls were given, where the call did not fail. -/
def enters (log : List (Call D)) : List (Entry D) :=
  (log.filter fun c => c.action = .ENTER ∧ c.answer.isSome).map Call.item

/- The data a key was entered with first. -/
def entered (log : List (Call D)) (key : Key) : Option D :=
  ((enters log).find? (·.key = key)).map Entry.data

/- The keys entered. -/
def keysEntered (log : List (Call D)) : Finset Key := ((enters log).map Entry.key).toFinset

/-! The hash functions. -/

theorem word_lt (n : Int) : word n < 2 ^ 32 := by
  have h := Int.emod_lt_of_pos n (by decide : (0 : Int) < 2 ^ 32)
  have h0 := Int.emod_nonneg n (by decide : (2 : Int) ^ 32 ≠ 0)
  unfold word
  omega

theorem word_of_lt {n : Nat} (h : n < 2 ^ 32) : word n = n := by
  unfold word
  omega

/-- What is left of a word is a slot. -/
theorem shift_lt {m : Nat} (hm : m ≤ 32) (n : Int) : word n >>> SHIFT m < 2 ^ m := by
  have h := word_lt n
  have hpow : 2 ^ m * 2 ^ SHIFT m = 2 ^ 32 := by
    have hsum : m + SHIFT m = 32 := by
      unfold SHIFT bitsper
      omega
    rw [← Nat.pow_add, hsum]
  rw [Nat.shiftRight_eq_div_pow]
  apply Nat.div_lt_of_lt_mul
  rw [Nat.mul_comm, hpow]
  exact h

theorem hashm_lt {m : Nat} (hm : m ≤ 32) (key : Key) : hashm m key < 2 ^ m := shift_lt hm _

/-- The step is odd, whatever the key. -/
theorem hash2m_odd (m : Nat) (key : Key) : Odd (hash2m m key) := by
  rw [Nat.odd_iff]
  unfold hash2m
  rw [Nat.or_mod_two_eq_one]
  right
  rfl

/-- The probes for a key get to all slots. -/
theorem hash_scheme {m : Nat} (hm : m ≤ 32) :
    Scheme (2 ^ m) (hashm m) (fun key i => (i + hash2m m key) % 2 ^ m) := by
  apply Scheme.stride
  · intro key
    exact hashm_lt hm key
  · intro key
    exact Nat.Coprime.pow_right m (Nat.coprime_two_right.mpr (hash2m_odd m key))

/-- The size of the table. -/
theorem hcreateLoop_spec {n : Nat} (hn : n < 2 ^ 31) (fuel m : Nat) (hm : m ≤ 31)
    (hfuel : 31 < fuel + m) :
    ∃ m', hcreateLoop fuel (n / 2 ^ m) (2 ^ m) m = (2 ^ m', m') ∧ m' ≤ 31 ∧ n < 2 ^ m' := by
  induction fuel generalizing m with
  | zero => omega
  | succ fuel ih =>
    rw [hcreateLoop]
    by_cases hz : n / 2 ^ m = 0
    · rw [if_pos hz]
      rw [Nat.div_eq_zero_iff] at hz
      have hpos := Nat.two_pow_pos m
      exact ⟨m, rfl, hm, by omega⟩
    · rw [if_neg hz]
      have hm' : m ≠ 31 := by
        intro h
        rw [h] at hz
        exact hz (Nat.div_eq_of_lt hn)
      have hhalf : (n / 2 ^ m) >>> 1 = n / 2 ^ (m + 1) := by
        rw [Nat.shiftRight_eq_div_pow, Nat.pow_one, Nat.div_div_eq_div_mul, Nat.pow_succ]
      have hdouble : word ((2 ^ m) <<< 1 : Nat) = 2 ^ (m + 1) := by
        rw [Nat.shiftLeft_eq, Nat.pow_one, ← Nat.pow_succ]
        apply word_of_lt
        exact Nat.pow_lt_pow_right (by decide) (by omega)
      rw [hhalf, hdouble]
      exact ih (m + 1) (by omega) (by omega)

/-! The log. -/

theorem enters_snoc (log : List (Call D)) (c : Call D) :
    enters (log ++ [c]) =
      enters log ++ if c.action = .ENTER ∧ c.answer.isSome then [c.item] else [] := by
  unfold enters
  rw [List.filter_append, List.map_append]
  congr 1
  by_cases h : c.action = .ENTER ∧ c.answer.isSome <;> simp [h]

/-- A call that enters nothing. -/
theorem enters_skip (log : List (Call D)) {c : Call D} (h : c.action = .FIND ∨ c.answer = none) :
    enters (log ++ [c]) = enters log := by
  rw [enters_snoc, if_neg, List.append_nil]
  rintro ⟨hact, hans⟩
  cases h with
  | inl h => exact absurd (hact.symm.trans h) (by decide)
  | inr h =>
    rw [h] at hans
    exact absurd hans Bool.false_ne_true

theorem mem_keysEntered {log : List (Call D)} {key : Key} :
    key ∈ keysEntered log ↔ entered log key ≠ none := by
  unfold keysEntered entered
  simp [List.find?_eq_none]

/-- What a table and the log of its calls have to do with each other. -/
structure Inv (s : Hs D) (log : List (Call D)) : Prop where
  m_le : s.m ≤ 31
  length_eq : s.length = 2 ^ s.m
  table_length : s.table.length = s.length
  placed : Placed Entry.key s.table (hashm s.m) (fun key i => (i + hash2m s.m key) % s.length)
  used_eq : used s.table = s.count
  room : s.count < s.length
  slots : ∀ e, (∃ i : Nat, s.table[i]? = some (some e)) ↔ entered log e.key = some e.data
  keys : (keysEntered log).card = s.count

/-- What a call answers, after the calls of `log` on a table with `cap` usable slots. -/
structure Answers (cap : Nat) (log : List (Call D)) (item : Entry D) (action : Action)
    (answer : Option (Entry D)) : Prop where
  find : action = .FIND → answer = (entered log item.key).map (Entry.mk item.key)
  known : action = .ENTER → ∀ data, entered log item.key = some data →
    answer = some ⟨item.key, data⟩
  fresh : action = .ENTER → entered log item.key = none →
    answer = if (keysEntered log).card = cap then none else some item

/-- The log is as before. -/
theorem Inv.of_enters {s : Hs D} {log log' : List (Call D)} (h : Inv s log)
    (hkeys : keysEntered log' = keysEntered log) (hent : ∀ key, entered log' key = entered log key) :
    Inv s log' where
  m_le := h.m_le
  length_eq := h.length_eq
  table_length := h.table_length
  placed := h.placed
  used_eq := h.used_eq
  room := h.room
  slots e := by rw [hent, h.slots]
  keys := by rw [hkeys, h.keys]

theorem Inv.skip {s : Hs D} {log : List (Call D)} (h : Inv s log) {c : Call D}
    (hc : c.action = .FIND ∨ c.answer = none) : Inv s (log ++ [c]) := by
  apply h.of_enters
  · unfold keysEntered
    rw [enters_skip log hc]
  · intro key
    unfold entered
    rw [enters_skip log hc]

/-- A key that is known is entered again. -/
theorem Inv.again {s : Hs D} {log : List (Call D)} (h : Inv s log) {c : Call D} {data : D}
    (hknown : entered log c.item.key = some data) : Inv s (log ++ [c]) := by
  by_cases hc : c.action = .ENTER ∧ c.answer.isSome
  · apply h.of_enters
    · have hmem : c.item.key ∈ keysEntered log := by
        rw [mem_keysEntered, hknown]
        exact Option.some_ne_none data
      unfold keysEntered at hmem ⊢
      rw [enters_snoc, if_pos hc, List.map_append, List.toFinset_append]
      apply Finset.union_eq_left.mpr
      intro key hkey
      have heq : key = c.item.key := by simpa using hkey
      rw [heq]
      exact hmem
    · intro key
      unfold entered at hknown ⊢
      rw [enters_snoc, if_pos hc, List.find?_append]
      by_cases hkey : c.item.key = key
      · rw [hkey] at hknown
        cases hfind : (enters log).find? (·.key = key) with
        | none =>
          rw [hfind] at hknown
          exact absurd hknown (Option.some_ne_none data).symm
        | some e => rfl
      · simp [hkey]
  · apply h.skip
    cases hact : c.action with
    | FIND => exact Or.inl rfl
    | ENTER =>
      right
      by_contra hans
      exact hc ⟨hact, Option.isSome_iff_ne_none.mpr hans⟩

/-- A new key is entered in the free slot where the search for it stopped. -/
theorem Inv.enter {s : Hs D} {log : List (Call D)} (h : Inv s log) {item : Entry D} {j : Nat}
    (hpass : Passed Entry.key s.table (fun i => (i + hash2m s.m item.key) % s.length) item.key
      (hashm s.m item.key) j)
    (hfree : s.table[(fun i => (i + hash2m s.m item.key) % s.length)^[j] (hashm s.m item.key)]?
      = some none)
    (hnone : entered log item.key = none) (hroom : s.count ≠ s.length - 1) :
    Inv { s with
        count := s.count + 1
        table := s.table.set ((fun i => (i + hash2m s.m item.key) % s.length)^[j]
          (hashm s.m item.key)) (some item) }
      (log ++ [⟨item, .ENTER, some item⟩]) := by
  set p := (fun i => (i + hash2m s.m item.key) % s.length)^[j] (hashm s.m item.key) with hp
  have hent : enters (log ++ [⟨item, .ENTER, some item⟩]) = enters log ++ [item] := by
    rw [enters_snoc, if_pos ⟨rfl, rfl⟩]
  have hlt : p < s.table.length := (List.getElem?_eq_some_iff.mp hfree).1
  have hget : ∀ key, entered (log ++ [⟨item, .ENTER, some item⟩]) key
      = if item.key = key then some item.data else entered log key := by
    intro key
    unfold entered at hnone ⊢
    rw [hent, List.find?_append]
    by_cases hkey : item.key = key
    · rw [hkey, Option.map_eq_none_iff] at hnone
      rw [hnone, if_pos hkey]
      simp [hkey]
    · rw [if_neg hkey]
      simp [hkey]
  have hcount := h.room
  refine ⟨h.m_le, h.length_eq, ?_, h.placed.set hpass hfree, ?_, ?_, ?_, ?_⟩
  · simpa using h.table_length
  · rw [used_set hfree, h.used_eq]
  · change s.count + 1 < s.length
    omega
  · intro e
    rw [hget]
    by_cases hkey : item.key = e.key
    · rw [if_pos hkey]
      constructor
      · rintro ⟨i, hi⟩
        by_cases hpi : p = i
        · rw [← hpi, List.getElem?_set_self hlt] at hi
          have heq : item = e := Option.some.inj (Option.some.inj hi)
          rw [heq]
        · rw [List.getElem?_set_ne hpi] at hi
          exact absurd hkey.symm (h.placed.absent hpass hfree hi)
      · intro hdata
        refine ⟨p, ?_⟩
        have heq : item = e := by
          cases item
          cases e
          simp_all
        rw [← heq, List.getElem?_set_self hlt]
    · rw [if_neg hkey, ← h.slots]
      constructor
      · rintro ⟨i, hi⟩
        by_cases hpi : p = i
        · rw [← hpi, List.getElem?_set_self hlt] at hi
          have heq : item = e := Option.some.inj (Option.some.inj hi)
          exact absurd (congrArg Entry.key heq) hkey
        · rw [List.getElem?_set_ne hpi] at hi
          exact ⟨i, hi⟩
      · rintro ⟨i, hi⟩
        refine ⟨i, ?_⟩
        have hpi : p ≠ i := by
          intro heq
          rw [heq, hi] at hfree
          exact absurd (Option.some.inj hfree) (Option.some_ne_none e)
        rw [List.getElem?_set_ne hpi, hi]
  · have hnot : item.key ∉ keysEntered log := by
      rw [mem_keysEntered, hnone]
      simp
    change _ = s.count + 1
    rw [← h.keys]
    unfold keysEntered at hnot ⊢
    rw [hent, List.map_append, List.toFinset_append, Finset.union_comm]
    exact Finset.card_insert_of_notMem hnot

/-- A call ends, and answers by what was entered. -/
theorem hsearch_step {s : Hs D} {log : List (Call D)} (h : Inv s log) {fuel : Nat}
    (hfuel : s.length ≤ fuel) (item : Entry D) (action : Action) :
    ∃ s' slot, hsearch fuel s item action = some (s', slot) ∧ s'.length = s.length ∧
      Answers (s.length - 1) log item action (deref s' slot) ∧
      Inv s' (log ++ [⟨item, action, deref s' slot⟩]) := by
  have hm : s.m ≤ 32 := Nat.le_succ_of_le h.m_le
  have hscheme : Scheme s.table.length (hashm s.m)
      (fun key i => (i + hash2m s.m key) % s.length) := by
    rw [h.table_length, h.length_eq]
    exact hash_scheme hm
  have hfree : ∃ i : Nat, s.table[i]? = some none := by
    apply exists_free
    rw [h.used_eq, h.table_length]
    exact h.room
  have hfuel' : s.table.length ≤ fuel := by
    rw [h.table_length]
    exact hfuel
  rcases @search_spec _ _ Entry.key _ _ _ _ hscheme hfree item.key fuel hfuel' with
    ⟨i, e, hsearch', hget, hkey⟩ | ⟨j, hsearch', hget, hpass⟩
  · have hcall : hsearch fuel s item action = some (s, some i) := by
      simp only [hsearch, hsearch']
    have hent : entered log item.key = some e.data := by
      rw [← hkey]
      exact (h.slots e).mp ⟨i, hget⟩
    have hderef : deref s (some i) = some e := by
      simp [deref, hget]
    have he : e = ⟨item.key, e.data⟩ := by
      rw [← hkey]
    refine ⟨s, some i, hcall, rfl, ⟨?_, ?_, ?_⟩, h.again hent⟩
    · intro _
      rw [hderef, hent, Option.map_some, ← he]
    · intro _ data hdata
      rw [hent] at hdata
      rw [hderef, ← Option.some.inj hdata, ← he]
    · intro _ hnone
      rw [hent] at hnone
      exact absurd hnone (Option.some_ne_none _)
  · have hnone : entered log item.key = none := by
      by_contra hsome
      obtain ⟨data, hdata⟩ := Option.ne_none_iff_exists'.mp hsome
      obtain ⟨i, hi⟩ := (h.slots ⟨item.key, data⟩).mpr hdata
      exact h.placed.absent hpass hget hi rfl
    have hskip : ∀ (hc : action = .FIND ∨ s.count = s.length - 1),
        hsearch fuel s item action = some (s, none) := by
      intro hc
      simp only [hsearch, hsearch']
      by_cases hact : action = .FIND
      · rw [if_pos hact]
      · rw [if_neg hact, if_pos (hc.resolve_left hact)]
    by_cases hc : action = .FIND ∨ s.count = s.length - 1
    · refine ⟨s, none, hskip hc, rfl, ⟨?_, ?_, ?_⟩, h.skip (Or.inr rfl)⟩
      · intro _
        rw [hnone]
        rfl
      · intro _ data hdata
        rw [hnone] at hdata
        exact absurd hdata (Option.some_ne_none data).symm
      · intro hact _
        rw [h.keys, if_pos (hc.resolve_left (by rw [hact]; decide))]
        rfl
    · push Not at hc
      obtain ⟨hact, hroom⟩ := hc
      have hact' : action = .ENTER := by
        cases action
        · exact absurd rfl hact
        · rfl
      subst hact'
      set p := (fun i => (i + hash2m s.m item.key) % s.length)^[j] (hashm s.m item.key) with hp
      have hcall : hsearch fuel s item .ENTER = some
          ({ s with count := s.count + 1, table := s.table.set p (some item) }, some p) := by
        simp only [hsearch, hsearch']
        rw [if_neg hact, if_neg hroom]
      have hlt : p < s.table.length := (List.getElem?_eq_some_iff.mp hget).1
      have hderef : deref { s with count := s.count + 1, table := s.table.set p (some item) }
          (some p) = some item := by
        simp [deref, hlt]
      refine ⟨_, some p, hcall, rfl, ⟨?_, ?_, ?_⟩, ?_⟩
      · intro h
        exact absurd h hact
      · intro _ data hdata
        rw [hnone] at hdata
        exact absurd hdata (Option.some_ne_none data).symm
      · intro _ _
        rw [hderef, h.keys, if_neg hroom]
      · rw [hderef]
        exact h.enter hpass hget hnone hroom

/-- All of a sequence of calls end. -/
theorem run_inv {s : Hs D} {log : List (Call D)} (h : Inv s log) {fuel : Nat}
    (hfuel : s.length ≤ fuel) (calls : List (Entry D × Action)) :
    ∃ t log', run fuel s calls = some (t, log') ∧ t.length = s.length ∧ Inv t (log ++ log') := by
  induction calls generalizing s log with
  | nil => exact ⟨s, [], rfl, rfl, by rw [List.append_nil]; exact h⟩
  | cons call calls ih =>
    obtain ⟨item, action⟩ := call
    obtain ⟨s', slot, hcall, hlen, -, hinv⟩ := hsearch_step h hfuel item action
    obtain ⟨t, log', hrun, hlen', hinv'⟩ := ih hinv (by rw [hlen]; exact hfuel)
    refine ⟨t, ⟨item, action, deref s' slot⟩ :: log', ?_, hlen'.trans hlen, ?_⟩
    · simp [run, hcall, hrun]
    · rw [List.append_assoc] at hinv'
      exact hinv'

/-- The table of hcreate. -/
theorem hcreate_inv {core : Bool} {s₀ s : Hs D} {size : Int} (hsize : size < 2 ^ 31)
    (h₀ : s₀.count = 0) (h : hcreate core s₀ size = some s) :
    size ≤ s.length - 1 ∧ Inv s [] := by
  unfold hcreate at h
  by_cases hpos : size ≤ 0
  · rw [if_pos hpos] at h
    exact absurd h (Option.some_ne_none s).symm
  rw [if_neg hpos] at h
  obtain ⟨n, rfl⟩ := Int.eq_ofNat_of_zero_le (by omega : 0 ≤ size)
  have hn : n < 2 ^ 31 := by omega
  obtain ⟨m, hloop, hm, hlt⟩ := hcreateLoop_spec hn 32 0 (by omega) (by omega)
  rw [Nat.pow_zero, Nat.div_one] at hloop
  have hw : word (n : Int) = n := word_of_lt (by omega)
  rw [hw, hloop] at h
  cases core with
  | false => exact absurd h (Option.some_ne_none s).symm
  | true =>
    simp only [if_true, Option.some.injEq] at h
    subst h
    have hempty : ∀ (i : Nat) (e : Entry D), (List.replicate (2 ^ m) none)[i]? ≠ some (some e) := by
      intro i e he
      rw [List.getElem?_replicate] at he
      by_cases hi : i < 2 ^ m
      · rw [if_pos hi] at he
        exact absurd (Option.some.inj he) (Option.some_ne_none e).symm
      · rw [if_neg hi] at he
        exact absurd he (Option.some_ne_none _).symm
    refine ⟨by change (n : Int) ≤ (2 ^ m : Nat) - 1; omega, hm, rfl, List.length_replicate, ?_, ?_,
      ?_, ?_, ?_⟩
    · intro i e he
      exact absurd he (hempty i e)
    · change used (List.replicate (2 ^ m) none) = s₀.count
      rw [h₀, used, List.countP_replicate]
      rfl
    · change s₀.count < 2 ^ m
      omega
    · intro e
      constructor
      · rintro ⟨i, hi⟩
        exact absurd hi (hempty i e)
      · intro hdata
        exact absurd hdata (Option.some_ne_none _).symm
    · change _ = s₀.count
      rw [h₀]
      rfl

/-- After hcreate and any calls of hsearch, a call ends. FIND returns the item that was entered
with the key, with its first data, and nothing if the key was not entered; ENTER returns that item
too, or else enters a new one, until the slots that can be used, `size` or more, are all taken. -/
theorem hsearch_exact {core : Bool} {s₀ s : Hs D} {size : Int} (hsize : size < 2 ^ 31)
    (h₀ : s₀.count = 0) (h : hcreate core s₀ size = some s) {fuel : Nat} (hfuel : s.length ≤ fuel)
    (calls : List (Entry D × Action)) (item : Entry D) (action : Action) :
    size ≤ s.length - 1 ∧
    ∃ t log t' slot, run fuel s calls = some (t, log) ∧
      hsearch fuel t item action = some (t', slot) ∧
      (action = .FIND → deref t' slot = (entered log item.key).map (Entry.mk item.key)) ∧
      (action = .ENTER → ∀ data, entered log item.key = some data →
        deref t' slot = some ⟨item.key, data⟩) ∧
      (action = .ENTER → entered log item.key = none →
        deref t' slot = if (keysEntered log).card = s.length - 1 then none else some item) := by
  obtain ⟨hroom, hinv⟩ := hcreate_inv hsize h₀ h
  obtain ⟨t, log, hrun, hlen, hinv'⟩ := run_inv hinv hfuel calls
  rw [List.nil_append] at hinv'
  have hfuel' : t.length ≤ fuel := by
    rw [hlen]
    exact hfuel
  obtain ⟨t', slot, hcall, -, hanswers, -⟩ := hsearch_step hinv' hfuel' item action
  rw [hlen] at hanswers
  exact ⟨hroom, t, log, t', slot, hrun, hcall, hanswers.find, hanswers.known, hanswers.fresh⟩

/-- A key entered twice keeps its first data. -/
theorem hsearch_exact_twice :
    ∃ s, hcreate true ⟨[], 0, 0, 0⟩ 1 = some s ∧
    ∃ t log t' slot, run 2 s [(⟨[97], 5⟩, .ENTER), (⟨[97], 6⟩, .ENTER)] = some (t, log) ∧
      hsearch 2 t ⟨[97], 0⟩ .FIND = some (t', slot) ∧ deref t' slot = some (⟨[97], 5⟩ : Entry Nat) := by
  have hcreated : hcreate true (⟨[], 0, 0, 0⟩ : Hs Nat) 1 = some ⟨[none, none], 2, 1, 0⟩ := by
    decide
  obtain ⟨-, t, log, t', slot, hrun, hcall, hfind, -, -⟩ :=
    hsearch_exact (by decide) rfl hcreated (Nat.le_refl 2)
      [(⟨[97], 5⟩, .ENTER), (⟨[97], 6⟩, .ENTER)] ⟨[97], 0⟩ .FIND
  refine ⟨_, hcreated, t, log, t', slot, hrun, hcall, ?_⟩
  have hlog : run 2 (⟨[none, none], 2, 1, 0⟩ : Hs Nat)
      [(⟨[97], 5⟩, .ENTER), (⟨[97], 6⟩, .ENTER)] = some (t, log) := hrun
  rw [hfind rfl]
  have hentered : ((run 2 (⟨[none, none], 2, 1, 0⟩ : Hs Nat)
      [(⟨[97], 5⟩, .ENTER), (⟨[97], 6⟩, .ENTER)]).map fun r => entered r.2 [97]) = some (some 5) := by
    decide +kernel
  rw [hlog, Option.map_some] at hentered
  rw [Option.some.inj hentered]
  rfl

end Svr32.Libc
