import Svr32.Lib.Text
import Mathlib.Data.List.TakeWhile

/-! cmd/diff/diff.c: how the lines of a file are hashed as they are read. An int and a long have
32 bits, and a sum is kept as the residue that these bits are. -/
namespace Svr32.Diff
open Svr32.Lib

def HALFMASK : Nat := 0xf

def word (n : Nat) : Nat := n % 2 ^ 32

/- The loop of readhash without -b: the sum, and what is left of the file. -/
def hashLoop : Text → Nat → Nat → Nat × Text
  | [], sum, shift => if shift ≠ 0 then (sum, []) else (0, [])
  | t :: f, sum, shift =>
    if t = newline then (sum, f)
    else
      let shift := shift &&& HALFMASK
      hashLoop f (word (sum + t <<< shift)) (shift + 7)

def tab : Nat := 9
def blank : Nat := 32

/- The loop with -b. -/
def hashLoopB : Text → Nat → Nat → Nat → Nat × Text
  | [], sum, shift, _ => if shift ≠ 0 then (sum, []) else (0, [])
  | t :: f, sum, shift, space =>
    if t = tab ∨ t = blank then hashLoopB f sum shift (space + 1)
    else if t = newline then (sum, f)
    else
      let shift := (if space ≠ 0 then shift + 7 else shift) &&& HALFMASK
      hashLoopB f (word (sum + t <<< shift)) (shift + 7) 0

def readhash (bflag : Bool) (f : Text) : Nat × Text :=
  if bflag then hashLoopB f 1 0 0 else hashLoop f 1 0

/- for(j=0; h=readhash(input[i],arg);) p[++j].value = h; the entries p[1], p[2], ... -/
def prepareLoop (bflag : Bool) : Nat → Text → List Nat
  | 0, _ => []
  | fuel + 1, f =>
    let (h, f) := readhash bflag f
    if h = 0 then [] else h :: prepareLoop bflag fuel f

/- Every call of readhash but the last takes a byte. -/
def prepare (bflag : Bool) (f : Text) : List Nat := prepareLoop bflag (f.length + 1) f

/-! What the hash depends on. -/

/- The characters of a line without its trailing blanks, a run of blanks as one `none`. -/
def squeeze : Text → List (Option Nat)
  | [] => []
  | c :: s =>
    if c = tab ∨ c = blank then
      match squeeze s with
      | [] => []
      | none :: us => none :: us
      | some c :: us => none :: some c :: us
    else some c :: squeeze s

def body (l : Text) : Text := l.takeWhile (· ≠ newline)

/- What lines are compared by. -/
def units (bflag : Bool) (l : Text) : List (Option Nat) :=
  if bflag then squeeze (body l) else (body l).map some

/- The sum of the characters, each seven places on from the one before it, round sixteen. -/
def weight : Nat → List (Option Nat) → Nat
  | _, [] => 0
  | i, u :: us => u.getD 0 * 2 ^ (7 * i % 16) + weight (i + 1) us

/- The value of a line in the table. -/
def hash (bflag : Bool) (l : Text) : Nat :=
  if newline ∉ l ∧ units bflag l = [] then 0 else word (1 + weight 0 (units bflag l))

/-- No line has a sum of all ones, and a last line without newline is not one of blanks only. -/
def Countable (bflag : Bool) (f : Text) : Prop :=
  ∀ l ∈ lines f, ¬ 2 ^ 32 ∣ 1 + weight 0 (units bflag l) ∧ (newline ∉ l → units bflag l ≠ [])

theorem word_add (a b : Nat) : word (word a + b) = word (a + b) := by
  unfold word
  exact Nat.mod_add_mod a (2 ^ 32) b

theorem word_word (n : Nat) : word (word n) = word n := Nat.mod_mod n (2 ^ 32)

theorem word_one : word 1 = 1 := rfl

theorem shift_zero : 0 % 16 = 7 * 0 % 16 := rfl

theorem and_halfmask (n : Nat) : n &&& HALFMASK = n % 16 := Nat.and_two_pow_sub_one_eq_mod n 4

/-- One character, at the place that the shift is for. -/
theorem add_unit {shift i : Nat} (hi : shift % 16 = 7 * i % 16) (sum t : Nat) :
    word (sum + t <<< (shift &&& HALFMASK)) = word (sum + t * 2 ^ (7 * i % 16)) := by
  rw [and_halfmask, hi, Nat.shiftLeft_eq]

theorem next_shift {shift i : Nat} (hi : shift % 16 = 7 * i % 16) :
    ((shift &&& HALFMASK) + 7) % 16 = 7 * (i + 1) % 16 := by
  rw [and_halfmask]
  omega

/-- The loop over what has no newline. -/
theorem hashLoop_append (s : Text) (hs : newline ∉ s) (t : Text) {sum shift i : Nat}
    (hsum : word sum = sum) (hi : shift % 16 = 7 * i % 16) :
    ∃ shift', hashLoop (s ++ t) sum shift = hashLoop t (word (sum + weight i (s.map some))) shift' ∧
      (shift' = 0 ↔ s.map some = [] ∧ shift = 0) := by
  induction s generalizing sum shift i with
  | nil => exact ⟨shift, by simp [weight, hsum], by simp⟩
  | cons c s ih =>
    have hc : c ≠ newline := fun hc => hs (by simp [hc])
    have hs' : newline ∉ s := fun hmem => hs (by simp [hmem])
    obtain ⟨shift', hloop, hzero⟩ := ih hs' (word_word (sum + c * 2 ^ (7 * i % 16))) (next_shift hi)
    refine ⟨shift', ?_, ?_⟩
    · rw [List.cons_append, hashLoop, if_neg hc]
      simp only
      rw [add_unit hi, hloop, word_add, List.map_cons, weight, Nat.add_assoc]
      rfl
    · constructor
      · intro h
        exact absurd (hzero.mp h).2 (by omega)
      · rintro ⟨h, -⟩
        exact absurd h (List.cons_ne_nil (some c) (s.map some))

theorem squeeze_blanks (c d : Nat) (s : Text) (hc : c = tab ∨ c = blank) (hd : d = tab ∨ d = blank) :
    squeeze (c :: d :: s) = squeeze (c :: s) := by
  have hinner : squeeze (d :: s) = match squeeze s with
      | [] => []
      | none :: us => none :: us
      | some c :: us => none :: some c :: us := by
    rw [squeeze, if_pos hd]
  rw [squeeze, if_pos hc, hinner, squeeze, if_pos hc]
  rcases squeeze s with - | ⟨- | u, us⟩ <;> rfl

theorem squeeze_blank {c : Nat} (s : Text) (hc : c = tab ∨ c = blank) :
    squeeze (c :: s) = squeeze (blank :: s) := by
  rw [squeeze, if_pos hc, squeeze, if_pos (Or.inr rfl)]

/- The blanks that are not yet counted. -/
def pending (space : Nat) : Text := if space = 0 then [] else [blank]

/-- The loop with -b over what has no newline. -/
theorem hashLoopB_append (s : Text) (hs : newline ∉ s) (t : Text) {sum shift i : Nat} (space : Nat)
    (hsum : word sum = sum) (hi : shift % 16 = 7 * i % 16) :
    ∃ shift' space', hashLoopB (s ++ t) sum shift space =
        hashLoopB t (word (sum + weight i (squeeze (pending space ++ s)))) shift' space' ∧
      (shift' = 0 ↔ squeeze (pending space ++ s) = [] ∧ shift = 0) := by
  induction s generalizing sum shift i space with
  | nil =>
    have hnone : squeeze (pending space ++ []) = [] := by
      unfold pending
      by_cases h : space = 0
      · rw [if_pos h]
        rfl
      · rw [if_neg h]
        rfl
    rw [hnone]
    exact ⟨shift, space, by simp [weight, hsum], by simp⟩
  | cons c s ih =>
    have hc : c ≠ newline := fun hc => hs (by simp [hc])
    have hs' : newline ∉ s := fun hmem => hs (by simp [hmem])
    rw [List.cons_append, hashLoopB]
    by_cases hb : c = tab ∨ c = blank
    · have hsq : squeeze (pending space ++ c :: s) = squeeze (pending (space + 1) ++ s) := by
        unfold pending
        rw [if_neg (Nat.succ_ne_zero space)]
        by_cases h : space = 0
        · rw [if_pos h]
          exact squeeze_blank s hb
        · rw [if_neg h]
          exact squeeze_blanks blank c s (Or.inr rfl) hb
      rw [if_pos hb, hsq]
      exact ih hs' (space + 1) hsum hi
    · rw [if_neg hb, if_neg hc]
      simp only
      by_cases h : space = 0
      · have hsq : squeeze (pending space ++ c :: s) = some c :: squeeze (pending 0 ++ s) := by
          unfold pending
          rw [if_pos h]
          exact if_neg hb
        obtain ⟨shift', space', hloop, hzero⟩ :=
          ih hs' 0 (word_word (sum + c * 2 ^ (7 * i % 16))) (next_shift hi)
        have hno : ¬ space ≠ 0 := not_not_intro h
        rw [if_neg hno, hsq, add_unit hi, hloop, word_add, weight, Nat.add_assoc]
        refine ⟨shift', space', rfl, ?_⟩
        constructor
        · intro h'
          exact absurd (hzero.mp h').2 (by omega)
        · rintro ⟨h', -⟩
          exact absurd h' (List.cons_ne_nil _ _)
      · have hsq : squeeze (pending space ++ c :: s)
            = none :: some c :: squeeze (pending 0 ++ s) := by
          have hinner : squeeze (c :: s) = some c :: squeeze s := if_neg hb
          unfold pending
          rw [if_neg h]
          change squeeze (blank :: c :: s) = none :: some c :: squeeze s
          rw [squeeze, if_pos (Or.inr rfl), hinner]
        have hi' : (shift + 7) % 16 = 7 * (i + 1) % 16 := by omega
        obtain ⟨shift', space', hloop, hzero⟩ :=
          ih hs' 0 (word_word (sum + c * 2 ^ (7 * (i + 1) % 16))) (next_shift hi')
        rw [if_pos h, hsq, add_unit hi', hloop, word_add, weight, weight, Nat.add_assoc]
        refine ⟨shift', space', ?_, ?_⟩
        · simp
        constructor
        · intro h'
          exact absurd (hzero.mp h').2 (by omega)
        · rintro ⟨h', -⟩
          exact absurd h' (List.cons_ne_nil _ _)

theorem body_of_not_mem {b : Text} (h : newline ∉ b) : body b = b := by
  apply List.takeWhile_eq_self_iff.mpr
  intro c hc
  have hne : c ≠ newline := fun heq => h (heq ▸ hc)
  simpa using hne

theorem body_line {b : Text} (h : newline ∉ b) : body (b ++ [newline]) = b := by
  unfold body
  rw [List.takeWhile_append_of_pos]
  · simp
  · intro c hc
    have hne : c ≠ newline := fun heq => h (heq ▸ hc)
    simpa using hne

/-- A line up to its newline. -/
theorem readhash_line (bflag : Bool) {b : Text} (h : newline ∉ b) (f : Text) :
    readhash bflag (b ++ newline :: f) = (hash bflag (b ++ [newline]), f) := by
  have hhash : hash bflag (b ++ [newline]) = word (1 + weight 0 (units bflag b)) := by
    unfold hash units
    rw [body_line h, body_of_not_mem h, if_neg]
    intro hno
    exact hno.1 (by simp)
  rw [hhash]
  unfold readhash units
  rw [body_of_not_mem h]
  cases bflag with
  | false =>
    obtain ⟨shift, hloop, -⟩ := hashLoop_append b h (newline :: f) word_one shift_zero
    rw [if_neg Bool.false_ne_true, hloop]
    rfl
  | true =>
    obtain ⟨shift, space, hloop, -⟩ := hashLoopB_append b h (newline :: f) 0 word_one shift_zero
    rw [if_pos rfl, hloop]
    rfl

/-- What is left when there is no newline any more. -/
theorem readhash_end (bflag : Bool) {b : Text} (h : newline ∉ b) :
    readhash bflag b = (hash bflag b, []) := by
  unfold readhash hash units
  rw [body_of_not_mem h]
  cases bflag with
  | false =>
    obtain ⟨shift, hloop, hzero⟩ := hashLoop_append b h [] word_one shift_zero
    rw [List.append_nil] at hloop
    rw [if_neg Bool.false_ne_true, if_neg Bool.false_ne_true, hloop, hashLoop]
    by_cases hs : shift = 0
    · rw [if_neg (not_not_intro hs), if_pos ⟨h, (hzero.mp hs).1⟩]
    · have hne : ¬ (newline ∉ b ∧ b.map some = []) := fun hno => hs (hzero.mpr ⟨hno.2, rfl⟩)
      rw [if_pos hs, if_neg hne]
  | true =>
    obtain ⟨shift, space, hloop, hzero⟩ :=
      hashLoopB_append b h [] 0 word_one shift_zero
    rw [List.append_nil] at hloop
    rw [if_pos rfl, if_pos rfl, hloop, hashLoopB]
    by_cases hs : shift = 0
    · rw [if_neg (not_not_intro hs), if_pos ⟨h, (hzero.mp hs).1⟩]
    · have hne : ¬ (newline ∉ b ∧ squeeze b = []) := fun hno => hs (hzero.mpr ⟨hno.2, rfl⟩)
      rw [if_pos hs, if_neg hne]
      rfl

/-- A file with a newline, by its first line. -/
theorem exists_line {f : Text} (h : newline ∈ f) :
    ∃ b g, f = b ++ newline :: g ∧ newline ∉ b ∧ lines f = (b ++ [newline]) :: lines g := by
  obtain ⟨b, g, rfl, hb⟩ := List.eq_append_cons_of_mem h
  exact ⟨b, g, rfl, hb, lines_line b g hb⟩

theorem lines_end {b : Text} (hne : b ≠ []) (h : newline ∉ b) : lines b = [b] := by
  induction b with
  | nil => exact absurd rfl hne
  | cons c b ih =>
    have hc : c ≠ newline := fun hc => h (by simp [hc])
    have hb : newline ∉ b := fun hmem => h (by simp [hmem])
    rw [lines, if_neg hc]
    cases b with
    | nil => rfl
    | cons d b => rw [ih (List.cons_ne_nil d b) hb]

/-- What is recorded of a file: the lines before the first whose hash is zero. -/
theorem prepareLoop_eq (bflag : Bool) (fuel : Nat) (f : Text) (hfuel : f.length < fuel) :
    prepareLoop bflag fuel f = ((lines f).map (hash bflag)).takeWhile (· ≠ 0) := by
  induction fuel generalizing f with
  | zero => exact absurd hfuel (Nat.not_lt_zero _)
  | succ fuel ih =>
    rw [prepareLoop]
    by_cases hf : newline ∈ f
    · obtain ⟨b, g, rfl, hb, hlines⟩ := exists_line hf
      rw [hlines, List.map_cons, List.takeWhile_cons, readhash_line bflag hb]
      have hg : g.length < fuel := by
        simp only [List.length_append, List.length_cons] at hfuel
        omega
      by_cases hz : hash bflag (b ++ [newline]) = 0
      · simp [hz]
      · simp [hz, ih g hg]
    · rw [readhash_end bflag hf]
      cases f with
      | nil => cases bflag <;> rfl
      | cons c f =>
        rw [lines_end (List.cons_ne_nil c f) hf]
        by_cases hz : hash bflag (c :: f) = 0
        · simp [hz]
        · have hfuel' : 0 < fuel := by
            simp only [List.length_cons] at hfuel
            omega
          have hstop : prepareLoop bflag fuel [] = [] := by
            rw [ih [] hfuel']
            rfl
          simp [hz, hstop]

theorem prepare_eq (bflag : Bool) (f : Text) :
    prepare bflag f = ((lines f).map (hash bflag)).takeWhile (· ≠ 0) :=
  prepareLoop_eq bflag (f.length + 1) f (Nat.lt_succ_self _)

/-- The hash that stands for the end of the file. -/
theorem hash_eq_zero (bflag : Bool) (l : Text) :
    hash bflag l = 0 ↔
      2 ^ 32 ∣ 1 + weight 0 (units bflag l) ∨ newline ∉ l ∧ units bflag l = [] := by
  unfold hash word
  by_cases h : newline ∉ l ∧ units bflag l = []
  · rw [if_pos h]
    exact ⟨fun _ => Or.inr h, fun _ => rfl⟩
  · rw [if_neg h, Nat.dvd_iff_mod_eq_zero]
    exact ⟨Or.inl, fun hor => hor.resolve_right h⟩

theorem takeWhile_length_iff {α : Type} (p : α → Bool) (l : List α) :
    (l.takeWhile p).length = l.length ↔ ∀ x ∈ l, p x = true := by
  constructor
  · intro h
    have heq : l.takeWhile p = l := List.IsPrefix.eq_of_length (List.takeWhile_prefix p) h
    exact List.takeWhile_eq_self_iff.mp heq
  · intro h
    rw [List.takeWhile_eq_self_iff.mpr h]

/-- One entry for each line is recorded exactly when no line is taken for the end of the file. -/
theorem prepare_length_iff (bflag : Bool) (f : Text) :
    (prepare bflag f).length = (lines f).length ↔ Countable bflag f := by
  have hmap : (lines f).length = ((lines f).map (hash bflag)).length := (List.length_map _).symm
  rw [prepare_eq, hmap, takeWhile_length_iff]
  unfold Countable
  constructor
  · intro h l hl
    have hz := h (hash bflag l) (List.mem_map_of_mem hl)
    rw [decide_eq_true_eq, ne_eq, hash_eq_zero] at hz
    push Not at hz
    exact hz
  · intro h x hx
    obtain ⟨l, hl, rfl⟩ := List.mem_map.mp hx
    rw [decide_eq_true_eq, ne_eq, hash_eq_zero]
    push Not
    exact h l hl

/-- An entry that is recorded is the hash of its line, and is not zero. -/
theorem prepare_get {bflag : Bool} {f l : Text} {i v : Nat} (hl : (lines f)[i]? = some l)
    (hv : (prepare bflag f)[i]? = some v) : v = word (1 + weight 0 (units bflag l)) := by
  rw [prepare_eq] at hv
  have hpre := List.takeWhile_prefix (fun h => decide (h ≠ 0)) (l := (lines f).map (hash bflag))
  have hget : ((lines f).map (hash bflag))[i]? = some v := by
    obtain ⟨t, ht⟩ := hpre
    have hi := (List.getElem?_eq_some_iff.mp hv).1
    rw [← ht, List.getElem?_append_left hi, hv]
  have hne : v ≠ 0 := by
    have hmem := List.mem_of_getElem? hv
    simpa using List.mem_takeWhile_imp hmem
  rw [List.getElem?_map, hl, Option.map_some] at hget
  have hvh : v = hash bflag l := (Option.some.inj hget).symm
  have hno : ¬ (newline ∉ l ∧ units bflag l = []) := by
    intro h
    apply hne
    rw [hvh, hash, if_pos h]
  rw [hvh, hash, if_neg hno]

/-- prepare records one entry for each line, and equal lines of two files by equal values, exactly
when no line's sum is all ones and, with -b, the file does not end in blanks after a newline. -/
theorem prepare_iff (bflag : Bool) (f : Text) :
    (prepare bflag f).length = (lines f).length ∧
      (∀ (g : Text) (i j : Nat) (l l' : Text) (v v' : Nat), (lines f)[i]? = some l → (lines g)[j]? = some l' →
        units bflag l = units bflag l' → (prepare bflag f)[i]? = some v →
        (prepare bflag g)[j]? = some v' → v = v') ↔
      Countable bflag f := by
  rw [prepare_length_iff]
  constructor
  · rintro ⟨h, -⟩
    exact h
  · intro h
    refine ⟨h, ?_⟩
    intro g i j l l' v v' hl hl' heq hv hv'
    rw [prepare_get hl hv, prepare_get hl' hv', heq]

/-! A line that is taken for the end of the file. -/

theorem weight_append (us vs : List (Option Nat)) (i : Nat) :
    weight i (us ++ vs) = weight i us + weight (i + us.length) vs := by
  induction us generalizing i with
  | nil => simp [weight]
  | cons u us ih =>
    have hi : i + 1 + us.length = i + (us.length + 1) := by omega
    rw [List.cons_append, weight, weight, ih, List.length_cons, hi, Nat.add_assoc]

theorem weight_round (us : List (Option Nat)) (i : Nat) : weight (i + 16) us = weight i us := by
  induction us generalizing i with
  | nil => rfl
  | cons u us ih =>
    have hi : 7 * (i + 16) % 16 = 7 * i % 16 := by omega
    have hsucc : i + 16 + 1 = i + 1 + 16 := by omega
    rw [weight, weight, hi, hsucc, ih]

/-- Blocks of sixteen characters weigh the same wherever they stand. -/
theorem weight_blocks {us : List (Option Nat)} (h : us.length = 16) (n i : Nat)
    (vs : List (Option Nat)) :
    weight i ((List.replicate n us).flatten ++ vs) = n * weight i us + weight i vs := by
  induction n with
  | zero => simp
  | succ n ih =>
    rw [List.replicate_succ, List.flatten_cons, List.append_assoc, weight_append, h, weight_round,
      ih, Nat.succ_mul]
    omega

def allOnes : Text := (List.replicate 257 (List.replicate 16 255)).flatten ++ List.replicate 16 2

/-- The sum of this line is -1 before it is counted from 1: the line is not recorded. -/
theorem prepare_truncates :
    (lines (allOnes ++ [newline])).length = 1 ∧ prepare false (allOnes ++ [newline]) = [] := by
  have hbody : newline ∉ allOnes := by
    intro h
    rcases List.mem_append.mp h with h | h
    · obtain ⟨us, hus, hmem⟩ := List.mem_flatten.mp h
      rw [List.eq_of_mem_replicate hus] at hmem
      exact absurd (List.eq_of_mem_replicate hmem) (by decide)
    · exact absurd (List.eq_of_mem_replicate h) (by decide)
  have hlines : lines (allOnes ++ [newline]) = [allOnes ++ [newline]] :=
    lines_line allOnes [] hbody
  have hunits : units false (allOnes ++ [newline])
      = (List.replicate 257 (List.replicate 16 (some 255))).flatten
        ++ List.replicate 16 (some 2) := by
    unfold units
    rw [if_neg Bool.false_ne_true, body_line hbody, allOnes, List.map_append, List.map_flatten,
      List.map_replicate, List.map_replicate, List.map_replicate]
  have hweight : weight 0 (units false (allOnes ++ [newline])) = 2 ^ 32 - 1 := by
    rw [hunits, weight_blocks (List.length_replicate)]
    decide
  have hhash : hash false (allOnes ++ [newline]) = 0 := by
    rw [hash_eq_zero, hweight]
    exact Or.inl (Nat.dvd_refl _)
  refine ⟨by rw [hlines]; rfl, ?_⟩
  rw [prepare_eq, hlines, List.map_cons, hhash]
  rfl

end Svr32.Diff
