import Mathlib.Data.List.Basic
import Mathlib.Algebra.Ring.Nat
import Mathlib.Algebra.Ring.Int.Defs

/-! Files of bytes that are read line by line, the C strings in them, and decimal numbers. -/
namespace Svr32.Lib

abbrev Text := List Nat

def newline : Nat := 10

/- What a read of at most `n` bytes takes, and what it leaves. -/
def takeLine : Nat → Text → Text × Text
  | 0, s => ([], s)
  | _ + 1, [] => ([], [])
  | n + 1, c :: s =>
    if c = newline then ([c], s) else (c :: (takeLine n s).1, (takeLine n s).2)

/- fgets(buf, size, stream); `none` at the end of the file. -/
def fgets (size : Nat) (s : Text) : Option (Text × Text) :=
  if s = [] then none else some (takeLine (size - 1) s)

/- A buffer as a string. -/
def cstr (s : Text) : Text := s.takeWhile (· ≠ 0)

/- The digits of "%u", of which there are at most `n + 1`. -/
def digits : Nat → Nat → Text
  | 0, x => [48 + x % 10]
  | n + 1, x => if x < 10 then [48 + x] else digits n (x / 10) ++ [48 + x % 10]

/- "%u" of a number of 32 bits. -/
def udec (x : Nat) : Text := digits 9 x

/- "%.05u" -/
def udec5 (x : Nat) : Text :=
  if x < 100000 then
    [48 + x / 10000, 48 + x / 1000 % 10, 48 + x / 100 % 10, 48 + x / 10 % 10, 48 + x % 10]
  else udec x

/-- A line of text: a string that ends in its only newline. -/
structure IsLine (l : Text) : Prop where
  ends : l.getLast? = some newline
  only : newline ∉ l.dropLast
  string : 0 ∉ l

theorem takeLine_append (n : Nat) (s : Text) : (takeLine n s).1 ++ (takeLine n s).2 = s := by
  induction n generalizing s with
  | zero => rfl
  | succ n ih =>
    cases s with
    | nil => rfl
    | cons c s =>
      rw [takeLine]
      split
      · rfl
      · simpa using ih s

theorem takeLine_line (n : Nat) (b s : Text) (h : newline ∉ b) (hn : b.length < n) :
    takeLine n (b ++ newline :: s) = (b ++ [newline], s) := by
  induction b generalizing n with
  | nil =>
    cases n with
    | zero => exact absurd hn (by simp)
    | succ n => simp [takeLine]
  | cons c b ih =>
    cases n with
    | zero => exact absurd hn (by simp)
    | succ n =>
      have hc : c ≠ newline := fun hc => h (by simp [hc])
      have hb : newline ∉ b := fun hb => h (by simp [hb])
      have hl : b.length < n := by simpa using hn
      simp [takeLine, hc, ih n hb hl]

theorem takeLine_only (n : Nat) (s : Text) : newline ∉ (takeLine n s).1.dropLast := by
  induction n generalizing s with
  | zero => simp [takeLine]
  | succ n ih =>
    cases s with
    | nil => simp [takeLine]
    | cons c s =>
      rw [takeLine]
      split
      · simp
      · rename_i hc
        intro h
        cases hl : (takeLine n s).1 with
        | nil => simp [hl] at h
        | cons d l =>
          have hrest := ih s
          rw [hl] at hrest h
          rw [List.dropLast_cons_cons] at h
          rcases List.mem_cons.mp h with h | h
          · exact hc h.symm
          · exact hrest h

theorem fgets_append {size : Nat} {s l rest : Text} (h : fgets size s = some (l, rest)) :
    l ++ rest = s := by
  rw [fgets] at h
  split at h
  · exact absurd h (by simp)
  · have := takeLine_append (size - 1) s
    simp only [Option.some.injEq] at h
    rwa [h] at this

theorem fgets_none {size : Nat} {s : Text} (h : fgets size s = none) : s = [] := by
  rw [fgets] at h
  split at h
  · assumption
  · exact absurd h (by simp)

theorem takeLine_length (n : Nat) (s : Text) (hs : s ≠ []) :
    (takeLine (n + 1) s).2.length < s.length := by
  have happ := congrArg List.length (takeLine_append (n + 1) s)
  have hpos : 0 < (takeLine (n + 1) s).1.length := by
    cases s with
    | nil => exact absurd rfl hs
    | cons c s =>
      rw [takeLine]
      split <;> simp
  simp only [List.length_append] at happ
  omega

theorem fgets_length {size : Nat} (hsize : 2 ≤ size) {s l rest : Text}
    (h : fgets size s = some (l, rest)) : rest.length < s.length := by
  rw [fgets] at h
  split at h
  · exact absurd h (by simp)
  · obtain ⟨n, rfl⟩ : ∃ n, size = n + 2 := ⟨size - 2, by omega⟩
    have := takeLine_length n s ‹_›
    simp only [Option.some.injEq, Nat.add_succ_sub_one] at h
    rwa [h] at this

theorem cstr_eq {l : Text} (h : 0 ∉ l) : cstr l = l := by
  induction l with
  | nil => rfl
  | cons c l ih =>
    have hc : c ≠ 0 := fun hc => h (by simp [hc])
    have hl : 0 ∉ l := fun hl => h (by simp [hl])
    rw [cstr, List.takeWhile_cons_of_pos (by simpa using hc)]
    exact congrArg (c :: ·) (ih hl)

theorem zero_notMem_cstr (l : Text) : 0 ∉ cstr l := by
  intro h
  have hall := List.all_takeWhile (p := fun c : Nat => decide (c ≠ 0)) (l := l)
  have := List.all_eq_true.mp hall 0 h
  simp at this

theorem IsLine.split {l : Text} (h : IsLine l) : ∃ b, l = b ++ [newline] ∧ newline ∉ b := by
  have hne : l ≠ [] := by
    intro hl
    have := h.ends
    simp [hl] at this
  have hlast : l.getLast hne = newline := by
    have := h.ends
    rwa [List.getLast?_eq_some_getLast hne, Option.some.injEq] at this
  refine ⟨l.dropLast, ?_, h.only⟩
  rw [← hlast, List.dropLast_append_getLast]

theorem isLine_append {b : Text} (hn : newline ∉ b) (h0 : 0 ∉ b) : IsLine (b ++ [newline]) := by
  refine ⟨by simp, by simpa using hn, ?_⟩
  simpa [newline] using h0

theorem IsLine.ne_nil {l : Text} (h : IsLine l) : l ≠ [] := by
  intro hl
  have := h.ends
  simp [hl] at this

theorem IsLine.fgets {l : Text} (h : IsLine l) {size : Nat} (hl : l.length < size) (s : Text) :
    fgets size (l ++ s) = some (l, s) := by
  obtain ⟨b, rfl, hb⟩ := h.split
  have hlen : b.length < size - 1 := by
    simp only [List.length_append, List.length_singleton] at hl
    omega
  simp [Lib.fgets, takeLine_line _ b s hb hlen]

theorem IsLine.cstr {l : Text} (h : IsLine l) : cstr l = l := cstr_eq h.string

theorem digits_digit (n x : Nat) : ∀ c ∈ digits n x, 48 ≤ c ∧ c ≤ 57 := by
  induction n generalizing x with
  | zero =>
    intro c hc
    simp only [digits, List.mem_singleton] at hc
    omega
  | succ n ih =>
    intro c hc
    rw [digits] at hc
    split at hc
    · simp only [List.mem_singleton] at hc
      omega
    · rcases List.mem_append.mp hc with hc | hc
      · exact ih _ c hc
      · simp only [List.mem_singleton] at hc
        omega

/- "%d" of a natural number, whatever its size. -/
def dec (x : Nat) : Text := digits x x

def IsDigit (c : Nat) : Prop := 48 ≤ c ∧ c ≤ 57

instance (c : Nat) : Decidable (IsDigit c) := inferInstanceAs (Decidable (_ ∧ _))

/- A number is read on from `sum`; what follows its digits is left. -/
def readFrom (sum : Nat) : Text → Nat × Text
  | [] => (sum, [])
  | c :: p => if IsDigit c then readFrom (sum * 10 + (c - 48)) p else (sum, c :: p)

/- The text does not go on with a digit. -/
def Stops : Text → Prop
  | [] => True
  | c :: _ => ¬ IsDigit c

instance (p : Text) : Decidable (Stops p) :=
  match p with
  | [] => inferInstanceAs (Decidable True)
  | c :: _ => inferInstanceAs (Decidable (¬ IsDigit c))

/- A file by its lines. -/
def lines : Text → List Text
  | [] => []
  | c :: s =>
    if c = newline then [newline] :: lines s
    else
      match lines s with
      | [] => [[c]]
      | l :: ls => (c :: l) :: ls

theorem readFrom_stops (sum : Nat) (p : Text) : Stops (readFrom sum p).2 := by
  induction p generalizing sum with
  | nil => trivial
  | cons c p ih =>
    rw [readFrom]
    split
    · exact ih _
    · assumption

theorem readFrom_end (sum : Nat) {p : Text} (hp : Stops p) : readFrom sum p = (sum, p) := by
  cases p with
  | nil => rfl
  | cons c p =>
    exact if_neg hp

/- Digits are read back. -/
theorem readFrom_digits (n x : Nat) (hx : x < 10 ^ (n + 1)) (p : Text) :
    readFrom 0 (digits n x ++ p) = readFrom x p := by
  induction n generalizing x p with
  | zero =>
    have hx' : x < 10 := by simpa using hx
    simp [digits, readFrom, IsDigit]
    rw [if_pos (by omega)]
    congr 1
    omega
  | succ n ih =>
    rw [digits]
    split
    · simp [readFrom, IsDigit]
      omega
    · have hdiv : x / 10 < 10 ^ (n + 1) := by
        rw [Nat.div_lt_iff_lt_mul (by decide)]
        rwa [Nat.pow_succ] at hx
      have hnext : x / 10 * 10 + (48 + x % 10 - 48) = x := by omega
      rw [List.append_assoc, ih _ hdiv, List.singleton_append, readFrom,
        if_pos ⟨by omega, by omega⟩, hnext]

theorem readFrom_dec (x : Nat) {p : Text} (hp : Stops p) : readFrom 0 (dec x ++ p) = (x, p) := by
  have hx : x < 10 ^ (x + 1) := Nat.lt_trans (Nat.lt_pow_self (by decide))
    (Nat.pow_lt_pow_succ (by decide))
  rw [dec, readFrom_digits x x hx, readFrom_end x hp]

theorem digits_ne_nil (n x : Nat) : digits n x ≠ [] := by
  cases n with
  | zero => simp [digits]
  | succ n =>
    rw [digits]
    split <;> simp

theorem lines_line (b s : Text) (h : newline ∉ b) :
    lines (b ++ newline :: s) = (b ++ [newline]) :: lines s := by
  induction b with
  | nil => simp [lines]
  | cons c b ih =>
    have hc : c ≠ newline := fun hc => h (by simp [hc])
    have hb : newline ∉ b := fun hb => h (by simp [hb])
    simp [lines, hc, ih hb]

theorem flatten_lines (s : Text) : (lines s).flatten = s := by
  induction s with
  | nil => rfl
  | cons c s ih =>
    rw [lines]
    split
    · rename_i hc
      rw [List.flatten_cons, ih, hc]
      rfl
    · cases hl : lines s with
      | nil =>
        rw [hl] at ih
        rw [← ih]
        rfl
      | cons l ls =>
        rw [hl] at ih
        rw [← ih]
        rfl

/- A line with its newline, and no other. -/
def Ended (l : Text) : Prop := ∃ b, l = b ++ [newline] ∧ newline ∉ b

theorem lines_flatten {ls : List Text} (h : ∀ l ∈ ls, Ended l) (s : Text) :
    lines (ls.flatten ++ s) = ls ++ lines s := by
  induction ls with
  | nil => rfl
  | cons l ls ih =>
    obtain ⟨b, rfl, hb⟩ := h l (by simp)
    have ih' := ih fun m hm => h m (by simp [hm])
    rw [List.flatten_cons, List.append_assoc, List.append_assoc, List.singleton_append,
      lines_line _ _ hb, ih']
    rfl

end Svr32.Lib
