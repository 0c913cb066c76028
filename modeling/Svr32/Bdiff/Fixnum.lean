import Svr32.Lib.Text
import Svr32.Lib.Patch

/-! bdiff.c: two files are given to diff in segments, and the numbers in its listings are made those
of the whole files. A file is its list of lines, each of which fgets reads whole. -/
namespace Svr32.Bdiff
open Svr32.Lib

def BUFSIZ : Nat := 1024

section
variable (linenum : Nat)

/- fixnum; `none` where it prints for ever, at what is neither a number nor between numbers. Line
numbers are below 2^31, as files are. -/
def fixnum : Nat → Text → Option Text
  | 0, _ => none
  | _ + 1, [] => some []
  | fuel + 1, c :: p =>
    if c = 97 ∨ c = 99 ∨ c = 100 ∨ c = 44 ∨ c = newline then (fixnum fuel p).map (c :: ·)
    else
      let num := readFrom 0 (c :: p)
      if num.2 = c :: p then none else (fixnum fuel num.2).map (dec (num.1 + linenum) ++ ·)

/- A line of diff as it is printed. -/
def fixline (diffline : Text) : Option Text :=
  if Stops diffline then some (cstr diffline)
  else fixnum linenum (diffline.length + 1) (cstr diffline)

/- What is printed of the output of diff, which is read through a buffer. -/
def relay : Nat → Text → Option Text
  | 0, _ => none
  | fuel + 1, pipe =>
    match fgets BUFSIZ pipe with
    | none => some []
    | some (diffline, rest) => do
      let l ← fixline linenum diffline
      let ls ← relay fuel rest
      some (l ++ ls)

/- The lines, each after its mark. -/
def putsave (type : Nat) (saved : List Text) : Text := saved.flatMap fun line => [type, 32] ++ line

def addgen (new : List Text) : Text :=
  dec linenum ++ [97] ++ dec (linenum + 1) ++ [44] ++ dec (linenum + new.length) ++ [newline] ++
    putsave 62 new

def delgen (old : List Text) : Text :=
  dec (linenum + 1) ++ [44] ++ dec (linenum + old.length) ++ [100] ++ dec linenum ++ [newline] ++
    putsave 60 old

end

/- The lines at the beginning that are equal are passed over. -/
def skipEqual : Nat → List Text → List Text → Nat × List Text × List Text
  | linenum, o :: old, n :: new =>
    if o = n then skipEqual (linenum + 1) old new else (linenum, o :: old, n :: new)
  | linenum, old, new => (linenum, old, new)

section
variable (seglim : Nat) (diff : List Text → List Text → Text)

/- The loop over the segments. -/
def segments : Nat → Nat → List Text → List Text → Option Text
  | 0, _, _, _ => none
  | fuel + 1, linenum, old, new =>
    if old = [] ∧ new = [] then some []
    else if old = [] then some (addgen linenum new)
    else if new = [] then some (delgen linenum old)
    else do
      let listing := diff (old.take seglim) (new.take seglim)
      let out ← relay linenum (listing.length + 1) listing
      let outs ← segments fuel (linenum + seglim) (old.drop seglim) (new.drop seglim)
      some (out ++ outs)

def bdiff (old new : List Text) : Option Text :=
  let s := skipEqual 0 old new
  segments seglim diff (s.2.1.length + s.2.2.length + 1) s.1 s.2.1 s.2.2

end
end Svr32.Bdiff

/-! bdiff.c: a command of a listing, with its numbers fixed, is the command moved down. -/
namespace Svr32.Bdiff
open Svr32.Lib Svr32.Lib.Patch

def shift (n : Nat) (c : Cmd) : Cmd := ⟨c.lo + n, c.hi + n, c.kind, c.lo' + n, c.hi' + n⟩

theorem readFrom_split (sum : Nat) (p : Text) :
    ∃ ds, p = ds ++ (readFrom sum p).2 ∧ ∀ c ∈ ds, IsDigit c := by
  induction p generalizing sum with
  | nil => exact ⟨[], rfl, by simp⟩
  | cons c p ih =>
    rw [readFrom]
    split
    · rename_i hc
      obtain ⟨ds, hds, hall⟩ := ih (sum * 10 + (c - 48))
      refine ⟨c :: ds, by rw [List.cons_append, ← hds], ?_⟩
      intro d hd
      rcases List.mem_cons.mp hd with rfl | hd
      · exact hc
      · exact hall d hd
    · exact ⟨[], rfl, by simp⟩

theorem dec_digit (x : Nat) : ∀ c ∈ dec x, IsDigit c := digits_digit x x

theorem dec_cons (x : Nat) : ∃ c p, dec x = c :: p ∧ IsDigit c := by
  obtain ⟨c, p, h⟩ := List.exists_cons_of_ne_nil (digits_ne_nil x x)
  exact ⟨c, p, h, dec_digit x c (by rw [dec, h]; simp)⟩

/- What number takes are digits, of which there are some. -/
theorem number_spec {p q : Text} {v : Nat} (h : number p = some (v, q)) :
    Stops q ∧ ∃ c ds, p = c :: (ds ++ q) ∧ (∀ d ∈ c :: ds, IsDigit d) ∧ readFrom 0 p = (v, q) := by
  rw [number] at h
  split at h
  · cases h
  · rename_i hp
    simp only [Option.some.injEq] at h
    have hq : (readFrom 0 p).2 = q := by rw [h]
    have hstop := readFrom_stops 0 p
    obtain ⟨ds, hds, hall⟩ := readFrom_split 0 p
    rw [hq] at hstop hds
    cases ds with
    | nil =>
      rw [hds] at hp
      exact absurd hstop hp
    | cons c ds => exact ⟨hstop, c, ds, hds, hall, h⟩

theorem number_dec (v : Nat) {q : Text} (hq : Stops q) : number (dec v ++ q) = some (v, q) := by
  obtain ⟨c, p, h, hc⟩ := dec_cons v
  have hno : ¬ Stops (dec v ++ q) := by
    rw [h]
    exact fun hs => hs hc
  rw [number, if_neg hno, readFrom_dec v hq]

theorem fixnum_number {n fuel : Nat} {p q : Text} {v : Nat} (h : number p = some (v, q)) :
    fixnum n (fuel + 1) p = (fixnum n fuel q).map (dec (v + n) ++ ·) := by
  obtain ⟨-, c, ds, hp, hall, hread⟩ := number_spec h
  have hc := hall c (by simp)
  rw [IsDigit] at hc
  have hne : q ≠ p := by
    intro hq
    have := congrArg List.length hp
    simp only [List.length_cons, List.length_append, hq] at this
    omega
  rw [hp] at hread hne ⊢
  rw [fixnum, if_neg (by simp only [newline]; omega), hread]
  exact if_neg hne

theorem fixnum_char {n fuel c : Nat} {p : Text}
    (hc : c = 97 ∨ c = 99 ∨ c = 100 ∨ c = 44 ∨ c = newline) :
    fixnum n (fuel + 1) (c :: p) = (fixnum n fuel p).map (c :: ·) := by
  rw [fixnum, if_pos hc]

/- A pair of numbers, and the same pair moved. -/
theorem range_spec {p q : Text} {a b : Nat} (h : range p = some (a, b, q)) :
    (number p = some (a, q) ∧ a = b ∧ q.head? ≠ some 44) ∨
      ∃ r, number p = some (a, 44 :: r) ∧ number r = some (b, q) := by
  rw [range] at h
  cases hn : number p with
  | none => simp [hn] at h
  | some x =>
    obtain ⟨v, r⟩ := x
    simp only [hn, Option.bind_eq_bind, Option.bind_some] at h
    split at h
    · rename_i r'
      cases hm : number r' with
      | none => simp [hm] at h
      | some y =>
        obtain ⟨w, q'⟩ := y
        simp only [hm, Option.bind_some, Option.some.injEq, Prod.mk.injEq] at h
        obtain ⟨rfl, rfl, rfl⟩ := h
        exact .inr ⟨r', rfl, hm⟩
    · rename_i hne
      simp only [Option.some.injEq, Prod.mk.injEq] at h
      obtain ⟨rfl, rfl, rfl⟩ := h
      refine .inl ⟨rfl, rfl, ?_⟩
      intro hq
      cases r with
      | nil => cases hq
      | cons c r =>
        simp only [List.head?_cons, Option.some.injEq] at hq
        exact hne r (by rw [hq])

/- Text that reads as the pair of numbers, whatever follows it but a digit or a comma. -/
def Reads (a b : Nat) (t : Text) : Prop :=
  (∃ c p, t = c :: p ∧ IsDigit c) ∧ newline ∉ t ∧ 0 ∉ t ∧
    ∀ q, Stops q → q.head? ≠ some 44 → range (t ++ q) = some (a, b, q)

theorem dec_plain (x : Nat) : newline ∉ dec x ∧ 0 ∉ dec x := by
  have h := dec_digit x
  refine ⟨fun hm => ?_, fun hm => ?_⟩
  · have := h _ hm
    simp [IsDigit, newline] at this
  · have := h _ hm
    simp [IsDigit] at this

theorem reads_one (a : Nat) : Reads a a (dec a) := by
  obtain ⟨c, p, h, hc⟩ := dec_cons a
  refine ⟨⟨c, p, h, hc⟩, (dec_plain a).1, (dec_plain a).2, ?_⟩
  intro q hq hcomma
  rw [range, number_dec a hq]
  simp only [Option.bind_eq_bind, Option.bind_some]
  split
  · exact absurd rfl hcomma
  · rfl

theorem reads_two (a b : Nat) : Reads a b (dec a ++ 44 :: dec b) := by
  obtain ⟨c, p, h, hc⟩ := dec_cons a
  obtain ⟨ha, ha0⟩ := dec_plain a
  obtain ⟨hb, hb0⟩ := dec_plain b
  refine ⟨⟨c, p ++ 44 :: dec b, by rw [h]; rfl, hc⟩, by simpa [newline] using ⟨ha, hb⟩,
    by simp [ha0, hb0], ?_⟩
  intro q hq hcomma
  have hstop : Stops (44 :: (dec b ++ q)) := by simp [Stops, IsDigit]
  rw [List.append_assoc, List.cons_append, range, number_dec a hstop]
  simp only [Option.bind_eq_bind, Option.bind_some, number_dec b hq]

theorem fixnum_range {n : Nat} {p q : Text} {a b : Nat} (h : range p = some (a, b, q)) :
    ∃ t k, Reads (a + n) (b + n) t ∧ k + q.length ≤ p.length ∧
      ∀ fuel, fixnum n (fuel + k) p = (fixnum n fuel q).map (t ++ ·) := by
  have hlen : ∀ {p q : Text} {v : Nat}, number p = some (v, q) → q.length + 1 ≤ p.length := by
    intro p q v hn
    obtain ⟨-, c, ds, hp, -⟩ := number_spec hn
    have := congrArg List.length hp
    simp only [List.length_cons, List.length_append] at this
    omega
  rcases range_spec h with ⟨hn, rfl, -⟩ | ⟨r, hn, hm⟩
  · have := hlen hn
    exact ⟨dec (a + n), 1, reads_one _, by omega, fun fuel => fixnum_number hn⟩
  · have h₁ := hlen hn
    have h₂ := hlen hm
    simp only [List.length_cons] at h₁
    refine ⟨dec (a + n) ++ 44 :: dec (b + n), 3, reads_two _ _, by omega, fun fuel => ?_⟩
    rw [fixnum_number hn, fixnum_char (by simp), fixnum_number hm]
    cases fixnum n fuel q with
    | none => rfl
    | some u => simp

theorem number_plain {p q : Text} {v : Nat} (h : number p = some (v, q)) :
    ∃ t, p = t ++ q ∧ newline ∉ t ∧ 0 ∉ t := by
  obtain ⟨-, c, ds, hp, hall, -⟩ := number_spec h
  refine ⟨c :: ds, hp, fun hm => ?_, fun hm => ?_⟩
  · have := hall _ hm
    simp [IsDigit, newline] at this
  · have := hall _ hm
    simp [IsDigit] at this

theorem range_plain {p q : Text} {a b : Nat} (h : range p = some (a, b, q)) :
    ∃ t, p = t ++ q ∧ newline ∉ t ∧ 0 ∉ t := by
  rcases range_spec h with ⟨hn, -, -⟩ | ⟨r, hn, hm⟩
  · exact number_plain hn
  · obtain ⟨t, rfl, ht, ht0⟩ := number_plain hn
    obtain ⟨u, rfl, hu, hu0⟩ := number_plain hm
    refine ⟨t ++ 44 :: u, by simp, ?_, by simp [ht0, hu0]⟩
    simpa [newline] using ⟨ht, hu⟩

theorem kind_letter {c : Nat} {k : Kind} (h : kind c = some k) : c = 97 ∨ c = 99 ∨ c = 100 := by
  rw [kind.eq_def] at h
  split at h <;> simp_all

/- The parts of a command line. -/
theorem parse_spec {l : Text} {c : Cmd} (h : parse l = some c) :
    ∃ x q, range l = some (c.lo, c.hi, x :: q) ∧ kind x = some c.kind ∧
      range q = some (c.lo', c.hi', [newline]) := by
  rw [parse] at h
  cases hr : range l with
  | none => simp [hr] at h
  | some r =>
    obtain ⟨lo, hi, q⟩ := r
    simp only [hr, Option.bind_eq_bind, Option.bind_some] at h
    split at h
    · cases h
    · rename_i x q
      cases hk : kind x with
      | none => simp [hk] at h
      | some k =>
        cases hr' : range q with
        | none => simp [hk, hr'] at h
        | some r' =>
          obtain ⟨lo', hi', q'⟩ := r'
          simp only [hk, hr', Option.bind_some] at h
          split at h
          · rename_i hq
            simp only [Option.some.injEq] at h
            subst h
            exact ⟨x, q, rfl, hk, by rw [hr', hq]⟩
          · cases h

theorem parse_plain {l : Text} {c : Cmd} (h : parse l = some c) :
    ¬ Stops l ∧ Ended l ∧ 0 ∉ l := by
  obtain ⟨x, q, hr, hk, hr'⟩ := parse_spec h
  have hstart : ¬ Stops l := by
    intro hs
    rcases range_spec hr with ⟨hn, -⟩ | ⟨r, hn, -⟩
    · rw [number, if_pos hs] at hn
      cases hn
    · rw [number, if_pos hs] at hn
      cases hn
  obtain ⟨t, rfl, ht, ht0⟩ := range_plain hr
  obtain ⟨u, rfl, hu, hu0⟩ := range_plain hr'
  have hx := kind_letter hk
  refine ⟨hstart, ⟨t ++ x :: u, by simp, ?_⟩, ?_⟩
  · simp only [List.mem_append, List.mem_cons, not_or]
    exact ⟨ht, by simp only [newline]; omega, hu⟩
  · simp only [List.mem_append, List.mem_cons, List.not_mem_nil, newline, not_or]
    exact ⟨ht0, by omega, hu0, by omega, by simp⟩

/-- A command is printed as the command that is `n` lines further down. -/
theorem fixline_command {l : Text} {c : Cmd} (n : Nat) (h : parse l = some c) :
    ∃ l', fixline n l = some l' ∧ parse l' = some (shift n c) ∧ Ended l' := by
  obtain ⟨hstart, -, h0⟩ := parse_plain h
  obtain ⟨x, q, hr, hk, hr'⟩ := parse_spec h
  have hx := kind_letter hk
  have hx' : ¬ IsDigit x := by
    rw [IsDigit]
    omega
  rw [fixline, if_neg hstart, cstr_eq h0]
  obtain ⟨t, j, ht, hlj, hfix⟩ := fixnum_range (n := n) hr
  obtain ⟨u, k, hu, hlk, hfix'⟩ := fixnum_range (n := n) hr'
  simp only [List.length_cons, List.length_nil] at hlj hlk
  obtain ⟨m, hm⟩ : ∃ m, l.length + 1 = ((m + 1 + 1 + k) + 1) + j :=
    ⟨l.length + 1 - (k + j + 3), by omega⟩
  obtain ⟨-, ht1, ht0, hread⟩ := ht
  obtain ⟨⟨d, v, hd, hdig⟩, hu1, hu0, hread'⟩ := hu
  have hend : Stops [newline] := by simp [Stops, IsDigit, newline]
  refine ⟨t ++ x :: (u ++ [newline]), ?_, ?_, t ++ x :: u, by simp, ?_⟩
  · rw [hm, hfix, fixnum_char (by omega), hfix', fixnum_char (by simp), fixnum]
    simp
  · have h₁ := hread (x :: (u ++ [newline])) hx' (by simp; omega)
    have h₂ := hread' [newline] hend (by simp [newline])
    rw [parse, h₁]
    simp only [Option.bind_eq_bind, Option.bind_some, hk, h₂]
    rfl
  · simp only [List.mem_append, List.mem_cons, not_or]
    exact ⟨ht1, by simp only [newline]; omega, hu1⟩

end Svr32.Bdiff
