import Mathlib.Data.List.Infix

/-! libgen/gmatch.c: patterns of the shell. Bytes are unsigned, and a string is a list of bytes
with its NUL; a read past that is a fault. -/
namespace Svr32.Libgen.Gmatch

abbrev star : Nat := 42
abbrev quest : Nat := 63
abbrev bang : Nat := 33
abbrev dash : Nat := 45
abbrev lbrack : Nat := 91
abbrev backslash : Nat := 92
abbrev rbrack : Nat := 93

/- A read past the NUL, or more nested calls than the bound. -/
inductive Fault where
  | outside
  | depth
deriving DecidableEq

/- *p++ -/
def fetch : List Nat → Except Fault (Nat × List Nat)
  | [] => .error .outside
  | c :: p => .ok (c, p)

/- A character of a bracket: ok as it leaves it, or nothing where that returns 0. -/
def item (notflag : Bool) (scc c ok : Nat) : Option Nat :=
  if notflag then if scc ≠ 0 ∧ scc ≠ c then some (ok + 1) else none
  else some (if scc = c then ok + 1 else ok)

/- The loop of a bracket: ok and p at the bracket's end, or nothing where it returns 0. -/
def scan (notflag : Bool) (scc : Nat) : Int → Nat → List Nat →
    Except Fault (Option (Nat × List Nat))
  | _, _, [] => .error .outside
  | lc, ok, c :: p =>
    if c = 0 then .ok none
    else if c = rbrack then .ok (some (ok, p))
    else if c = dash ∧ lc > 0 ∧ p.head? ≠ some rbrack then
      match p with
      | [] => .error .outside
      | hi :: rest =>
        -- p++ is behind the || and the &&
        if notflag then
          if scc < lc then scan notflag scc lc (ok + 1) (hi :: rest)
          else if scc > hi then scan notflag scc lc (ok + 1) rest
          else .ok none
        else if lc ≤ scc then scan notflag scc lc (if scc ≤ hi then ok + 1 else ok) rest
        else scan notflag scc lc ok (hi :: rest)
    else if c = backslash then
      match p with
      | [] => .error .outside
      | c :: p =>
        match item notflag scc c ok with
        | none => .ok none
        | some ok => scan notflag scc c ok p
    else
      match item notflag scc c ok with
      | none => .ok none
      | some ok => scan notflag scc c ok p

/- while (*p == '*') p++; -/
def skipStars : List Nat → Except Fault (List Nat)
  | [] => .error .outside
  | c :: p => if c = star then skipStars p else .ok (c :: p)

/- while (*s) if (gmatch(s++, p)) return(1); -/
def anySuffix (gm : List Nat → Except Fault Bool) : List Nat → Except Fault Bool
  | [] => .error .outside
  | c :: s =>
    if c = 0 then .ok false
    else do
      if ← gm (c :: s) then .ok true else anySuffix gm s

def gmatch : Nat → List Nat → List Nat → Except Fault Bool
  | 0, _, _ => .error .depth
  | n + 1, s, p => do
    let (scc, s') ← fetch s
    let (c, p) ← fetch p
    if c = lbrack then do
      let (d, p') ← fetch p
      let (notflag, p) := if d = bang then (true, p') else (false, p)
      match ← scan notflag scc (-1) 0 p with
      | none => .ok false
      | some (ok, p) => if ok ≠ 0 then gmatch n s' p else .ok false
    else if c = star then do
      let p ← skipStars p
      let (d, _) ← fetch p
      if d = 0 then .ok true else anySuffix (fun s => gmatch n s p) s
    else if c = quest then if scc ≠ 0 then gmatch n s' p else .ok false
    else if c = 0 then .ok (scc = 0)
    else do
      let (c, p) ← if c = backslash then fetch p else .ok (c, p)
      if c ≠ scc then .ok false
      else if scc ≠ 0 then gmatch n s' p else .ok false

/-! What a pattern means. -/

/- A bracket that runs to the end of the pattern ends plainly, after a backslash, or after the
'-' of a range from a character. -/
inductive Off where
  | plain
  | quote
  | range (base : Nat)
deriving DecidableEq

inductive Close where
  | closed (rest : List Nat)
  | opened (off : Off)
deriving DecidableEq

/- What a bracket has: its characters and ranges as intervals, whether a range in it is odd, and
how it ends. -/
structure Body where
  items : List (Nat × Nat)
  odd : Bool
  close : Close
deriving DecidableEq

def Body.push (b : Body) (i : Nat × Nat) (odd : Bool) : Body :=
  { b with items := i :: b.items, odd := odd || b.odd }

/- The text after the opening bracket. A range starts at the last character, where there is one;
one that follows another starts where that did. A range is odd if its end is quoted, or if it goes
down to a '-' that does not end the bracket. -/
def body (base : Nat) : List Nat → Body
  | [] => ⟨[], false, .opened .plain⟩
  | c :: p =>
    if c = rbrack then ⟨[], false, .closed p⟩
    else if c = dash ∧ 0 < base ∧ p.head? ≠ some rbrack then
      match p with
      | [] => ⟨[], false, .opened (.range base)⟩
      | hi :: p =>
        if hi = backslash then
          match p with
          | [] => ⟨[], true, .opened .quote⟩
          | hi :: p => (body (min base hi) p).push (base, hi) true
        else (body (min base hi) p).push (base, hi)
          (hi = dash ∧ hi < base ∧ p.head? ≠ some rbrack)
    else if c = backslash then
      match p with
      | [] => ⟨[], false, .opened .quote⟩
      | c :: p => (body c p).push (c, c) false
    else (body c p).push (c, c) false

/- A pattern is read as pieces, and ends after them, at a backslash or in an open bracket. -/
inductive Piece where
  | star
  | any
  | char (c : Nat)
  | set (notflag : Bool) (b : Body)

inductive Tail where
  | done
  | quote
  | opened (notflag : Bool) (b : Body) (off : Off)

/- Whether a bracket starts with '!', and what follows. -/
def negation : List Nat → Bool × List Nat
  | [] => (false, [])
  | c :: p => if c = bang then (true, p) else (false, c :: p)

inductive Reads : List Nat → List Piece → Tail → Prop
  | done : Reads [] [] .done
  | star {p ps t} : Reads p ps t → Reads (Gmatch.star :: p) (.star :: ps) t
  | any {p ps t} : Reads p ps t → Reads (quest :: p) (.any :: ps) t
  | quoted {p ps t} (c : Nat) : Reads p ps t → Reads (backslash :: c :: p) (.char c :: ps) t
  | quote : Reads [backslash] [] .quote
  | char {p ps t} (c : Nat) : c ∉ [Gmatch.star, quest, backslash, lbrack] → Reads p ps t →
    Reads (c :: p) (.char c :: ps) t
  | set {p rest ps t} : (body 0 (negation p).2).close = .closed rest → Reads rest ps t →
    Reads (lbrack :: p) (.set (negation p).1 (body 0 (negation p).2) :: ps) t
  | opened {p off} : (body 0 (negation p).2).close = .opened off → Reads (lbrack :: p) []
    (.opened (negation p).1 (body 0 (negation p).2) off)

/- An interval has the characters between its ends, and its ends. -/
def Has (i : Nat × Nat) (c : Nat) : Prop := i.1 ≤ c ∧ c ≤ i.2 ∨ c = i.2

def Body.Any (b : Body) (c : Nat) : Prop := ∃ i ∈ b.items, Has i c

/- The characters that a piece other than a star stands for. -/
def Piece.Accepts : Piece → Nat → Prop
  | .star, _ => False
  | .any, _ => True
  | .char d, c => c = d
  | .set notflag b, c => if notflag then ¬ b.Any c else b.Any c

/- The strings of a pattern. -/
inductive Lang : List Piece → List Nat → Prop
  | nil : Lang [] []
  | one {q ps c s} : q.Accepts c → Lang ps s → Lang (q :: ps) (c :: s)
  | star {ps s u} : u <:+ s → Lang ps u → Lang (.star :: ps) s

/- Where the match of a string can be when the pieces are used up. -/
inductive Reach : List Piece → List Nat → List Nat → Prop
  | nil (s : List Nat) : Reach [] s s
  | one {q ps c s v} : q.Accepts c → Reach ps s v → Reach (q :: ps) (c :: s) v
  | star {ps s c u v} : c :: u <:+ s → Reach ps (c :: u) v → Reach (.star :: ps) s v

/- Whether what follows the NUL of the pattern is read for `c`. -/
def Off.Reads : Off → Nat → Prop
  | .plain, _ => False
  | .quote, _ => True
  | .range base, c => base ≤ c

/- The loop of a bracket leaves the pattern at the character `c`, or at the NUL for 0. -/
def Leaves (notflag : Bool) (b : Body) (off : Off) (c : Nat) : Prop :=
  off.Reads c ∧ (notflag = true → c ≠ 0 ∧ ¬ b.Any c)

/- What the loop of a bracket does with a character. -/
def Judged (notflag : Bool) (scc : Nat) (b : Body) (ok : Nat)
    (r : Except Fault (Option (Nat × List Nat))) : Prop :=
  (notflag = true ∧ (scc = 0 ∧ b.items ≠ [] ∨ b.Any scc) → r = .ok none) ∧
    (¬ (notflag = true ∧ (scc = 0 ∧ b.items ≠ [] ∨ b.Any scc)) → match b.close with
      | .closed rest => ∃ ok', r = .ok (some (ok', rest ++ [0])) ∧
        (ok' ≠ 0 ↔ ok ≠ 0 ∨ if notflag then b.items ≠ [] else b.Any scc)
      | .opened off => (off.Reads scc ∧ (notflag = true → scc ≠ 0) → r = .error .outside) ∧
        (¬ (off.Reads scc ∧ (notflag = true → scc ≠ 0)) → r = .ok none))

section bracket
variable {notflag : Bool} {scc ok ok₁ : Nat} {b : Body} {i : Nat × Nat} {odd : Bool}
  {r : Except Fault (Option (Nat × List Nat))}

theorem any_push {c : Nat} : (b.push i odd).Any c ↔ Has i c ∨ b.Any c := by
  simp [Body.Any, Body.push]

theorem Judged.push (h : Judged notflag scc b ok₁ r)
    (hn : notflag = true → scc ≠ 0 ∧ ¬ Has i scc ∧ ok₁ ≠ 0)
    (hp : notflag = false → (ok₁ ≠ 0 ↔ ok ≠ 0 ∨ Has i scc)) :
    Judged notflag scc (b.push i odd) ok r := by
  have hclose : (b.push i odd).close = b.close := rfl
  have hitems : (b.push i odd).items ≠ [] := List.cons_ne_nil _ _
  obtain ⟨hstop, hgo⟩ := h
  rw [Judged, any_push, hclose]
  cases notflag with
  | true =>
    obtain ⟨h0, hi, hok⟩ := hn rfl
    refine ⟨fun hs => hstop ⟨rfl, .inr ?_⟩, fun hs => ?_⟩
    · rcases hs.2 with h | h | h
      · exact (h0 h.1).elim
      · exact (hi h).elim
      · exact h
    · have hb : ¬ b.Any scc := fun h => hs ⟨rfl, .inr (.inr h)⟩
      have hgo := hgo fun h => h.2.elim (fun h => h0 h.1) hb
      cases hc : b.close with
      | closed rest =>
        rw [hc] at hgo
        obtain ⟨ok', hr, he⟩ := hgo
        exact ⟨ok', hr, by simp [he, hok, hitems]⟩
      | opened off => rwa [hc] at hgo
  | false =>
    refine ⟨fun hs => (nomatch hs.1), fun _ => ?_⟩
    have hgo := hgo fun h => (nomatch h.1)
    cases hc : b.close with
    | closed rest =>
      rw [hc] at hgo
      obtain ⟨ok', hr, he⟩ := hgo
      refine ⟨ok', hr, ?_⟩
      rw [he, hp rfl]
      simp [or_assoc]
    | opened off => rwa [hc] at hgo

/- After a '!' what counts is whether there are characters at all. -/
theorem Judged.start (h : Judged notflag scc (b.push i odd) (if notflag then ok + 1 else ok) r) :
    Judged notflag scc (b.push i odd) ok r := by
  cases notflag with
  | false => exact h
  | true =>
    refine ⟨h.1, fun hn => ?_⟩
    have hgo := h.2 hn
    cases hc : (b.push i odd).close with
    | closed rest =>
      rw [hc] at hgo
      obtain ⟨ok', hr, he⟩ := hgo
      have hitems : (b.push i odd).items ≠ [] := List.cons_ne_nil _ _
      exact ⟨ok', hr, by simp [he, hitems]⟩
    | opened off => rwa [hc] at hgo

/- What lc and the start of a range have to do with each other: they are below the same
characters that matter. -/
def Follows (scc base : Nat) (lc : Int) : Prop :=
  lc = -1 ∧ base = 0 ∨ 0 < lc ∧ 0 < base ∧ (lc ≤ scc ↔ base ≤ scc)

section steps
variable {c hi base : Nat} {lc : Int} {p : List Nat}

theorem scan_item (h0 : c ≠ 0) (hr : c ≠ rbrack) (hb : c ≠ backslash)
    (hd : ¬ (c = dash ∧ lc > 0 ∧ p.head? ≠ some rbrack)) : scan notflag scc lc ok (c :: p) =
      match item notflag scc c ok with
        | none => .ok none
        | some ok => scan notflag scc c ok p := by
  rw [scan.eq_def]
  dsimp only
  rw [if_neg h0, if_neg hr, if_neg hd, if_neg hb]

end steps

theorem Follows.pos {base : Nat} {lc : Int} (hf : Follows scc base lc) : lc > 0 ↔ 0 < base := by
  unfold Follows at hf
  omega

end bracket

end Svr32.Libgen.Gmatch
