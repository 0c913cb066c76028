import Svr32.Lib.Text

/-! cmd/diff/diff.c: check reads both files in step, breaks the matches that are none, and records
where the lines end. A file is what is left of it to read. -/
namespace Svr32.Diff
open Svr32.Lib

/- `none` is EOF, again and again. -/
def getc : Text → Option Nat × Text
  | [] => (none, [])
  | c :: f => (some c, f)

/- isspace of ctype.h: '\t', '\n', '\v', '\f', '\r' and ' '. -/
def isspace (c : Nat) : Bool := (9 ≤ c ∧ c ≤ 13) ∨ c = 32

/- for(i=1; c=getc(input[f]); i++): the loop ends at a NUL too. -/
def skipline : Nat → Text → Nat × Text
  | i, [] => (i, [])
  | i, c :: f => if c = 0 ∨ c = newline then (i, f) else skipline (i + 1) f

/- do { if(c=='\n' || c==EOF) break; ct++; } while(isspace(c=getc(f))) -/
def blanks (c : Option Nat) : Text → Nat → Option Nat × Text × Nat
  | [], ct => if c = some newline ∨ c = none then (c, [], ct) else (none, [], ct + 1)
  | d :: f, ct =>
    if c = some newline ∨ c = none then (c, d :: f, ct)
    else if isspace d then blanks (some d) f (ct + 1)
    else (some d, f, ct + 1)

/- One side of a turn: a character is read, and blanks if both sides have some. -/
def side (both : Bool) (f : Text) (ct : Nat) : Option Nat × Text × Nat :=
  let (c, f) := getc f
  if both then blanks c f (ct + 1) else (c, f, ct + 1)

/- bflag && isspace(c) && isspace(d) -/
def bothBlank (bflag : Bool) (f g : Text) : Bool :=
  bflag && (getc f).1.any isspace && (getc g).1.any isspace

/- One side of a mismatch: if(c!='\n' && c!=EOF) ct += skipline(f); -/
def skipRest (c : Option Nat) (f : Text) (ct : Nat) : Text × Nat :=
  if c ≠ some newline ∧ c ≠ none then ((skipline 1 f).2, ct + (skipline 1 f).1) else (f, ct)

/- for(;;) of a mated line: whether the lines are equal, and where both files are left. The bound
is on the characters of the old file: a turn takes one or is the last. -/
def inStep (bflag : Bool) : Nat → Text → Text → Nat → Nat → Option (Bool × (Text × Nat) × Text × Nat)
  | 0, _, _, _, _ => none
  | fuel + 1, f, g, ctold, ctnew =>
    let both := bothBlank bflag f g
    let (c, f, ctold) := side both f ctold
    let (d, g, ctnew) := side both g ctnew
    if c ≠ d then some (false, skipRest c f ctold, skipRest d g ctnew)
    else if c = some newline ∨ c = none then some (true, (f, ctold), g, ctnew)
    else inStep bflag fuel f g ctold ctnew

/- The lines of the new file that are skipped: their ends, and where the file is left. -/
def skips : Nat → Text → Nat → List Nat × Text × Nat
  | 0, g, ctnew => ([], g, ctnew)
  | n + 1, g, ctnew =>
    let ctnew := ctnew + (skipline 1 g).1
    let (ix, g, ctnew') := skips n (skipline 1 g).2 ctnew
    (ctnew :: ix, g, ctnew')

/- J, ixold and ixnew as they are written, entry after entry. -/
structure Checked where
  J : List Nat
  ixold : List Nat
  ixnew : List Nat
  deriving DecidableEq

/- for(i=1;i<=len[0];i++), over the entries of J; then the rest of the new file. -/
def checkLoop (bflag : Bool) (len1 : Nat) :
    List Nat → Nat → Text → Text → Nat → Nat → Option Checked
  | [], j, _, g, _, ctnew => some ⟨[], [], (skips (len1 + 1 - j) g ctnew).1⟩
  | J :: Js, j, f, g, ctold, ctnew =>
    if J = 0 then do
      let ctold := ctold + (skipline 1 f).1
      let r ← checkLoop bflag len1 Js j (skipline 1 f).2 g ctold ctnew
      some ⟨0 :: r.J, ctold :: r.ixold, r.ixnew⟩
    else do
      let (ix, g, ctnew) := skips (J - j) g ctnew
      let (same, (f, ctold), g, ctnew) ← inStep bflag (f.length + 1) f g ctold ctnew
      let r ← checkLoop bflag len1 Js (max j J + 1) f g ctold ctnew
      some ⟨(if same then J else 0) :: r.J, ctold :: r.ixold, ix ++ ctnew :: r.ixnew⟩

def check (bflag : Bool) (f g : Text) (J : List Nat) (len1 : Nat) : Option Checked := do
  let r ← checkLoop bflag len1 J 1 f g 0 0
  some { r with ixold := 0 :: r.ixold, ixnew := 0 :: r.ixnew }

/-! Lines and what check makes of them. -/

/-- What skipline passes is all of the line: its first newline or NUL is its last character. -/
def SkipsAll (l : Text) : Prop :=
  ∃ b c, l = b ++ [c] ∧ (c = 0 ∨ c = newline) ∧ ∀ x ∈ b, x ≠ 0 ∧ x ≠ newline

/- Where two lines are told apart, or end: the characters that were compared last, and what is
behind them. -/
def apart (bflag : Bool) : Nat → Text → Text → (Option Nat × Text) × (Option Nat × Text)
  | 0, l, m => ((none, l), (none, m))
  | fuel + 1, l, m =>
    let both := bothBlank bflag l m
    let (c, l, _) := side both l 0
    let (d, m, _) := side both m 0
    if c ≠ d ∨ c = some newline ∨ c = none then ((c, l), (d, m)) else apart bflag fuel l m

/-- One side of two lines that are compared is passed to its end: the comparison ends with the
newline, or skipline passes all that is behind a difference. -/
def Reaches (c : Option Nat) (l : Text) : Prop := c = some newline ∨ c ≠ none ∧ SkipsAll l

def BothReach (bflag : Bool) (l m : Text) : Prop :=
  Reaches (apart bflag (l.length + 1) l m).1.1 (apart bflag (l.length + 1) l m).1.2 ∧
    Reaches (apart bflag (l.length + 1) l m).2.1 (apart bflag (l.length + 1) l m).2.2

/- The characters of a line, a run of blanks as one `none`, without trailing blanks. -/
def squeezed : Text → List (Option Nat)
  | [] => []
  | c :: l =>
    if c = newline then []
    else if isspace c then
      match squeezed l with
      | [] => []
      | none :: us => none :: us
      | some c :: us => none :: some c :: us
    else some c :: squeezed l

/-- Lines that are really equal: with -b up to blanks. -/
def Same (bflag : Bool) (l m : Text) : Prop :=
  if bflag then squeezed l = squeezed m else l = m

instance (bflag : Bool) (l m : Text) : Decidable (Same bflag l m) :=
  inferInstanceAs (Decidable (if bflag then squeezed l = squeezed m else l = m))

/- What is left of a line, in front of `rest`. -/
def Tail (rest : Text) : Text → Prop
  | [] => rest = []
  | c :: l => if c = newline then l = [] else Tail rest l

/- What a turn leaves of one side: of the line `l`. -/
def Left (rest l : Text) : Option Nat × Text × Nat → Prop
  | (none, f, k) => f = [] ∧ rest = [] ∧ k = l.length + 1
  | (some c, f, k) => k + f.length = l.length ∧ 0 < k ∧ if c = newline then f = [] else Tail rest f

theorem isspace_newline : isspace newline = true := by decide

/-- Blanks are passed within the line, from the blank `c` on. -/
theorem blanks_spec {rest : Text} (c : Nat) (l : Text) (h : Tail rest (c :: l)) :
    ∃ d f n, (∀ ct, blanks (some c) l ct = (d, f, ct + n)) ∧
      (∀ ct, blanks (some c) (l ++ rest) ct = (d, f ++ rest, ct + n)) ∧
      Left rest (c :: l) (d, f, n + 1) := by
  induction l generalizing c with
  | nil =>
    by_cases hc : c = newline
    · have hstop : ∀ (f : Text) ct, blanks (some c) f ct = (some c, f, ct) := by
        intro f ct
        cases f <;> rw [blanks, if_pos (Or.inl (congrArg some hc))]
      refine ⟨some c, [], 0, fun ct => hstop [] ct, fun ct => hstop rest ct, rfl, Nat.one_pos, ?_⟩
      rw [if_pos hc]
    · have hrest : rest = [] := by
        rw [Tail, if_neg hc] at h
        exact h
      have hgo : ¬ (some c = some newline ∨ some c = none) := by simpa using hc
      subst hrest
      refine ⟨none, [], 1, ?_, ?_, rfl, rfl, rfl⟩
      · intro ct
        rw [blanks, if_neg hgo]
      · intro ct
        rw [List.append_nil, blanks, if_neg hgo]
  | cons d l ih =>
    have hc : c ≠ newline := by
      intro hc
      rw [Tail, if_pos hc] at h
      exact absurd h (List.cons_ne_nil d l)
    have htail : Tail rest (d :: l) := by
      rw [Tail, if_neg hc] at h
      exact h
    have hgo : ¬ (some c = some newline ∨ some c = none) := by simpa using hc
    by_cases hd : isspace d = true
    · obtain ⟨e, f, n, hl, happ, hleft⟩ := ih d htail
      refine ⟨e, f, n + 1, ?_, ?_, ?_⟩
      · intro ct
        rw [blanks, if_neg hgo, if_pos hd, hl, Nat.add_right_comm, Nat.add_assoc]
      · intro ct
        rw [List.cons_append, blanks, if_neg hgo, if_pos hd, happ, Nat.add_right_comm, Nat.add_assoc]
      · cases e with
        | none => exact ⟨hleft.1, hleft.2.1, congrArg (· + 1) hleft.2.2⟩
        | some e =>
          refine ⟨?_, Nat.succ_pos _, hleft.2.2⟩
          have hlen := hleft.1
          simp only [List.length_cons] at hlen ⊢
          omega
    · refine ⟨some d, l, 1, ?_, ?_, ?_⟩
      · intro ct
        rw [blanks, if_neg hgo, if_neg hd]
      · intro ct
        rw [List.cons_append, blanks, if_neg hgo, if_neg hd]
      · refine ⟨?_, by decide, htail⟩
        simp only [List.length_cons]
        omega

/-- A character is read, and blanks, within the line. -/
theorem side_spec {rest : Text} (both : Bool) (l : Text) (h : Tail rest l) :
    ∃ c f n, (∀ ct, side both l ct = (c, f, ct + n)) ∧
      (∀ ct, side both (l ++ rest) ct = (c, f ++ rest, ct + n)) ∧ Left rest l (c, f, n) := by
  cases l with
  | nil =>
    have hrest : rest = [] := h
    subst hrest
    refine ⟨none, [], 1, ?_, ?_, rfl, rfl, rfl⟩
    · intro ct
      cases both <;> rfl
    · intro ct
      cases both <;> rfl
  | cons c l =>
    cases both with
    | false =>
      refine ⟨some c, l, 1, fun ct => rfl, fun ct => rfl, ?_, Nat.one_pos, h⟩
      simp only [List.length_cons]
      omega
    | true =>
      obtain ⟨d, f, n, hl, happ, hleft⟩ := blanks_spec c l h
      refine ⟨d, f, n + 1, ?_, ?_, hleft⟩
      · intro ct
        change blanks (some c) l (ct + 1) = _
        rw [hl, Nat.add_right_comm, Nat.add_assoc]
      · intro ct
        change blanks (some c) (l ++ rest) (ct + 1) = _
        rw [happ, Nat.add_right_comm, Nat.add_assoc]

theorem bothBlank_append (bflag : Bool) {rest rest' l m : Text} (h : Tail rest l)
    (h' : Tail rest' m) : bothBlank bflag (l ++ rest) (m ++ rest') = bothBlank bflag l m := by
  have hget : ∀ {rest l : Text}, Tail rest l → (getc (l ++ rest)).1 = (getc l).1 := by
    intro rest l h
    cases l with
    | nil =>
      have hrest : rest = [] := h
      rw [hrest]
      rfl
    | cons c l => rfl
  unfold bothBlank
  rw [hget h, hget h']

/-! skipline -/

def Plain (b : Text) : Prop := ∀ x ∈ b, x ≠ 0 ∧ x ≠ newline

theorem skipline_stop {b : Text} (hb : Plain b) {c : Nat} (hc : c = 0 ∨ c = newline) (t : Text)
    (i : Nat) : skipline i (b ++ c :: t) = (i + b.length, t) := by
  induction b generalizing i with
  | nil => exact if_pos hc
  | cons x b ih =>
    have hx : ¬ (x = 0 ∨ x = newline) := not_or.mpr (hb x (by simp))
    rw [List.cons_append, skipline, if_neg hx, ih fun y hy => hb y (by simp [hy]), List.length_cons]
    congr 1
    omega

theorem skipline_end {b : Text} (hb : Plain b) (i : Nat) : skipline i b = (i + b.length, []) := by
  induction b generalizing i with
  | nil => rfl
  | cons x b ih =>
    have hx : ¬ (x = 0 ∨ x = newline) := not_or.mpr (hb x (by simp))
    rw [skipline, if_neg hx, ih fun y hy => hb y (by simp [hy]), List.length_cons]
    congr 1
    omega

/-- The first newline or NUL. -/
theorem plain_or (l : Text) :
    Plain l ∨ ∃ b c t, l = b ++ c :: t ∧ (c = 0 ∨ c = newline) ∧ Plain b := by
  induction l with
  | nil => exact Or.inl nofun
  | cons x l ih =>
    by_cases hx : x = 0 ∨ x = newline
    · exact Or.inr ⟨[], x, l, rfl, hx, nofun⟩
    · rcases ih with h | ⟨b, c, t, rfl, hc, hb⟩
      · left
        intro y hy
        rcases List.mem_cons.mp hy with rfl | hy
        · exact not_or.mp hx
        · exact h y hy
      · refine Or.inr ⟨x :: b, c, t, rfl, hc, ?_⟩
        intro y hy
        rcases List.mem_cons.mp hy with rfl | hy
        · exact not_or.mp hx
        · exact hb y hy

theorem Tail.plain {rest l : Text} (h : Tail rest l) (hl : Plain l) : rest = [] := by
  induction l with
  | nil => exact h
  | cons c l ih =>
    rw [Tail, if_neg (hl c (by simp)).2] at h
    exact ih h fun x hx => hl x (by simp [hx])

/-- skipline counts the line out exactly if it passes all of it, and is then behind it. -/
theorem skipline_spec {rest l : Text} (h : Tail rest l) :
    ((skipline 1 (l ++ rest)).1 = l.length ↔ SkipsAll l) ∧
      (SkipsAll l → (skipline 1 (l ++ rest)).2 = rest) := by
  rcases plain_or l with hl | ⟨b, c, t, rfl, hc, hb⟩
  · have hno : ¬ SkipsAll l := by
      rintro ⟨b, c, rfl, hc, -⟩
      have hx := hl c (by simp)
      exact hc.elim hx.1 hx.2
    rw [h.plain hl, List.append_nil, skipline_end hl]
    refine ⟨?_, fun hs => absurd hs hno⟩
    constructor
    · intro heq
      change 1 + l.length = l.length at heq
      omega
    · exact fun hs => absurd hs hno
  · rw [List.append_assoc, List.cons_append, skipline_stop hb hc]
    have hiff : SkipsAll (b ++ c :: t) ↔ t = [] := by
      constructor
      · rintro ⟨b', c', heq, -, hb'⟩
        by_contra ht
        have hmem : c ∈ b' := by
          obtain ⟨t', x, rfl⟩ := List.eq_nil_or_concat t |>.resolve_left ht
          rw [← List.concat_eq_append, List.concat_eq_append] at heq
          have heq' : (b ++ c :: t') ++ [x] = b' ++ [c'] := by simpa using heq
          rw [← (List.append_inj' heq' rfl).1]
          simp
        exact hc.elim (hb' c hmem).1 (hb' c hmem).2
      · rintro rfl
        exact ⟨b, c, rfl, hc, hb⟩
    rw [hiff]
    constructor
    · simp only [List.length_append, List.length_cons]
      rw [← List.length_eq_zero_iff]
      omega
    · rintro rfl
      rfl

/-! A mated line. -/

/-- One side of the turns after a first one. -/
theorem Left.trans {rest l f f' : Text} {c c' : Option Nat} {k k' : Nat}
    (h : Left rest l (c, f, k)) (hc : c ≠ none) (h' : Left rest f (c', f', k')) :
    Left rest l (c', f', k + k') := by
  obtain ⟨x, rfl⟩ := Option.ne_none_iff_exists'.mp hc
  have hlen := h.1
  cases c' with
  | none =>
    have hlen' := h'.2.2
    exact ⟨h'.1, h'.2.1, by omega⟩
  | some y =>
    have hlen' := h'.1
    have hpos := h.2.1
    exact ⟨by omega, by omega, h'.2.2⟩

theorem Left.tail {rest l f : Text} {c k : Nat} (h : Left rest l (some c, f, k))
    (hc : c ≠ newline) : Tail rest f ∧ f.length < l.length := by
  obtain ⟨hlen, hpos, htail⟩ := h
  rw [if_neg hc] at htail
  exact ⟨htail, by omega⟩

/-- The two lines are read in step until they are told apart or end. -/
theorem inStep_spec (bflag : Bool) {rest rest' : Text} (fuel fuel' : Nat) {l m : Text}
    (h : Tail rest l) (h' : Tail rest' m) (hfuel : l.length < fuel) (hfuel' : l.length < fuel')
    (x y : Nat) :
    ∃ c f d g k n, apart bflag fuel' l m = ((c, f), (d, g)) ∧
      inStep bflag fuel (l ++ rest) (m ++ rest') x y =
        some (decide (c = d), skipRest c (f ++ rest) (x + k), skipRest d (g ++ rest') (y + n)) ∧
      Left rest l (c, f, k) ∧ Left rest' m (d, g, n) := by
  induction fuel generalizing fuel' l m x y with
  | zero => exact absurd hfuel (Nat.not_lt_zero _)
  | succ fuel ih =>
    obtain ⟨fuel', rfl⟩ := Nat.exists_eq_succ_of_ne_zero (Nat.ne_of_gt (Nat.lt_of_le_of_lt
      (Nat.zero_le _) hfuel'))
    obtain ⟨c, f, k, hl, happ, hleft⟩ := side_spec (bothBlank bflag l m) l h
    obtain ⟨d, g, n, hm, happ', hleft'⟩ := side_spec (bothBlank bflag l m) m h'
    rw [apart, inStep, bothBlank_append bflag h h', hl, hm, happ, happ']
    simp only
    by_cases hcd : c = d
    · rw [if_neg (not_not_intro hcd)]
      by_cases hstop : c = some newline ∨ c = none
      · have hkeep : ∀ f ct, skipRest c f ct = (f, ct) := by
          intro f ct
          rw [skipRest, if_neg]
          rintro ⟨h₁, h₂⟩
          exact hstop.elim h₁ h₂
        have hkeep' : ∀ f ct, skipRest d f ct = (f, ct) := hcd ▸ hkeep
        refine ⟨c, f, d, g, k, n, if_pos (Or.inr hstop), ?_, hleft, hleft'⟩
        rw [if_pos hstop, hkeep, hkeep', decide_eq_true hcd]
      · obtain ⟨hnl, hsome⟩ := not_or.mp hstop
        obtain ⟨z, rfl⟩ := Option.ne_none_iff_exists'.mp hsome
        have hz : z ≠ newline := fun hz => hnl (congrArg some hz)
        subst hcd
        obtain ⟨htail, hlt⟩ := hleft.tail hz
        obtain ⟨htail', -⟩ := hleft'.tail hz
        obtain ⟨c', f', d', g', k', n', hap, hrun, hl', hm'⟩ :=
          ih fuel' htail htail' (by omega) (by omega) (x + k) (y + n)
        have hgo : ¬ (some z ≠ some z ∨ some z = some newline ∨ some z = none) := by
          rw [not_or]
          exact ⟨not_not_intro rfl, hstop⟩
        refine ⟨c', f', d', g', k + k', n + n', ?_, ?_, hleft.trans hsome hl',
          hleft'.trans hsome hm'⟩
        · rw [if_neg hgo, hap]
        · rw [if_neg hstop, hrun, Nat.add_assoc, Nat.add_assoc]
    · refine ⟨c, f, d, g, k, n, if_pos (Or.inl hcd), ?_, hleft, hleft'⟩
      rw [if_pos hcd, decide_eq_false hcd]

/-- A side is counted out exactly if it is passed to its end, and then the file is left behind
the line. -/
theorem skipRest_spec {rest l f : Text} {c : Option Nat} {k : Nat} (h : Left rest l (c, f, k))
    (x : Nat) :
    ((skipRest c (f ++ rest) (x + k)).2 = x + l.length ↔ Reaches c f) ∧
      (Reaches c f → (skipRest c (f ++ rest) (x + k)).1 = rest) := by
  cases c with
  | none =>
    have hno : ¬ Reaches none f := by
      rintro (hc | ⟨hc, -⟩)
      · exact absurd hc nofun
      · exact hc rfl
    refine ⟨⟨?_, fun hr => absurd hr hno⟩, fun hr => absurd hr hno⟩
    intro heq
    have hlen := h.2.2
    change x + k = x + l.length at heq
    omega
  | some c =>
    obtain ⟨hlen, hpos, htail⟩ := h
    by_cases hc : c = newline
    · rw [if_pos hc] at htail
      subst htail
      rw [skipRest, if_neg (fun hne => hne.1 (congrArg some hc))]
      refine ⟨⟨fun _ => Or.inl (congrArg some hc), fun _ => ?_⟩, fun _ => rfl⟩
      change x + k = x + l.length
      simp only [List.length_nil] at hlen
      omega
    · rw [if_neg hc] at htail
      have hne : some c ≠ some newline ∧ some c ≠ none :=
        ⟨fun heq => hc (Option.some.inj heq), Option.some_ne_none c⟩
      have hiff : Reaches (some c) f ↔ SkipsAll f := by
        constructor
        · rintro (heq | ⟨-, hs⟩)
          · exact absurd heq hne.1
          · exact hs
        · exact fun hs => Or.inr ⟨hne.2, hs⟩
      obtain ⟨hcount, hrest⟩ := skipline_spec htail
      rw [skipRest, if_pos hne, hiff]
      refine ⟨?_, hrest⟩
      rw [← hcount]
      change x + k + _ = x + l.length ↔ _
      omega

/-! What -b compares. -/

theorem squeezed_newline (l : Text) : squeezed (newline :: l) = [] := if_pos rfl

theorem squeezed_plain {c : Nat} (hc : isspace c = false) (l : Text) :
    squeezed (c :: l) = some c :: squeezed l := by
  have hnl : c ≠ newline := by
    intro h
    rw [h, isspace_newline] at hc
    exact absurd hc (by decide)
  rw [squeezed, if_neg hnl, if_neg (by rw [hc]; decide)]

/-- From the character behind some blanks on. -/
def behind : Option Nat → Text → List (Option Nat)
  | none, _ => []
  | some c, l => if c = newline then [] else none :: some c :: squeezed l

theorem squeezed_blanks {c : Nat} (l : Text) (hc : isspace c = true) {d : Option Nat} {f : Text}
    {n ct : Nat} (h : blanks (some c) l ct = (d, f, n)) : squeezed (c :: l) = behind d f := by
  induction l generalizing c ct with
  | nil =>
    by_cases hnl : c = newline
    · rw [blanks, if_pos (Or.inl (congrArg some hnl))] at h
      cases h
      rw [hnl, squeezed_newline, behind, if_pos rfl]
    · have hgo : ¬ (some c = some newline ∨ some c = none) := by simpa using hnl
      rw [blanks, if_neg hgo] at h
      cases h
      rw [squeezed, if_neg hnl, if_pos hc]
      rfl
  | cons x l ih =>
    by_cases hnl : c = newline
    · rw [blanks, if_pos (Or.inl (congrArg some hnl))] at h
      cases h
      rw [hnl, squeezed_newline, behind, if_pos rfl]
    · have hgo : ¬ (some c = some newline ∨ some c = none) := by simpa using hnl
      rw [blanks, if_neg hgo] at h
      rw [squeezed, if_neg hnl, if_pos hc]
      cases hx : isspace x with
      | true =>
        rw [if_pos hx] at h
        rw [ih hx h]
        cases d with
        | none => rfl
        | some d =>
          rw [behind]
          by_cases hd : d = newline
          · rw [if_pos hd]
          · rw [if_neg hd]
      | false =>
        rw [if_neg (by rw [hx]; decide)] at h
        cases h
        have hxnl : x ≠ newline := by
          intro heq
          rw [heq, isspace_newline] at hx
          exact absurd hx (by decide)
        rw [squeezed_plain hx, behind, if_neg hxnl]

/-- A blank and a character that is none. -/
theorem squeezed_blank_ne {c d : Nat} (hc : isspace c = true) (hd : isspace d = false)
    (l m : Text) : squeezed (c :: l) ≠ squeezed (d :: m) := by
  rw [squeezed_plain hd]
  obtain ⟨⟨e, f, n⟩, hb⟩ : ∃ r, blanks (some c) l 0 = r := ⟨_, rfl⟩
  rw [squeezed_blanks l hc hb]
  cases e with
  | none => exact (List.cons_ne_nil _ _).symm
  | some e =>
    rw [behind]
    by_cases he : e = newline
    · rw [if_pos he]
      exact (List.cons_ne_nil _ _).symm
    · rw [if_neg he]
      intro heq
      exact absurd (List.head_eq_of_cons_eq heq) nofun

theorem apart_cons {bflag : Bool} {fuel : Nat} {c d c' d' : Nat} {l m f g : Text} {k n : Nat}
    (hl : side (bothBlank bflag (c :: l) (d :: m)) (c :: l) 0 = (some c', f, k))
    (hm : side (bothBlank bflag (c :: l) (d :: m)) (d :: m) 0 = (some d', g, n)) :
    apart bflag (fuel + 1) (c :: l) (d :: m) =
      if c' = d' ∧ c' ≠ newline then apart bflag fuel f g else ((some c', f), (some d', g)) := by
  rw [apart, hl, hm]
  by_cases hcd : c' = d' ∧ c' ≠ newline
  · have hgo : ¬ (some c' ≠ some d' ∨ some c' = some newline ∨ some c' = none) := by
      obtain ⟨rfl, hnl⟩ := hcd
      simpa using hnl
    rw [if_pos hcd]
    exact if_neg hgo
  · have hstop : some c' ≠ some d' ∨ some c' = some newline ∨ some c' = none := by
      by_cases heq : c' = d'
      · exact Or.inr (Or.inl (congrArg some (not_not.mp fun hnl => hcd ⟨heq, hnl⟩)))
      · exact Or.inl fun h => heq (Option.some.inj h)
    rw [if_neg hcd]
    exact if_pos hstop

/-- Lines that are told apart by characters are not the same, and lines that end together are. -/
theorem apart_same (bflag : Bool) {rest rest' : Text} (fuel : Nat) {l m : Text} (h : Tail rest l)
    (h' : Tail rest' m) (hfuel : l.length < fuel) {c d : Option Nat} {f g : Text}
    (hap : apart bflag fuel l m = ((c, f), (d, g))) (hc : c ≠ none) (hd : d ≠ none) :
    c = d ↔ Same bflag l m := by
  induction fuel generalizing l m with
  | zero => exact absurd hfuel (Nat.not_lt_zero _)
  | succ fuel ih =>
    cases l with
    | nil =>
      have hside : (side (bothBlank bflag [] m) [] 0).1 = none := by
        cases bothBlank bflag [] m <;> rfl
      rw [apart] at hap
      simp only [hside, or_true, if_true] at hap
      exact absurd (congrArg (·.1.1) hap).symm hc
    | cons x l =>
    cases m with
    | nil =>
      obtain ⟨c', f', n, hl, -, -⟩ := side_spec (bothBlank bflag (x :: l) []) (x :: l) h
      have hside : (side (bothBlank bflag (x :: l) []) [] 0).1 = none := by
        cases bothBlank bflag (x :: l) [] <;> rfl
      rw [apart] at hap
      by_cases hnone : c' = none
      · simp only [hside, hl, hnone, or_true, if_true] at hap
        exact absurd (congrArg (·.1.1) hap).symm hc
      · simp only [hside, hl, ne_eq, hnone, not_false_eq_true, true_or, if_true] at hap
        exact absurd (congrArg (·.2.1) hap).symm hd
    | cons y m =>
    obtain ⟨c', f', k, hl, -, hleft⟩ := side_spec (bothBlank bflag (x :: l) (y :: m)) (x :: l) h
    obtain ⟨d', g', n, hm, -, hleft'⟩ := side_spec (bothBlank bflag (x :: l) (y :: m)) (y :: m) h'
    cases c' with
    | none =>
      rw [apart] at hap
      simp only [hl, or_true, if_true] at hap
      exact absurd (congrArg (·.1.1) hap).symm hc
    | some c' =>
    cases d' with
    | none =>
      rw [apart] at hap
      simp only [hl, hm, ne_eq, Option.some_ne_none, not_false_eq_true, true_or, if_true] at hap
      exact absurd (congrArg (·.2.1) hap).symm hd
    | some d' =>
    rw [apart_cons (hl 0) (hm 0)] at hap
    -- what is left of the two lines, if the comparison goes on
    have hnext : c' = d' ∧ c' ≠ newline → (c = d ↔ Same bflag f' g') := by
      rintro ⟨rfl, hnl⟩
      rw [if_pos ⟨rfl, hnl⟩] at hap
      obtain ⟨htail, hlt⟩ := hleft.tail hnl
      obtain ⟨htail', -⟩ := hleft'.tail hnl
      exact ih htail htail' (by omega) hap
    have hstop : ¬ (c' = d' ∧ c' ≠ newline) → c = some c' ∧ d = some d' := by
      intro hno
      rw [if_neg hno] at hap
      exact ⟨(congrArg (·.1.1) hap).symm, (congrArg (·.2.1) hap).symm⟩
    cases hboth : bothBlank bflag (x :: l) (y :: m) with
    | true =>
      rw [hboth] at hl hm
      have hparts : bflag = true ∧ isspace x = true ∧ isspace y = true := by
        simpa [bothBlank, getc, and_assoc] using hboth
      obtain ⟨rfl, hx, hy⟩ := hparts
      have hsl : squeezed (x :: l) = behind (some c') f' := squeezed_blanks l hx (hl 0)
      have hsm : squeezed (y :: m) = behind (some d') g' := squeezed_blanks m hy (hm 0)
      change c = d ↔ squeezed (x :: l) = squeezed (y :: m)
      rw [hsl, hsm, behind, behind]
      by_cases hgo : c' = d' ∧ c' ≠ newline
      · rw [hnext hgo]
        obtain ⟨rfl, hnl⟩ := hgo
        rw [if_neg hnl, if_neg hnl]
        constructor
        · intro heq
          exact congrArg (none :: some c' :: ·) heq
        · intro heq
          exact (List.cons.inj (List.cons.inj heq).2).2
      · obtain ⟨rfl, rfl⟩ := hstop hgo
        by_cases heq : c' = d'
        · have hnl : c' = newline := not_not.mp fun hnl => hgo ⟨heq, hnl⟩
          subst heq
          rw [if_pos hnl, if_pos hnl]
          exact ⟨fun _ => rfl, fun _ => rfl⟩
        · refine ⟨fun h => absurd (Option.some.inj h) heq, fun hsq => ?_⟩
          by_cases hcn : c' = newline
          · have hdn : d' ≠ newline := fun hdn => heq (hcn.trans hdn.symm)
            rw [if_pos hcn, if_neg hdn] at hsq
            exact absurd hsq (List.cons_ne_nil _ _).symm
          · rw [if_neg hcn] at hsq
            by_cases hdn : d' = newline
            · rw [if_pos hdn] at hsq
              exact absurd hsq (List.cons_ne_nil _ _)
            · rw [if_neg hdn] at hsq
              exact (List.cons.inj (List.cons.inj hsq).2).1
    | false =>
      rw [hboth] at hl hm
      obtain ⟨rfl, rfl, rfl⟩ : x = c' ∧ l = f' ∧ 1 = k := by
        have h0 := hl 0
        simp only [side, getc] at h0
        simpa using h0
      obtain ⟨rfl, rfl, rfl⟩ : y = d' ∧ m = g' ∧ 1 = n := by
        have h0 := hm 0
        simp only [side, getc] at h0
        simpa using h0
      cases bflag with
      | false =>
        change c = d ↔ x :: l = y :: m
        by_cases hgo : x = y ∧ x ≠ newline
        · rw [hnext hgo, List.cons.injEq]
          exact ⟨fun heq => ⟨hgo.1, heq⟩, fun heq => heq.2⟩
        · obtain ⟨rfl, rfl⟩ := hstop hgo
          constructor
          · intro heq
            have hxy := Option.some.inj heq
            have hnl : x = newline := not_not.mp fun hnl => hgo ⟨hxy, hnl⟩
            subst hxy
            rw [Tail, if_pos hnl] at h h'
            rw [h, h']
          · intro heq
            exact congrArg some (List.cons.inj heq).1
      | true =>
        change c = d ↔ squeezed (x :: l) = squeezed (y :: m)
        have hsp : isspace x = true → isspace y = false := by
          intro hx
          simpa [bothBlank, getc, hx] using hboth
        by_cases hxy : x = y
        · subst hxy
          have hx : isspace x = false := by
            cases hx : isspace x with
            | false => rfl
            | true => exact hx.symm.trans (hsp hx)
          have hnl : x ≠ newline := by
            intro heq
            rw [heq, isspace_newline] at hx
            exact absurd hx (by decide)
          rw [hnext ⟨rfl, hnl⟩, squeezed_plain hx, squeezed_plain hx, List.cons.injEq]
          exact ⟨fun heq => ⟨rfl, heq⟩, fun heq => heq.2⟩
        · obtain ⟨rfl, rfl⟩ := hstop fun hgo => hxy hgo.1
          refine ⟨fun heq => absurd (Option.some.inj heq) hxy, fun hsq => ?_⟩
          cases hx : isspace x with
          | true => exact absurd hsq (squeezed_blank_ne hx (hsp hx) l m)
          | false =>
            cases hy : isspace y with
            | true => exact absurd hsq.symm (squeezed_blank_ne hy hx m l)
            | false =>
              rw [squeezed_plain hx, squeezed_plain hy] at hsq
              exact (List.cons.inj hsq).1

/-- A mated line: both ends are right exactly if skipline passes all that is behind a difference,
and then both files are left behind the lines. -/
theorem mated_spec (bflag : Bool) {rest rest' l m : Text} (h : Tail rest l) (h' : Tail rest' m)
    {fuel : Nat} (hfuel : l.length < fuel) (x y : Nat) :
    ∃ same F X G Y, inStep bflag fuel (l ++ rest) (m ++ rest') x y = some (same, (F, X), G, Y) ∧
      (X = x + l.length ∧ Y = y + m.length ↔ BothReach bflag l m) ∧
      (BothReach bflag l m → F = rest ∧ G = rest' ∧ (same = true ↔ Same bflag l m)) := by
  obtain ⟨c, f, d, g, k, n, hap, hrun, hleft, hleft'⟩ :=
    inStep_spec bflag fuel (l.length + 1) h h' hfuel (Nat.lt_succ_self _) x y
  obtain ⟨hX, hF⟩ := skipRest_spec hleft x
  obtain ⟨hY, hG⟩ := skipRest_spec hleft' y
  have hboth : BothReach bflag l m ↔ Reaches c f ∧ Reaches d g := by
    unfold BothReach
    rw [hap]
  refine ⟨decide (c = d), (skipRest c (f ++ rest) (x + k)).1, (skipRest c (f ++ rest) (x + k)).2,
    (skipRest d (g ++ rest') (y + n)).1, (skipRest d (g ++ rest') (y + n)).2, hrun, ?_, ?_⟩
  · rw [hboth, ← hX, ← hY]
  · intro hr
    obtain ⟨hc, hd⟩ := hboth.mp hr
    have hsome : ∀ {c : Option Nat} {f : Text}, Reaches c f → c ≠ none := by
      rintro c f (rfl | ⟨hne, -⟩)
      · exact Option.some_ne_none _
      · exact hne
    refine ⟨hF hc, hG hd, ?_⟩
    rw [decide_eq_true_eq]
    exact apart_same bflag _ h h' (Nat.lt_succ_self _) hap (hsome hc) (hsome hd)

end Svr32.Diff
