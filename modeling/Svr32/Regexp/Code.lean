import Svr32.Lib.Word
import Mathlib.Data.List.Basic
import Mathlib.Logic.Function.Basic

/-! compile, step and advance of head/regexp.h. Characters are unsigned, and the buffer from ep on
is the list of the bytes in it, so that `endbuf` is the number of bytes it has room for. -/
namespace Svr32.Regexp
open Svr32.Lib

abbrev CBRA : UInt8 := 2
abbrev CCHR : UInt8 := 4
abbrev CDOT : UInt8 := 8
abbrev CCL : UInt8 := 12
abbrev CXCL : UInt8 := 16
abbrev CDOL : UInt8 := 20
abbrev CCEOF : UInt8 := 22
abbrev CKET : UInt8 := 24
abbrev CBACK : UInt8 := 36
abbrev NCCL : UInt8 := 40

abbrev STAR : UInt8 := 1
abbrev RNGE : UInt8 := 3

abbrev NBRA : Nat := 9

def bittab : List UInt8 := [1, 2, 4, 8, 16, 32, 64, 128]

def bit (c : UInt8) : UInt8 := bittab.getD (c &&& 7).toNat 0

/- ISTHERE(c) -/
def isThere (ep : List UInt8) (c : UInt8) : Bool := ep.getD (c >>> 3).toNat 0 &&& bit c ≠ 0

abbrev newline : UInt8 := 10
abbrev dollar : UInt8 := 36
abbrev lparen : UInt8 := 40
abbrev rparen : UInt8 := 41
abbrev asterisk : UInt8 := 42
abbrev comma : UInt8 := 44
abbrev dash : UInt8 := 45
abbrev dot : UInt8 := 46
abbrev zero : UInt8 := 48
abbrev one : UInt8 := 49
abbrev nine : UInt8 := 57
abbrev lbrack : UInt8 := 91
abbrev backslash : UInt8 := 92
abbrev rbrack : UInt8 := 93
abbrev caret : UInt8 := 94
abbrev letterN : UInt8 := 110
abbrev lbrace : UInt8 := 123
abbrev rbrace : UInt8 := 125

/- ERROR(n); GETC or PEEKC past the text; a byte written at or past endbuf, or of a bracket outside
what has been made room for. -/
inductive Stop where
  | error (n : Nat)
  | past
  | spill
deriving DecidableEq

/- *ep++ = b -/
def put (endbuf : Nat) (out : List UInt8) (b : UInt8) : Except Stop (List UInt8) :=
  if out.length < endbuf then .ok (out ++ [b]) else .error .spill

/- PLACE(c) -/
def place (bits : List UInt8) (c : UInt8) : Except Stop (List UInt8) :=
  if (c >>> 3).toNat < bits.length then .ok (bits.modify (c >>> 3).toNat (· ||| bit c))
  else .error .spill

/- while(lc < c), in the turns left. -/
def placeRun : Nat → List UInt8 → UInt8 → Except Stop (List UInt8)
  | 0, bits, _ => .ok bits
  | n + 1, bits, lc => do
    let bits ← place bits lc
    placeRun n bits (lc + 1)

/- What a bracket has at ep[-1] and from ep on. -/
structure Bracket where
  iflag : Bool
  op : UInt8
  bits : List UInt8

/- ep[i] = 0, for 16 bytes behind those that are there. -/
def zeros (endbuf ep : Nat) (bits : List UInt8) : Except Stop (List UInt8) :=
  if ep + bits.length + 16 ≤ endbuf then .ok (bits ++ List.replicate 16 0) else .error .spill

/- if((c & 0200) && iflag), with ep behind the opcode. -/
def widen (endbuf ep : Nat) (c : UInt8) (b : Bracket) : Except Stop Bracket :=
  if c &&& 128 ≠ 0 ∧ b.iflag then
    if ep + 32 ≥ endbuf then .error (.error 50)
    else do
      let bits ← zeros endbuf ep b.bits
      .ok ⟨false, CXCL, bits⟩
  else .ok b

/- A turn of the loop in a bracket: lc, if it does not end there. -/
def member (endbuf ep : Nat) (c lc : UInt8) (b : Bracket) (text : List UInt8) :
    Except Stop (Option UInt8 × Bracket × List UInt8) :=
  if c = 0 ∨ c = newline then .error (.error 49)
  else do
    let b ← widen endbuf ep c b
    if c = dash ∧ lc ≠ 0 then
      match text with
      | [] => .error .past
      | c :: text =>
        if c = rbrack then do
          let bits ← place b.bits dash
          .ok (none, { b with bits }, text)
        else do
          let b ← widen endbuf ep c b
          let bits ← placeRun (c.toNat - lc.toNat) b.bits lc
          let bits ← place bits c
          .ok (some c, { b with bits }, text)
    else do
      let bits ← place b.bits c
      .ok (some c, { b with bits }, text)

/- do from c on; each turn takes a character, so that the text is read before the turns are out. -/
def members (endbuf ep : Nat) : Nat → UInt8 → UInt8 → Bracket → List UInt8 →
    Except Stop (Bracket × List UInt8)
  | 0, _, _, _, _ => .error .past
  | turns + 1, c, lc, b, text => do
    let (lc, b, text) ← member endbuf ep c lc b text
    match lc with
    | none => .ok (b, text)
    | some lc =>
      match text with
      | [] => .error .past
      | c :: text => if c = rbrack then .ok (b, text) else members endbuf ep turns c lc b text

/- if(neg) -/
def negate (b : Bracket) : Bracket :=
  if b.iflag then { b with op := NCCL, bits := b.bits.modify 0 (· ||| 1) }
  else { b with bits := (b.bits.map (· ^^^ 255)).modify 0 (· &&& 254) }

/- case '[' -/
def bracket (endbuf : Nat) (out text : List UInt8) : Except Stop (List UInt8 × List UInt8) :=
  if out.length + 17 ≥ endbuf then .error (.error 50)
  else do
    let ep := (← put endbuf out CCL).length
    let bits ← zeros endbuf ep []
    match text with
    | [] => .error .past
    | c :: text =>
      if c = caret then
        match text with
        | [] => .error .past
        | c :: text => do
          let (b, text) ← members endbuf ep (text.length + 1) c 0 ⟨true, CCL, bits⟩ text
          .ok (out ++ (negate b).op :: (negate b).bits, text)
      else do
        let (b, text) ← members endbuf ep (text.length + 1) c 0 ⟨true, CCL, bits⟩ text
        .ok (out ++ b.op :: b.bits, text)

/- do from c on, after nlim. -/
def digits : List UInt8 → UInt8 → Int → Except Stop (Int × UInt8 × List UInt8)
  | [], c, _ => .error (if zero ≤ c ∧ c ≤ nine then .past else .error 16)
  | c' :: text, c, i =>
    if zero ≤ c ∧ c ≤ nine then
      let i := i32 (10 * i + c.toNat - zero.toNat)
      if c' ≠ backslash ∧ c' ≠ comma then digits text c' i else .ok (i, c', text)
    else .error (.error 16)

/- nlim: the byte to be stored, and the character behind the digits. -/
def limit : List UInt8 → Except Stop (UInt8 × UInt8 × List UInt8)
  | [] => .error .past
  | c :: text => do
    let (i, c, text) ← digits text c 0
    if i > 255 then .error (.error 11) else .ok (UInt8.ofNat (i % 256).toNat, c, text)

/- if(GETC() != '}') -/
def closing : List UInt8 → Except Stop (List UInt8)
  | [] => .error .past
  | c :: text => if c ≠ rbrace then .error (.error 45) else .ok text

/- case '{', after RNGE is set. -/
def interval (endbuf : Nat) (out text : List UInt8) : Except Stop (List UInt8 × List UInt8) := do
  let (i, c, text) ← limit text
  let out ← put endbuf out i
  if c = comma then
    match text with
    | [] => .error .past
    | c :: rest =>
      if c = backslash then do
        let out ← put endbuf out 255
        let text ← closing rest
        if (255 : UInt8) < i then .error (.error 46) else .ok (out, text)
      else do
        let (j, c, text) ← limit text
        let out ← put endbuf out j
        if c = comma then .error (.error 44)
        else do
          let text ← closing text
          if j < i then .error (.error 46) else .ok (out, text)
  else do
    let text ← closing text
    let out ← put endbuf out i
    .ok (out, text)

/- Before a turn: the text ahead, the bytes up to ep, lastep, bracket with its top first. -/
structure St where
  text : List UInt8
  out : List UInt8
  lastep : Option Nat
  bracket : List UInt8
  closed : Nat
  nbra : Nat

/- How a turn ends: continue, or RETURN(ep). -/
inductive Next where
  | go (s : St)
  | ret (s : St)

/- defchar -/
def defchar (endbuf : Nat) (c : UInt8) (s : St) : Except Stop Next := do
  let out ← put endbuf s.out CCHR
  let out ← put endbuf out c
  .ok (.go { s with lastep := some s.out.length, out })

def finish (endbuf : Nat) (s : St) : Except Stop Next := do
  let out ← put endbuf s.out CCEOF
  if s.bracket ≠ [] then .error (.error 42) else .ok (.ret { s with out })

/- case '\\' -/
def escape (endbuf : Nat) (s : St) : Except Stop Next :=
  match s.text with
  | [] => .error .past
  | c :: text =>
    let s := { s with text }
    if c = lparen then
      if s.nbra ≥ NBRA then .error (.error 43)
      else do
        let out ← put endbuf s.out CBRA
        let out ← put endbuf out (UInt8.ofNat s.nbra)
        .ok (.go { s with out, bracket := UInt8.ofNat s.nbra :: s.bracket, nbra := s.nbra + 1 })
    else if c = rparen then
      match s.bracket with
      | [] => .error (.error 42)
      | g :: bracket => do
        let out ← put endbuf s.out CKET
        let out ← put endbuf out g
        .ok (.go { s with out, bracket, closed := s.closed + 1 })
    else if c = lbrace then
      match s.lastep with
      | none => defchar endbuf c s
      | some l => do
        let (out, text) ← interval endbuf (s.out.modify l (· ||| RNGE)) s.text
        .ok (.go { s with out, text })
    else if c = newline then .error (.error 36)
    else if c = letterN then defchar endbuf newline s
    else if one ≤ c ∧ c ≤ nine then
      if (c - one).toNat ≥ s.closed then .error (.error 25)
      else do
        let out ← put endbuf s.out CBACK
        let out ← put endbuf out (c - one)
        .ok (.go { s with out })
    else defchar endbuf c s

/- A turn of while(1). -/
def turn (sed : Bool) (endbuf : Nat) (eof : UInt8) (s : St) : Except Stop Next :=
  if s.out.length ≥ endbuf then .error (.error 50)
  else
    match s.text with
    | [] => .error .past
    | c :: text =>
      if c = backslash ∧ text = [] then .error .past
      else
        let moves : Bool := c ≠ asterisk ∧ (c ≠ backslash ∨ text.head? ≠ some lbrace)
        let s := { s with text, lastep := if moves then some s.out.length else s.lastep }
        if c = eof then finish endbuf s
        else if c = dot then do
          let out ← put endbuf s.out CDOT
          .ok (.go { s with out })
        else if c = newline then
          if !sed then finish endbuf { s with text := c :: text } else .error (.error 36)
        else if c = asterisk then
          match s.lastep with
          | none => defchar endbuf c s
          | some l =>
            if s.out.getD l 0 = CBRA ∨ s.out.getD l 0 = CKET then defchar endbuf c s
            else .ok (.go { s with out := s.out.modify l (· ||| STAR) })
        else if c = dollar then
          match text with
          | [] => .error .past
          | p :: _ =>
            if p ≠ eof ∧ p ≠ newline then defchar endbuf c s
            else do
              let out ← put endbuf s.out CDOL
              .ok (.go { s with out })
        else if c = lbrack then do
          let (out, text) ← bracket endbuf s.out text
          .ok (.go { s with out, text })
        else if c = backslash then escape endbuf s
        else defchar endbuf c s

/- What compile leaves: the old program, or one of its own with circf, nbra and the text behind. -/
inductive Compiled where
  | kept (text : List UInt8)
  | made (prog : List UInt8) (circf : Bool) (nbra : Nat) (text : List UInt8)

/- while(1); each turn takes a character, so that the text is read before the turns are out. -/
def loop (sed : Bool) (endbuf : Nat) (eof : UInt8) (circf : Bool) :
    Nat → St → Except Stop Compiled
  | 0, _ => .error .past
  | turns + 1, s => do
    match ← turn sed endbuf eof s with
    | .go s => loop sed endbuf eof circf turns s
    | .ret s => .ok (.made s.out circf s.nbra s.text)

/- Where the loop starts: nothing in the buffer. -/
def start (text : List UInt8) : St := ⟨text, [], none, [], 0, 0⟩

/- `old` is the byte at ep before. -/
def compile (sed : Bool) (endbuf : Nat) (eof old : UInt8) (text : List UInt8) :
    Except Stop Compiled :=
  match text with
  | [] => .error .past
  | c :: rest =>
    if c = eof ∨ c = newline then
      if old = 0 ∧ !sed then .error (.error 41)
      else .ok (.kept (if c = newline then text else rest))
    else if c = caret then loop sed endbuf eof true (rest.length + 1) (start rest)
    else loop sed endbuf eof false (text.length + 1) (start text)

/- What a simple RE takes for a character. -/
inductive Kind where
  | chr
  | dot
  | cxcl
  | nccl
  | ccl
deriving DecidableEq

/- The bytes behind the opcode. -/
def Kind.width : Kind → Nat
  | .chr => 1
  | .dot => 0
  | .cxcl => 32
  | .nccl => 16
  | .ccl => 16

inductive Opcode where
  | single (k : Kind)
  | star (k : Kind)
  | rnge (k : Kind)
  | cdol
  | cceof
  | cbra
  | cket
  | cback
  | cbackStar
deriving DecidableEq

/- The cases of advance. -/
def codes : List (UInt8 × Opcode) :=
  [(CCHR, .single .chr), (CDOT, .single .dot), (CDOL, .cdol), (CCEOF, .cceof),
    (CXCL, .single .cxcl), (NCCL, .single .nccl), (CCL, .single .ccl), (CBRA, .cbra),
    (CKET, .cket), (CCHR ||| RNGE, .rnge .chr), (CDOT ||| RNGE, .rnge .dot),
    (CXCL ||| RNGE, .rnge .cxcl), (NCCL ||| RNGE, .rnge .nccl), (CCL ||| RNGE, .rnge .ccl),
    (CBACK, .cback), (CBACK ||| STAR, .cbackStar), (CDOT ||| STAR, .star .dot),
    (CCHR ||| STAR, .star .chr), (CXCL ||| STAR, .star .cxcl), (NCCL ||| STAR, .star .nccl),
    (CCL ||| STAR, .star .ccl)]

def opcode (op : UInt8) : Option Opcode := codes.lookup op

/- Whether the simple RE with these bytes behind its opcode takes `c`. -/
def Kind.takes (k : Kind) (ep : List UInt8) (c : UInt8) : Bool :=
  match k with
  | .chr => ep.headD 0 = c
  | .dot => c ≠ 0
  | .cxcl => isThere ep c
  | .nccl => !(c &&& 128 = 0 && isThere ep c)
  | .ccl => c &&& 128 = 0 && isThere ep c

/- *p, where p is a place in the line; its NUL is behind it, and nothing is known past that. -/
def deref (line : List UInt8) (p : Int) : Option UInt8 :=
  if p < 0 then none else (line ++ [0])[p.toNat]?

structure Braces where
  braslist : UInt8 → Option Int
  braelist : UInt8 → Option Int

/- advance: 1 with loc2, or 0; nothing for a run that goes on, or leaves the line, the program or
the lists. -/
abbrev Ran := Option (Option Int × Braces)

/- strncmp, in the bytes left. -/
def strncmpLoop (line : List UInt8) : Nat → Int → Int → Option Bool
  | 0, _, _ => some true
  | n + 1, s1, s2 => do
    let a ← deref line s1
    let b ← deref line s2
    if a ≠ b then some false
    else if a = 0 then some true
    else strncmpLoop line n (s1 + 1) (s2 + 1)

/- ecmp(s1, s2, n): n is a size_t there, and the distance of two places in a line fits it. -/
def ecmp (line : List UInt8) (s1 s2 n : Int) : Option Bool :=
  strncmpLoop line (if n < 0 then (n % 2 ^ 32).toNat else n.toNat) s1 s2

/- while(*lp++ is taken); -/
def skip (line : List UInt8) (takes : UInt8 → Bool) : Nat → Int → Option Int
  | 0, _ => none
  | fuel + 1, lp => do
    let c ← deref line lp
    if takes c then skip line takes fuel (lp + 1) else some (lp + 1)

/- while(low--): lp, or nothing where 0 is returned. -/
def atLeast (line : List UInt8) (takes : UInt8 → Bool) : Nat → Int → Option (Option Int)
  | 0, lp => some (some lp)
  | low + 1, lp => do
    let c ← deref line lp
    if takes c then atLeast line takes low (lp + 1) else some none

/- while(size--), and if(size < 0) lp++. -/
def atMost (line : List UInt8) (takes : UInt8 → Bool) : Nat → Int → Int → Option Int
  | 0, _, _ => none
  | fuel + 1, size, lp =>
    if size = 0 then some (lp + 1)
    else do
      let c ← deref line lp
      if takes c then atMost line takes fuel (size - 1) (lp + 1)
      else some (if size - 1 < 0 then lp + 1 + 1 else lp + 1)

/- star: with what advance(lp, ep) does. -/
def backStep (adv : Int → Braces → Ran) (locs curlp : Int) : Nat → Int → Braces → Ran
  | 0, _, _ => none
  | fuel + 1, lp, b =>
    let lp := lp - 1
    if lp = locs then some (none, b)
    else do
      let (r, b) ← adv lp b
      match r with
      | some loc2 => some (some loc2, b)
      | none => if lp > curlp then backStep adv locs curlp fuel lp b else some (none, b)

/- while(ecmp(bbeg, lp, ct)) -/
def repeats (line : List UInt8) (bbeg ct : Int) : Nat → Int → Option Int
  | 0, _ => none
  | fuel + 1, lp => do
    let same ← ecmp line bbeg lp ct
    if same then repeats line bbeg ct fuel (lp + ct) else some lp

/- while(lp >= curlp) -/
def backUp (adv : Int → Braces → Ran) (curlp ct : Int) : Nat → Int → Braces → Ran
  | 0, _, _ => none
  | fuel + 1, lp, b =>
    if lp ≥ curlp then do
      let (r, b) ← adv lp b
      match r with
      | some loc2 => some (some loc2, b)
      | none => backUp adv curlp ct fuel (lp - ct) b
    else some (none, b)

/- getrnge: low and size -/
def getrnge (str : List UInt8) : Nat × Int :=
  let low := (str.getD 0 0).toNat
  (low, if str.getD 1 0 = 255 then 20000 else (str.getD 1 0).toNat - low)

def advance (line : List UInt8) (locs : Int) : Nat → Int → List UInt8 → Braces → Ran
  | 0, _, _, _ => none
  | _ + 1, _, [], _ => none
  | fuel + 1, lp, op :: ep, b =>
    match opcode op with
    | none => advance line locs fuel lp ep b
    | some (.single k) =>
      if ep.length < k.width then none
      else do
        let c ← deref line lp
        if k.takes ep c then advance line locs fuel (lp + 1) (ep.drop k.width) b
        else some (none, b)
    | some .cdol => do
      let c ← deref line lp
      if c = 0 then advance line locs fuel lp ep b else some (none, b)
    | some .cceof => some (some lp, b)
    | some .cbra =>
      match ep with
      | [] => none
      | g :: ep =>
        if g.toNat ≥ NBRA then none
        else advance line locs fuel lp ep
          { b with braslist := Function.update b.braslist g (some lp) }
    | some .cket =>
      match ep with
      | [] => none
      | g :: ep =>
        if g.toNat ≥ NBRA then none
        else advance line locs fuel lp ep
          { b with braelist := Function.update b.braelist g (some lp) }
    | some (.rnge k) =>
      if ep.length < k.width + 2 then none
      else do
        let (low, size) := getrnge (ep.drop k.width)
        let curlp ← atLeast line (k.takes ep) low lp
        match curlp with
        | none => some (none, b)
        | some curlp => do
          let lp ← atMost line (k.takes ep) fuel size curlp
          backStep (fun lp b => advance line locs fuel lp (ep.drop (k.width + 2)) b) locs curlp
            fuel lp b
    | some (.star k) =>
      if ep.length < k.width then none
      else do
        let curlp := lp
        let lp ← skip line (k.takes ep) fuel lp
        backStep (fun lp b => advance line locs fuel lp (ep.drop k.width) b) locs curlp fuel lp b
    | some .cback =>
      match ep with
      | [] => none
      | g :: ep => do
        let bbeg ← b.braslist g
        let ct := (← b.braelist g) - bbeg
        let same ← ecmp line bbeg lp ct
        if same then advance line locs fuel (lp + ct) ep b else some (none, b)
    | some .cbackStar =>
      match ep with
      | [] => none
      | g :: ep => do
        let bbeg ← b.braslist g
        let ct := (← b.braelist g) - bbeg
        let curlp := lp
        let lp ← repeats line bbeg ct fuel lp
        backUp (fun lp b => advance line locs fuel lp ep b) curlp ct fuel lp b

/- do ... while(*p1++), where a first character is asked for if there is one: loc1 and loc2. -/
def scan (line : List UInt8) (first : Option UInt8) (adv : Int → Braces → Ran) :
    Nat → Int → Braces → Option (Option (Int × Int) × Braces)
  | 0, _, _ => none
  | fuel + 1, p1, b => do
    let c ← deref line p1
    let (r, b) ← if first.all (· = c) then adv p1 b else some (none, b)
    match r with
    | some loc2 => some (some (p1, loc2), b)
    | none => if c ≠ 0 then scan line first adv fuel (p1 + 1) b else some (none, b)

def step (line : List UInt8) (locs : Int) (circf : Bool) (fuel : Nat) (p1 : Int)
    (p2 : List UInt8) (b : Braces) : Option (Option (Int × Int) × Braces) :=
  if circf then do
    let (r, b) ← advance line locs fuel p1 p2 b
    some (r.map fun loc2 => (p1, loc2), b)
  else
    match p2 with
    | [] => none
    | op :: ep =>
      if op = CCHR then
        match ep with
        | [] => none
        | c :: _ => scan line (some c) (fun lp b => advance line locs fuel lp p2 b) fuel p1 b
      else scan line none (fun lp b => advance line locs fuel lp p2 b) fuel p1 b

end Svr32.Regexp
