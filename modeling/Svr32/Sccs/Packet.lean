import Mathlib.Data.Int.Basic
import Svr32.Lib.Text
import Svr32.Lib.Word

/-! sccs: the packet, and the routines that read and write an s-file through it. -/
namespace Svr32.Sccs
open Svr32.Lib

def CTLCHAR : Nat := 1
def HEAD : Nat := 104
def STATS : Nat := 115
def EUSERTXT : Nat := 84
def INS : Nat := 73
def DEL : Nat := 68
def END : Nat := 69
def BUFSIZ : Nat := 1024

def YES : Int := 1
def NO : Int := -1

structure Sid where
  s_rel : Nat
  s_lev : Nat
  s_br : Nat
  s_seq : Nat
deriving DecidableEq

theorem Sid.ext {s t : Sid} (h₁ : s.s_rel = t.s_rel) (h₂ : s.s_lev = t.s_lev)
    (h₃ : s.s_br = t.s_br) (h₄ : s.s_seq = t.s_seq) : s = t := by
  cases s
  cases t
  simp_all

structure Queue where
  q_sernum : Nat
  q_keep : Int
  q_iord : Nat
deriving DecidableEq

/- What a process reads at address 4, where a null queue entry has its serial number: the gate
segment of the kernel lies at 0, for all to read, and its second word is the address of `gates`. -/
def gates : Int := 1164

/- struct packet, with the x-file of putline. `p_file` and `p_iop` are what the file has and what
is left of it; a stream that is closed is `none`. Of `p_apply` there is whether the code is APPLY,
and of `p_idel` the SIDs. `null` is the serial number that is read through a null pointer. The
warnings of chkix are left out. -/
structure Packet where
  p_upd : Bool
  p_ihash : Int
  p_chash : Int
  p_nhash : Int
  p_glnno : Nat
  p_slnno : Nat
  p_wrttn : Nat
  p_keep : Int
  p_inssid : Sid
  p_apply : Nat → Bool
  p_idel : Nat → Sid
  p_q : List Queue
  null : Int
  p_file : Text
  p_iop : Option Text
  p_line : Text
  maxser : Int
  p_chkeof : Bool
  p_reopen : Bool
  do_chksum : Bool
  Xcreate : Bool
  Xiop : Text

/- The calls of fatal. With `undefined` the source reads a stream that it has closed or a variable
that it has not set; with `outOfFuel` a loop of the model is cut short, which its bounds exclude. -/
inductive Fatal where
  | prematureEof
  | corruptedFile
  | formatError (slnno : Nat)
  | cannotExecute
  | diffFailed
  | undefined
  | outOfFuel
deriving DecidableEq

def fmterr {α : Type} (pkt : Packet) : Except Fatal α := throw (.formatError pkt.p_slnno)

/- A char as an int; whether it has a sign is up to the machine. -/
def charval (signed : Bool) (c : Nat) : Int := if signed && 128 ≤ c then (c : Int) - 256 else c

/- hash += *p++, to the end of the string -/
def addChars (signed : Bool) (hash : Int) (p : Text) : Int :=
  (cstr p).foldl (fun h c => i32 (h + charval signed c)) hash

def satoiFrom (sum : Int) : Text → Int × Text
  | c :: p => if 48 ≤ c ∧ c ≤ 57 then satoiFrom (i32 (sum * 10 + ((c : Int) - 48))) p else (sum, c :: p)
  | [] => (sum, [])

def satoi (p : Text) : Int × Text := satoiFrom 0 p

/- NONBLANK(p) -/
def nonblank (p : Text) : Text := p.dropWhile fun c => c = 32 || c = 9

section
variable (signed : Bool)

/- What putline writes to the x-file that is open, or that it opens. -/
def putText (pkt : Packet) (p : Text) : Packet :=
  { pkt with
    Xiop := (if pkt.Xcreate then pkt.Xiop else []) ++ cstr p
    p_nhash := if pkt.Xcreate then addChars signed pkt.p_nhash p else pkt.p_nhash
    Xcreate := true }

/- The line `newline`, or where that is zero the line of the packet. -/
def putline (pkt : Packet) (newline : Option Text) : Packet :=
  if pkt.p_upd = false then pkt
  else
    match newline with
    | some p => putText signed pkt p
    | none =>
      let wrttn := (pkt.p_wrttn + 1) % 256
      if pkt.p_wrttn = 0 then putText signed { pkt with p_wrttn := wrttn } pkt.p_line
      else putText signed { pkt with p_wrttn := wrttn } []

/- getline at the end of the file. -/
def getlineEof (pkt : Packet) : Except Fatal (Packet × Bool) :=
  if pkt.p_chkeof = false then throw .prematureEof
  else if pkt.do_chksum = true ∧ (pkt.p_chash - pkt.p_ihash) % 2 ^ 16 ≠ 0 then
    throw .corruptedFile
  else if pkt.p_reopen then
    pure ({ pkt with
      p_iop := some pkt.p_file, p_reopen := false, p_slnno := 0, p_ihash := 0, p_chash := 0,
      p_nhash := 0, p_keep := 0, do_chksum := false }, false)
  else pure ({ pkt with p_iop := none }, false)

/- The line of the packet goes out if it has not been written. -/
def writeOut (pkt : Packet) : Packet := if pkt.p_wrttn = 0 then putline signed pkt none else pkt

/- A line has been read. -/
def setline (pkt : Packet) (l rest : Text) : Packet :=
  { pkt with
    p_line := l, p_iop := some rest, p_slnno := pkt.p_slnno + 1, p_wrttn := 0,
    p_chash := addChars signed pkt.p_chash l }

def readline (pkt : Packet) : Except Fatal (Packet × Bool) :=
  match pkt.p_iop with
  | none => throw .undefined
  | some s =>
    match fgets BUFSIZ s with
    | none => getlineEof pkt
    | some (l, rest) => pure (setline signed pkt l rest, true)

/- The next line of the file into the packet; `false` for NULL. -/
def getline (pkt : Packet) : Except Fatal (Packet × Bool) := readline signed (writeOut signed pkt)

/- What is left of the file bounds the number of lines in it. -/
def left (pkt : Packet) : Nat := (pkt.p_iop.getD []).length

def getlinesLoop : Nat → Packet → Except Fatal Packet
  | 0, _ => throw .outOfFuel
  | fuel + 1, pkt => do
    let (pkt, got) ← getline signed pkt
    if got then getlinesLoop fuel pkt else pure pkt

/- while (getline(pkt)); -/
def getlines (pkt : Packet) : Except Fatal Packet := getlinesLoop signed (left pkt + 1) pkt

def byte (p : Text) (i : Nat) : Nat := p.getD i 0

/- The packet of a file that has been opened, before its first line is read. -/
def opened (file : Text) : Packet where
  p_upd := false
  p_ihash := 0
  p_chash := 0
  p_nhash := 0
  p_glnno := 0
  p_slnno := 0
  p_wrttn := 1
  p_keep := 0
  p_inssid := ⟨0, 0, 0, 0⟩
  p_apply _ := false
  p_idel _ := ⟨0, 0, 0, 0⟩
  p_q := []
  null := gates
  p_file := file
  p_iop := some file
  p_line := []
  maxser := 0
  p_chkeof := false
  p_reopen := false
  do_chksum := true
  Xcreate := false
  Xiop := []

/- sinit, with the s-file opened. -/
def sinit (file : Text) : Except Fatal Packet := do
  let (pkt, got) ← getline signed (opened file)
  if got = true ∧ byte pkt.p_line 0 = CTLCHAR ∧ byte pkt.p_line 1 = HEAD then
    let p := satoi (pkt.p_line.drop 2)
    if byte p.2 0 = newline then pure { pkt with p_ihash := p.1, p_chash := 0 } else fmterr pkt
  else fmterr pkt

structure Stats where
  s_ins : Int
  s_del : Int
  s_unc : Int
deriving DecidableEq

/- p_nhash += (*p - '0'), to the end of the string -/
def addDigits (hash : Int) (p : Text) : Int :=
  p.foldl (fun h c => i32 (h + (charval signed c - 48))) hash

/- A number as printf takes it for "%u". -/
def unsigned (x : Int) : Nat := (x % 2 ^ 32).toNat

/- What is written after rewind. -/
def overwrite (old new : Text) : Text := new ++ old.drop new.length

def headline (hash : Int) : Text := [CTLCHAR, HEAD] ++ udec5 (hash % 2 ^ 16).toNat ++ [newline]

def statline (ins del unc : Text) : Text :=
  [CTLCHAR, STATS, 32] ++ ins ++ [47] ++ del ++ [47] ++ unc ++ [newline]

def flushline (pkt : Packet) (stats : Option Stats) : Packet :=
  if pkt.p_upd = false then pkt
  else
    let pkt := putline signed pkt none
    match stats with
    | none => { pkt with Xiop := overwrite pkt.Xiop (headline pkt.p_nhash) }
    | some s =>
      let ins := udec5 (unsigned s.s_ins)
      let del := udec5 (unsigned s.s_del)
      let unc := udec5 (unsigned s.s_unc)
      let hash := addDigits signed (addDigits signed (addDigits signed pkt.p_nhash ins) del) unc
      { pkt with
        p_nhash := hash
        Xiop := overwrite pkt.Xiop (headline hash ++ statline ins del unc) }

variable {signed}

theorem bind_ok {α β : Type} {x : Except Fatal α} {f : α → Except Fatal β} {r : β}
    (h : (x >>= f) = .ok r) : ∃ a, x = .ok a ∧ f a = .ok r := by
  cases x with
  | error e => cases h
  | ok a => exact ⟨a, rfl, h⟩

theorem putline_read {pkt : Packet} (hu : pkt.p_upd = false) (s : Option Text) :
    putline signed pkt s = pkt := by
  unfold putline
  exact if_pos hu

theorem putline_text {pkt : Packet} (hu : pkt.p_upd = true) (p : Text) :
    putline signed pkt (some p) = putText signed pkt p := by
  unfold putline
  exact if_neg (by simp [hu])

theorem writeOut_read {pkt : Packet} (hu : pkt.p_upd = false) : writeOut signed pkt = pkt := by
  rw [writeOut]
  split
  · exact putline_read hu none
  · rfl

theorem writeOut_written {pkt : Packet} (hw : pkt.p_wrttn ≠ 0) : writeOut signed pkt = pkt :=
  if_neg hw

theorem readline_line {pkt : Packet} {s l rest : Text} (hs : pkt.p_iop = some s)
    (hf : fgets BUFSIZ s = some (l, rest)) :
    readline signed pkt = .ok (setline signed pkt l rest, true) := by
  rw [readline, hs]
  simp [hf]
  rfl

theorem readline_eof {pkt : Packet} (hs : pkt.p_iop = some []) :
    readline signed pkt = getlineEof pkt := by
  rw [readline, hs]
  rfl

/- At the end of the file, with nothing wrong and no second reading. -/
theorem getlineEof_ok {pkt : Packet} (heof : pkt.p_chkeof = true) (hre : pkt.p_reopen = false)
    (hsum : pkt.do_chksum = true → (pkt.p_chash - pkt.p_ihash) % 2 ^ 16 = 0) :
    getlineEof pkt = .ok ({ pkt with p_iop := none }, false) := by
  rw [getlineEof, if_neg (by simp [heof]), if_neg (by simpa using hsum), if_neg (by simp [hre])]
  rfl

end
end Svr32.Sccs

/-! sccs rdmod.c: the next line of the version that the packet applies. -/
namespace Svr32.Sccs
open Svr32.Lib

/- The first entry that says something. -/
def setkeep (pkt : Packet) : Packet :=
  match pkt.p_q.find? fun q => q.q_keep ≠ 0 with
  | some q =>
    if q.q_keep = YES then { pkt with p_keep := q.q_keep, p_inssid := pkt.p_idel q.q_sernum }
    else { pkt with p_keep := q.q_keep }
  | none => { pkt with p_keep := NO }

/- The queue with an entry put in, highest serial first; `none` if the serial is there. At the end
of the queue the source looks at the serial number that the null pointer has. -/
def enqueue (null : Int) (q : Queue) : List Queue → Option (List Queue)
  | [] => if null = q.q_sernum then none else some [q]
  | cur :: rest =>
    if cur.q_sernum ≤ q.q_sernum then
      if cur.q_sernum = q.q_sernum then none else some (q :: cur :: rest)
    else (enqueue null q rest).map (cur :: ·)

def addq (pkt : Packet) (ser : Nat) (keep : Int) (iord : Nat) : Except Fatal Packet :=
  match enqueue pkt.null ⟨ser, keep, iord⟩ pkt.p_q with
  | none => fmterr pkt
  | some q => pure (setkeep { pkt with p_q := q })

def remq (pkt : Packet) (ser : Nat) : Except Fatal Packet :=
  if pkt.p_q.any fun cur => cur.q_sernum = ser then
    pure (setkeep { pkt with p_q := pkt.p_q.eraseP fun cur => cur.q_sernum = ser })
  else fmterr pkt

/- What readmod does at a control line. -/
def control (pkt : Packet) : Except Fatal Packet :=
  let iord := byte pkt.p_line 1
  if iord = INS ∨ iord = DEL ∨ iord = END then
    let ser := (satoi (nonblank (pkt.p_line.drop 2))).1
    if 0 < ser ∧ ser ≤ pkt.maxser then
      if iord = END then remq pkt ser.toNat
      else if pkt.p_apply ser.toNat then addq pkt ser.toNat (if iord = INS then YES else NO) iord
      else addq pkt ser.toNat (if iord = INS then NO else 0) iord
    else fmterr pkt
  else fmterr pkt

section
variable (signed : Bool)

/- readmod, for at most `fuel` lines; `true` if there is a line of the version. -/
def readmodLoop : Nat → Packet → Except Fatal (Packet × Bool)
  | 0, _ => throw .outOfFuel
  | fuel + 1, pkt => do
    let (pkt, got) ← getline signed pkt
    if got then
      if byte pkt.p_line 0 = CTLCHAR then readmodLoop fuel (← control pkt)
      else if pkt.p_keep = YES then pure ({ pkt with p_glnno := pkt.p_glnno + 1 }, true)
      else readmodLoop fuel pkt
    else if pkt.p_q = [] then pure (pkt, false)
    else throw .prematureEof

def readmod (pkt : Packet) : Except Fatal (Packet × Bool) := readmodLoop signed (left pkt + 1) pkt

/- while (readmod(pkt)); the lines of the version, and the packet at the end of the file. -/
def readmodsLoop : Nat → Packet → Except Fatal (Packet × List Text)
  | 0, _ => throw .outOfFuel
  | fuel + 1, pkt => do
    let (pkt, got) ← readmod signed pkt
    if got then
      let (last, ls) ← readmodsLoop fuel pkt
      pure (last, pkt.p_line :: ls)
    else pure (pkt, [])

def readmods (pkt : Packet) : Except Fatal (Packet × List Text) :=
  readmodsLoop signed (left pkt + 1) pkt

def flushtoLoop (ch : Nat) (put : Nat) : Nat → Packet → Except Fatal Packet
  | 0, _ => throw .outOfFuel
  | fuel + 1, pkt => do
    let (pkt, got) ← getline signed pkt
    if got then
      if byte pkt.p_line 0 = CTLCHAR ∧ byte pkt.p_line 1 = ch then pure (putline signed pkt none)
      else flushtoLoop ch put fuel { pkt with p_wrttn := put }
    else fmterr pkt

def flushto (pkt : Packet) (ch : Nat) (put : Nat) : Except Fatal Packet :=
  flushtoLoop signed ch put (left pkt + 1) pkt

end
end Svr32.Sccs
