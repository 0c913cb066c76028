import Mathlib.Data.Nat.Bitwise
import Svr32.Lib.Mem

/-! cmd/uucp/pk0.c and pk1.c: a frame as pkxstart writes it, and what pkgetpack, pkdata, pkaccept
and pkread do with it. Characters are unsigned. -/
namespace Svr32.Uucp
open Lib (Arr put put_self put_ne)

abbrev Byte := BitVec 8
abbrev Word := BitVec 16

def SYN : Byte := 16
def CHECK : Word := 43690
def PKMAXBUF : Nat := 128
def CONNODATA : Nat := 20

def pksizes : List Nat := [1, 32, 64, 128, 256, 512, 1024, 2048, 4096, 1]

/- p_state -/
def LIVE : Nat := 8
def DRAINO : Nat := 256
def DOWN : Nat := 1024
def BADFRAME : Nat := 8192

/- p_is -/
def B_COPY : Byte := 16
def B_MARK : Byte := 32
def B_SHORT : Byte := 64

/- p_msg -/
def M_RJ : Nat := 4
def M_RR : Nat := 16

/- do ... while (--n > 0); a packet has at least one byte. -/
def chksumLoop : Nat → List Byte → Word → Word → Word
  | 0, _, sum, _ => sum
  | n + 1, s, sum, x =>
    let t := if sum.msb then (sum <<< 1) + 1 else sum <<< 1
    let sum := t + (s.headD 0).setWidth 16
    let x := x + (sum ^^^ BitVec.ofNat 16 (n + 1))
    chksumLoop n s.tail (if sum ≤ t then sum ^^^ x else sum) x

def chksum (s : List Byte) (n : Nat) : Word := chksumLoop n s (-1) 0

/- The count in front of a short packet. -/
def countBytes (fc : Nat) : List Byte :=
  if fc > 127 then [BitVec.ofNat 8 (fc &&& 127) ||| 128, BitVec.ofNat 8 (fc >>> 7)]
  else [BitVec.ofNat 8 (fc &&& 127)]

/- pkwrite: the buffer, of which `garbage` is what malloc left. -/
def fill (xsize : Nat) (data garbage : List Byte) : List Byte :=
  if data.length < xsize then
    (countBytes (xsize - data.length) ++ data ++ garbage).take xsize
  else data.take xsize

/- The output side of struct pack. -/
structure Sender where
  xsize : Nat
  lpsize : Byte
  ob : Arr (List Byte)
  osum : Arr Word

def low (w : Word) : Byte := w.setWidth 8
def high (w : Word) : Byte := (w >>> 8).setWidth 8

/- p_ohbuf -/
def header (ksize cntl : Byte) (checkword : Word) : List Byte :=
  let sum := CHECK - checkword
  [SYN, ksize, low sum, high sum, cntl, ksize ^^^ low sum ^^^ high sum ^^^ cntl]

/- No packet is x < 0. A packet beyond the room of buf has no frame. -/
def pkxstart (pk : Sender) (cntl : Byte) (x : Option Nat) : Option (List Byte) :=
  match x with
  | none => some (header 9 cntl (cntl.setWidth 16))
  | some x =>
    if pk.xsize > PKMAXBUF then none
    else some (header pk.lpsize cntl (pk.osum x ^^^ cntl.setWidth 16) ++ (pk.ob x).take pk.xsize)

/- The input side; p_ipool is the number of its buffers. -/
structure Pack where
  state : Nat
  connodata : Nat
  rsize : Nat
  rwindow : Nat
  pr : Nat
  rcount : Nat
  imap : Nat
  msg : Nat
  ipool : Nat
  is : Arr Byte
  isum : Arr Word
  ib : Arr (List Byte)

def next (x : Nat) : Nat := (x + 1) % 8

/- for(x=pk->p_pr; x!=t; x = (x-1)&7) -/
def slots (pr : Nat) : List Nat := (List.range 7).map fun j => (pr + 8 - j) % 8

def pkdata (c : Byte) (sum : Word) (bp : List Byte) (pk : Pack) : Pack :=
  if pk.state &&& DRAINO ≠ 0 ∨ pk.state &&& LIVE = 0 then pk
  else
    match (slots pk.pr).find? fun x => pk.is x == 0 with
    | none => pk
    | some x => { pk with
        imap := pk.imap ||| 1 <<< x, ipool := pk.ipool - 1,
        is := put pk.is x c, isum := put pk.isum x sum, ib := put pk.ib x bp }

/- What pkgetpack does with the header it has found. -/
inductive Got where
  | badHeader | badCheck | ignored | lost
  | control (c : Byte)
  | data (c : Byte)
  deriving DecidableEq

/- if (*p != SYN) continue; -/
def findSync : List Byte → Option (List Byte)
  | [] => none
  | p :: input => if p = SYN then some input else findSync input

/- The bytes that still come in; without them the tries run out. -/
def pkgetpack (pk : Pack) (input : List Byte) : Option (Got × Pack × List Byte) :=
  if pk.state &&& DOWN ≠ 0 ∨ pk.connodata > CONNODATA then none
  else
    match findSync input with
    | some (k :: p₂ :: p₃ :: cntl :: ccntl :: rest) =>
      let pk := { pk with connodata := pk.connodata + 1 }
      let sum : Word := p₂.setWidth 16 ||| p₃.setWidth 16 <<< 8
      if k ^^^ p₂ ^^^ p₃ ^^^ cntl ≠ ccntl then some (.badHeader, pk, rest)
      else if k = 9 then
        if sum.toNat + cntl.toNat = CHECK.toNat then some (.control cntl, pk, rest)
        else some (.badCheck, { pk with state := pk.state ||| BADFRAME }, rest)
      else if k ≠ 0 ∧ pksizes[k.toNat]? = some pk.rsize then
        if pk.ipool = 0 then some (.lost, pk, rest)
        else if rest.length < pk.rsize then some (.lost, pk, [])
        else some (.data cntl, pkdata cntl sum (rest.take pk.rsize) pk, rest.drop pk.rsize)
      else some (.ignored, pk, rest)
    | _ => none

/- The bytes of a short packet that are not there. -/
def shortCount (p : List Byte) : Nat :=
  let cc := (p.headD 0).toNat
  if cc &&& 128 ≠ 0 then cc &&& 127 ||| (p.tail.headD 0).toNat <<< 7 else cc

/- t = (~(-1<<pk->p_rwindow)) <<x; m = t; m |= t>>8; -/
def inputWindow (rwindow x : Nat) : Nat :=
  let t := (2 ^ rwindow - 1) <<< x
  (t ||| t >>> 8) % 256

structure Accepting where
  pk : Pack
  bad : Nat
  skip : Nat

/- free: -/
def freeSlot (x : Nat) (pk : Pack) : Pack := { pk with ipool := pk.ipool + 1, is := put pk.is x 0 }

/- The buffer of `x` goes to the place of its sequence number. -/
def moveSlot (x seq : Nat) (pk : Pack) : Pack :=
  if x ≠ seq then { pk with
    ib := put (put pk.ib x (pk.ib seq)) seq (pk.ib x), is := put pk.is x (pk.is seq) }
  else pk

/- One turn of for(x=0; x<8; x++). -/
def markSlot (imask m x : Nat) (s : Accepting) : Accepting :=
  if imask.testBit x = false then s
  else
    let cntl := s.pk.is x
    if cntl &&& 128 = 0 then { s with pk := freeSlot x s.pk, bad := s.bad + 1 }
    else
      let pk := { s.pk with is := put s.pk.is x (~~~(B_COPY + B_MARK)) }
      if (chksum (pk.ib x) pk.rsize ^^^ cntl.setWidth 16) + pk.isum x = CHECK then
        let seq := ((cntl >>> 3) &&& 7).toNat
        if m.testBit seq = false ∨ pk.is seq &&& (B_COPY ||| B_MARK) ≠ 0 then
          { s with pk := freeSlot x { pk with msg := pk.msg ||| M_RR }, skip := s.skip + 1 }
        else
          let pk := moveSlot x seq pk
          let short := cntl &&& B_SHORT ≠ 0
          let cc := if short then shortCount (pk.ib seq) else 0
          { s with pk := { pk with
              is := put pk.is seq (if short then B_MARK + B_SHORT else B_MARK),
              isum := put pk.isum seq (BitVec.ofNat 16 (pk.rsize - cc)) } }
      else { s with pk := freeSlot x pk, bad := s.bad + 1 }

structure Scanning where
  pk : Pack
  gap : Bool
  accept : Nat
  skip : Nat

/- for(x=next[pk->p_pr],t= -1; m & mask[x]; x = next[x]): the window is of 7, 8 turns are enough. -/
def scanLoop (m : Nat) : Nat → Nat → Scanning → Scanning
  | 0, _, s => s
  | fuel + 1, x, s =>
    if m.testBit x = false then s
    else
      let st := if s.pk.is x &&& B_MARK ≠ 0 then s.pk.is x ||| B_COPY else s.pk.is x
      let pk := { s.pk with is := put s.pk.is x st }
      if st &&& B_COPY ≠ 0 then
        if s.gap then
          scanLoop m fuel (next x) { s with pk := freeSlot x pk, skip := s.skip + 1 }
        else scanLoop m fuel (next x) { s with pk := pk, accept := s.accept + 1 }
      else scanLoop m fuel (next x) { s with pk := pk, gap := true }

/- pkaccept, with what pkgetpack has put in. -/
def pkaccept (pk : Pack) : Pack :=
  let x := next pk.pr
  let m := inputWindow pk.rwindow x
  let s := (List.range 8).foldl (fun s x => markSlot pk.imap m x s) ⟨{ pk with imap := 0 }, 0, 0⟩
  let s' := scanLoop m 8 x ⟨s.pk, false, 0, s.skip⟩
  let msg := if s.bad ≠ 0 then s'.pk.msg ||| M_RJ else s'.pk.msg
  { s'.pk with msg := if s'.skip ≠ 0 then msg ||| M_RR else msg, rcount := s'.accept }

/- if (*cp++ & 0200) cp++; -/
def skipCount (cp : List Byte) : List Byte :=
  if cp.headD 0 &&& 128 ≠ 0 then cp.drop 2 else cp.drop 1

/- pkread: the bytes that are handed out of a slot. -/
def pkread (pk : Pack) (x : Nat) : List Byte :=
  let is := pk.is x
  let cp := if is &&& B_SHORT ≠ 0 then skipCount (pk.ib x) else pk.ib x
  if is &&& B_COPY ≠ 0 then cp.take (pk.isum x).toNat else []

end Svr32.Uucp
