import Svr32.Sccs.Packet

/-! sccs delta.c: the new delta is woven into the body of the s-file, as the listing of diff says. -/
namespace Svr32.Sccs
open Svr32.Lib

/- What the loop over the listing works on: the packet, what is left of Diffin, the statics of
getdiff, and the counts. -/
structure Weaver where
  pkt : Packet
  Diffin : Text
  chg_num : Int
  chg_ln : Int
  inserted : Int
  deleted : Int

/- sprintf(str,"%c%c %u\n",CTLCHAR,iord,ser) -/
def ctlline (iord ser : Nat) : Text := [CTLCHAR, iord, 32] ++ udec ser ++ [newline]

/- A string is put into a buffer; what lies behind its end stays. -/
def store (buf l : Text) : Text := l ++ 0 :: buf.drop (l.length + 1)

/- How often `for (++n; --n; )` goes round. -/
def rounds (n : Int) : Nat := (n % 2 ^ 32).toNat

/- rddiff: the buffer keeps what it has at the end of the listing. -/
def rddiff (Diffin buf : Text) : Text × Text × Bool :=
  match fgets 512 Diffin with
  | some (l, rest) => (rest, store buf l, true)
  | none => ([], buf, false)

def skipline (Diffin : Text) : Nat → Text
  | 0 => Diffin
  | n + 1 => skipline (rddiff Diffin []).1 n

/- The two numbers, and what comes after them. -/
def linerange (cp : Text) : Int × Int × Text :=
  let low := satoi cp
  if byte low.2 0 = 44 then
    let high := satoi (low.2.drop 1)
    (low.1, high.1, high.2)
  else (low.1, low.1, low.2)

def getdiff (w : Weaver) : Except Fatal (Weaver × Nat × Int × Int) :=
  match rddiff w.Diffin [] with
  | (rest, _, false) => pure ({ w with Diffin := rest }, INS, 0, 0)
  | (rest, p, true) =>
    if byte p 0 = 45 then pure ({ w with Diffin := rest }, INS, w.chg_ln, w.chg_num)
    else
      let old := linerange p
      let new := linerange (old.2.2.drop 1)
      let num := i32 (old.2.1 - old.1 + 1)
      let chg := i32 (new.2.1 - new.1 + 1)
      let c := byte old.2.2 0
      if c = 100 then
        pure ({ w with Diffin := skipline rest (rounds num) }, DEL, old.1, num)
      else if c = 97 then pure ({ w with Diffin := rest }, INS, old.1, chg)
      else if c = 99 then
        pure ({ w with Diffin := skipline rest (rounds num), chg_ln := old.1, chg_num := chg },
          DEL, old.1, num)
      else throw .undefined

section
variable (signed : Bool)

def beforeLoop (n : Int) : Nat → Packet → Except Fatal Packet
  | 0, _ => throw .outOfFuel
  | fuel + 1, pkt => do
    if pkt.p_glnno < n then
      let (pkt, got) ← readmod signed pkt
      if got then beforeLoop n fuel pkt else pure pkt
    else pure pkt

def before (pkt : Packet) (n : Int) : Except Fatal Packet :=
  beforeLoop signed n (left pkt + 1) pkt

def after (pkt : Packet) (n : Int) : Except Fatal Packet := do
  let pkt ← before signed pkt n
  if pkt.p_glnno = n then pure (putline signed pkt none) else pure pkt

/- The lines of the listing that insert copies, each without its mark. -/
def insertLines : Nat → Packet → Text → Text → Packet × Text
  | 0, pkt, Diffin, _ => (pkt, Diffin)
  | n + 1, pkt, Diffin, str =>
    let r := rddiff Diffin str
    insertLines n (putline signed pkt (some (r.2.1.drop 2))) r.1 r.2.1

def insert (pkt : Packet) (Diffin : Text) (linenum n : Int) (ser : Nat) :
    Except Fatal (Packet × Text) := do
  let pkt ← after signed pkt linenum
  let pkt := putline signed pkt (some (ctlline INS ser))
  let r := insertLines signed (rounds n) pkt Diffin (ctlline INS ser ++ [0])
  pure (putline signed r.1 (some (ctlline END ser)), r.2)

def delete (pkt : Packet) (linenum n : Int) (ser : Nat) : Except Fatal Packet := do
  let pkt ← before signed pkt linenum
  let pkt := putline signed pkt (some (ctlline DEL ser))
  let pkt ← after signed pkt (i32 (linenum + n - 1))
  pure (putline signed pkt (some (ctlline END ser)))

/- What delta does at one line of the listing that getdiff has read. -/
def applydiff (w : Weaver) (type : Nat) (linenum n : Int) (newser : Nat) : Except Fatal Weaver :=
  if type = INS then do
    let (pkt, rest) ← insert signed w.pkt w.Diffin linenum n newser
    pure { w with pkt := pkt, Diffin := rest, inserted := i32 (w.inserted + n) }
  else do
    let pkt ← delete signed w.pkt linenum n newser
    pure { w with pkt := pkt, deleted := i32 (w.deleted + n) }

/- while (n = getdiff(&type,&linenum)) -/
def weaveLoop (newser : Nat) : Nat → Weaver → Except Fatal Weaver
  | 0, _ => throw .outOfFuel
  | fuel + 1, w => do
    let (w, type, linenum, n) ← getdiff w
    if n = 0 then pure w
    else weaveLoop newser fuel (← applydiff signed w type linenum n newser)

/- The loop, and the rest of the body. -/
def weave (newser : Nat) (w : Weaver) : Except Fatal Weaver := do
  let w ← weaveLoop signed newser (w.Diffin.length + 1) w
  if w.pkt.p_iop.isSome then
    let (pkt, _) ← readmods signed w.pkt
    pure { w with pkt := pkt }
  else pure w

/- newstats, as mkdelt calls it. -/
def newstats (pkt : Packet) (ch : Nat) : Packet :=
  let fivech := List.replicate 5 ch
  putline signed pkt (some (statline fivech fivech fivech))

/- mkdelt: the strings of `entry` are the new entry of the delta table. -/
def mkdelt (pkt : Packet) (entry : List Text) : Packet :=
  let pkt := putline signed pkt (some ([CTLCHAR, HEAD] ++ List.replicate 5 48 ++ [newline]))
  entry.foldl (fun pkt str => putline signed pkt (some str)) (newstats signed pkt 48)

/- One round of the loop of delta. -/
def attempt (entry : List Text) (newser : Nat) (w : Weaver) : Except Fatal Weaver := do
  let (pkt, _) ← getline signed { w.pkt with p_glnno := 0, p_upd := true, p_wrttn := 1 }
  let pkt := mkdelt signed { pkt with p_wrttn := 1 } entry
  let pkt ← flushto signed pkt EUSERTXT 0
  weave signed newser { w with pkt := pkt, inserted := 0, deleted := 0 }

/- What is set up for a new x-file after diff has failed. -/
def retry (pkt : Packet) : Packet :=
  { pkt with
    Xcreate := false, Xiop := [], p_iop := some pkt.p_file, p_slnno := 0, p_ihash := 0,
    p_chash := 0, p_nhash := 0, p_keep := 0 }

/- The loop of delta, with a limit of `500 * n`: what 'bdiff' lists with a limit, and its status. -/
def deltaLoop (entry : List Text) (newser : Nat) (bdiff : Nat → Text × Nat) :
    Nat → Weaver → Except Fatal Weaver
  | 0, _ => throw .diffFailed
  | n + 1, w => do
    let (listing, status) := bdiff (500 * (n + 1))
    let w ← attempt signed entry newser { w with Diffin := listing }
    if status = 0 then pure w
    else if status / 2 ^ 8 % 2 ^ 8 = 32 then throw .cannotExecute
    else deltaLoop entry newser bdiff n { w with pkt := retry w.pkt }

/- What a run of delta has from outside: how many lines of the s-file come before ^AT's part is
sought, the version that the user got, the serial and the table entry of the new delta, and bdiff. -/
structure DeltaRun where
  header : Nat
  apply : Nat → Bool
  maxser : Int
  newser : Nat
  entry : List Text
  bdiff : Nat → Text × Nat

def readHeader : Nat → Packet → Except Fatal Packet
  | 0, pkt => pure pkt
  | n + 1, pkt => do
    let (pkt, _) ← getline signed pkt
    readHeader n pkt

/- delta: the x-file, and the counts that are in its first lines. -/
def delta (file : Text) (run : DeltaRun) : Except Fatal (Text × Stats) := do
  let pkt ← sinit signed file
  let pkt ← readHeader signed run.header { pkt with p_reopen := true }
  let pkt ← flushto signed { pkt with p_apply := run.apply, maxser := run.maxser } EUSERTXT 1
  let (pkt, orig) ← readmods signed { pkt with p_chkeof := true }
  let w ← deltaLoop signed run.entry run.newser run.bdiff 7
    { pkt := pkt, Diffin := [], chg_num := 0, chg_ln := 0, inserted := 0, deleted := 0 }
  let stats : Stats := ⟨w.inserted, w.deleted, i32 (orig.length - w.deleted)⟩
  pure ((flushline signed w.pkt (some stats)).Xiop, stats)

end
end Svr32.Sccs

/-! sccs rmchg.c: rmdel and cdc. The s-file is copied, and of the delta its text is left out. -/
namespace Svr32.Sccs
open Svr32.Lib

section
variable (signed : Bool)

/- A line of the body, with the flag of the loop. -/
def rmline (pkt : Packet) (keep : Int) (D_serial : Int) : Except Fatal (Packet × Int) :=
  if byte pkt.p_line 0 = CTLCHAR then
    let n := satoi (nonblank (pkt.p_line.drop 2))
    if byte n.2 0 = newline then
      if n.1 = D_serial then
        pure ({ pkt with p_wrttn := 1 }, if byte pkt.p_line 1 = INS then NO else YES)
      else pure (pkt, keep)
    else fmterr pkt
  else if keep = NO then pure ({ pkt with p_wrttn := 1 }, keep)
  else pure (pkt, keep)

def rmbodyLoop (D_serial : Int) : Nat → Packet → Int → Except Fatal Packet
  | 0, _, _ => throw .outOfFuel
  | fuel + 1, pkt, keep => do
    let (pkt, got) ← getline signed pkt
    if got then
      let (pkt, keep) ← rmline pkt keep D_serial
      rmbodyLoop D_serial fuel pkt keep
    else pure pkt

def rmbody (pkt : Packet) (D_serial : Int) : Except Fatal Packet :=
  rmbodyLoop signed D_serial (left pkt + 1) pkt YES

/- What dodelt, doflags and escdodelt do to the packet before the body. -/
inductive HeaderStep where
  | getline
  | edit (line : Text)
  | put (str : Text)
  | putCurrent
  | drop

def headerStep (pkt : Packet) : HeaderStep → Except Fatal Packet
  | .getline => do
    let (pkt, _) ← getline signed pkt
    pure pkt
  | .edit line => pure { pkt with p_line := line }
  | .put str => pure (putline signed pkt (some str))
  | .putCurrent => pure (putline signed pkt none)
  | .drop => pure { pkt with p_wrttn := 1 }

def headerSteps (pkt : Packet) : List HeaderStep → Except Fatal Packet
  | [] => pure pkt
  | x :: xs => do
    let pkt ← headerStep signed pkt x
    headerSteps pkt xs

/- The part that rmdel and cdc share; the first line of the table is stats_ab's. -/
def rmheader (file : Text) (steps : List HeaderStep) : Except Fatal Packet := do
  let pkt ← sinit signed file
  headerSteps signed { pkt with p_upd := true } (.getline :: steps)

def rmdel (file : Text) (steps : List HeaderStep) (D_serial : Int) : Except Fatal Text := do
  let pkt ← rmheader signed file steps
  let pkt ← flushto signed pkt EUSERTXT 0
  let pkt ← rmbody signed { pkt with p_chkeof := true } D_serial
  pure (flushline signed pkt none).Xiop

def cdc (file : Text) (steps : List HeaderStep) : Except Fatal Text := do
  let pkt ← rmheader signed file steps
  let pkt ← getlines signed { pkt with p_chkeof := true }
  pure (flushline signed pkt none).Xiop

end
end Svr32.Sccs
