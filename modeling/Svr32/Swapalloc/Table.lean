import Mathlib.Logic.Function.Basic
import Mathlib.Data.List.FinRange
import Mathlib.Algebra.Ring.Nat
import Mathlib.Algebra.Ring.Int.Defs

/-! os/swapalloc.c: the swap files, and the disk block descriptors that refer to their pages.
A call runs to its end, except that swalloc may look again, or sleep until there is more. -/
namespace Svr32.Swapalloc

abbrev MSFILES : Nat := 16
def MAXSUSE : Nat := 255
def DPPSHFT : Nat := 2

/- The number of a file in the swap file table. -/
abbrev Smi := Fin MSFILES

/- A swap file; st_next is given as an index into st_ucnt. -/
structure Swpt where
  stDev : Nat
  stIndel : Bool
  stUcnt : Option (List Nat)
  stNext : Nat
  stSwplo : Int
  stNpgs : Nat
  stNfpgs : Int

inductive DbdType
  | none
  | swap
  | file
deriving DecidableEq

structure Dbd where
  dbdType : DbdType
  dbdSwpi : Smi
  dbdBlkno : Nat
deriving DecidableEq

/- A call of swalloc: its arguments and its result variable. -/
structure Call (D : Type) where
  pglist : List D
  waitflag : Bool
  swappg : Int

structure Swap (D : Type) where
  swaptab : Smi → Swpt
  nextswap : Smi
  availsmem : Int
  tMinasmem : Int
  dbd : D → Dbd
  /- The calls that are looking for space. -/
  calls : List (Call D)
  /- The list of those that sleep. -/
  swapwold : List (Call D)

variable {D : Type} [DecidableEq D]

/- for (i = 1; i < size; i++, p++) if (*p != 0) goto Cont; -/
def contig (u : List Nat) : Nat → Nat → Nat × Bool
  | 0, p => (p, true)
  | r + 1, p => if u[p]? = some 0 then contig u r (p + 1) else (p, false)

/- for (; p <= e; p++); every turn moves p. -/
def findLoop (u : List Nat) (size : Nat) (e : Int) : Nat → Nat → Option (Nat × Nat)
  | 0, _ => none
  | r + 1, p =>
    if e < p then none
    else if u[p]? = some 0 then
      match contig u (size - 1) (p + 1) with
      | (q, true) => some (p, q)
      | (q, false) => findLoop u size e r (q + 1)
    else findLoop u size e r (p + 1)

/- A loop that starts at `p`. -/
def findFrom (u : List Nat) (size : Nat) (e : Int) (p : Nat) : Option (Nat × Nat) :=
  findLoop u size e (e + 1 - p).toNat p

/-- swapfind -/
def swapfind (u : List Nat) (size : Nat) (st : Swpt) : Int × Swpt :=
  match findFrom u size (st.stNpgs - size) st.stNext with
  | some (b, p) => (b, { st with stNext := p })
  | none =>
    match findFrom u size (st.stNext - size) 0 with
    | some (b, p) => (b, { st with stNext := p })
    | none => (-1, { st with stNext := 0 })

/- The scan of the table, a number of files from `smi` on. -/
def scanTab (size : Nat) : Nat → Smi → Int → (Smi → Swpt) → Int × Smi × (Smi → Swpt)
  | 0, smi, swappg, tab => (swappg, smi, tab)
  | r + 1, smi, swappg, tab =>
    match (tab smi).stUcnt, (tab smi).stIndel with
    | some u, false =>
      let (swappg, st) := swapfind u size (tab smi)
      let tab := Function.update tab smi st
      if 0 ≤ swappg then (swappg, smi, tab) else scanTab size r (smi + 1) swappg tab
    | _, _ => scanTab size r (smi + 1) swappg tab

/- One turn of the loop of swalloc. -/
def scan (c : Call D) (s : Swap D) : Int × Smi × (Smi → Swpt) :=
  scanTab c.pglist.length MSFILES s.nextswap c.swappg s.swaptab

/- The 24 bits of dbd_blkno. -/
def toBlkno (n : Int) : Nat := (n % 2 ^ 24).toNat

/- A store through a null st_ucnt is not to the table. -/
def setUcnt (f : List Nat → List Nat) (st : Swpt) : Swpt := { st with stUcnt := st.stUcnt.map f }

/- The main loop of swalloc, from the page `pg` on. -/
def setLoop (smi : Smi) : List D → Int → Nat → Swap D → Swap D
  | [], _, _, s => s
  | d :: ds, blk, pg, s =>
    setLoop smi ds (blk + 2 ^ DPPSHFT) (pg + 1) { s with
      swaptab := Function.update s.swaptab smi (setUcnt (·.set pg 1) (s.swaptab smi))
      dbd := Function.update s.dbd d ⟨.swap, smi, toBlkno blk⟩ }

/- The end of swalloc. -/
def setup (ds : List D) (smi : Smi) (pg : Nat) (s : Swap D) : Swap D :=
  let st := s.swaptab smi
  setLoop smi ds (st.stSwplo + (pg <<< DPPSHFT : Nat)) pg { s with
    swaptab := Function.update s.swaptab smi { st with stNfpgs := st.stNfpgs - ds.length }
    nextswap := smi + 1 }

/- The page of a descriptor. -/
def pgnbr (b : Dbd) (st : Swpt) : Int := (b.dbdBlkno - st.stSwplo) >>> DPPSHFT

/- setrun(swapwold) -/
def setrun (s : Swap D) : Swap D :=
  match s.swapwold with
  | [] => s
  | c :: cs => { s with calls := c :: s.calls, swapwold := cs }

/- The use count of a descriptor. -/
def swpuse (b : Dbd) (s : Swap D) : Option Nat :=
  (s.swaptab b.dbdSwpi).stUcnt.bind fun u => u[(pgnbr b (s.swaptab b.dbdSwpi)).toNat]?

def setUse (b : Dbd) (n : Nat) (st : Swpt) : Swpt := setUcnt (·.set (pgnbr b st).toNat n) st

/- Wake up the first process waiting for swap if we have freed up enough space. -/
def wakeFirst (nfpgs : Int) (s : Swap D) : Swap D :=
  match s.swapwold with
  | [] => s
  | c :: _ => if c.pglist.length ≤ nfpgs then setrun s else s

/-- swfree1; `none` where ASSERT fails. -/
def swfree1 (b : Dbd) (s : Swap D) : Option (Nat × Swap D) := do
  let n ← swpuse b s
  if n = 0 then none
  else
    let st := setUse b (n - 1) (s.swaptab b.dbdSwpi)
    if n - 1 = 0 then
      let st := { st with stNfpgs := st.stNfpgs + 1 }
      return (0, wakeFirst st.stNfpgs
        { s with swaptab := Function.update s.swaptab b.dbdSwpi st })
    else return (n - 1, { s with swaptab := Function.update s.swaptab b.dbdSwpi st })

/-- swpinc: whether the count has room. -/
def swpinc (b : Dbd) (s : Swap D) : Option (Bool × Swap D) := do
  let n ← swpuse b s
  if MAXSUSE ≤ n then return (false, s)
  else return (true, { s with
    swaptab := Function.update s.swaptab b.dbdSwpi (setUse b (n + 1) (s.swaptab b.dbdSwpi)) })

inductive Errno
  | EEXIST
  | ENOSPC
  | EINVAL
  | ENOMEM
  | dOpen (e : Nat)

/- An entry that is being deleted is used again; the entry is there; the first free entry. -/
inductive Found
  | again (i : Smi) (smi : Option Smi)
  | dup
  | free (smi : Option Smi)

/- The loop of swapadd. -/
def addLoop (dev : Nat) (lowblk : Int) (npgs : Nat) (tab : Smi → Swpt) :
    List Smi → Option Smi → Found
  | [], smi => .free smi
  | i :: is, smi =>
    if (tab i).stUcnt.isNone then addLoop dev lowblk npgs tab is (smi <|> some i)
    else if (tab i).stDev = dev ∧ (tab i).stSwplo = lowblk then
      if (tab i).stIndel = true ∧ (tab i).stNpgs = npgs then .again i smi else .dup
    else addLoop dev lowblk npgs tab is smi

/- while (swapwold) -/
def setrunAll (s : Swap D) : Swap D := { s with calls := s.swapwold ++ s.calls, swapwold := [] }

/- st_ucnt = uptalloc(i), which clears the counts; uptalloc(0) is NULL. -/
def uptalloc (ok : Bool) (npgs : Nat) : Option (List Nat) :=
  if ok = true ∧ npgs ≠ 0 then some (List.replicate npgs 0) else none

/-- swapadd: the entry, or -1, and the error; `open'` is what d_open says and `ok` whether
uptalloc has room. -/
def swapadd (dev : Nat) (lowblk : Int) (nblks : Nat) (open' : Option Nat) (ok : Bool)
    (s : Swap D) : (Option Smi × Option Errno) × Swap D :=
  let npgs := nblks >>> DPPSHFT
  match addLoop dev lowblk npgs s.swaptab (List.finRange MSFILES) none with
  | .again i smi =>
    ((smi, none), { s with
      swaptab := Function.update s.swaptab i { s.swaptab i with stIndel := false }
      availsmem := s.availsmem + (s.swaptab i).stNpgs })
  | .dup => ((none, some .EEXIST), s)
  | .free none => ((none, some .ENOSPC), s)
  | .free (some smi) =>
    match open' with
    | some e =>
      ((none, some (.dOpen e)), { s with
        swaptab := Function.update s.swaptab smi
          { s.swaptab smi with stUcnt := none, stIndel := false } })
    | none =>
      let st := { s.swaptab smi with
        stDev := dev, stSwplo := lowblk, stNpgs := npgs, stNfpgs := npgs
        stUcnt := uptalloc ok npgs }
      if st.stUcnt.isNone then
        ((none, none), { s with swaptab := Function.update s.swaptab smi st })
      else
        ((some smi, none), setrunAll { s with
          swaptab := Function.update s.swaptab smi { st with stNext := 0, stIndel := false }
          availsmem := s.availsmem + npgs })

/- The loop of swapdel: the entry to be deleted, and how many others may be allocated from. -/
def delLoop (dev : Nat) (lowblk : Int) (tab : Smi → Swpt) :
    List Smi → Option Smi × Nat → Option Smi × Nat
  | [], r => r
  | i :: is, (smi, ok) =>
    if (tab i).stUcnt.isNone then delLoop dev lowblk tab is (smi, ok)
    else if (tab i).stDev = dev ∧ (tab i).stSwplo = lowblk then delLoop dev lowblk tab is (some i, ok)
    else if (tab i).stIndel then delLoop dev lowblk tab is (smi, ok)
    else delLoop dev lowblk tab is (smi, ok + 1)

/- dbd->dbd_type = DBD_NONE -/
def clearDbd (d : D) (s : Swap D) : Swap D :=
  { s with dbd := Function.update s.dbd d { s.dbd d with dbdType := .none } }

/- getswap: the descriptors are those it gets at, of regions that are not locked and of pages
   for which there is memory. -/
def getswap (smi : Smi) : List D → Swap D → Option (Swap D)
  | [], s => some s
  | d :: ds, s =>
    if (s.dbd d).dbdType = .swap ∧ (s.dbd d).dbdSwpi = smi then do
      let (_, s) ← swfree1 (s.dbd d) s
      getswap smi ds (clearDbd d s)
    else getswap smi ds s

/- swaprem -/
def swaprem (smi : Smi) (s : Swap D) : Swap D :=
  { s with swaptab := Function.update s.swaptab smi { s.swaptab smi with stUcnt := none } }

/- The mark of swapdel. -/
def indel (smi : Smi) (s : Swap D) : Swap D :=
  { s with
    swaptab := Function.update s.swaptab smi { s.swaptab smi with stIndel := true }
    availsmem := s.availsmem - (s.swaptab smi).stNpgs }

/- The pages of the file, if some are in use. -/
def delUsed (smi : Smi) (ds : List D) (s : Swap D) : Option (Swap D) :=
  if (s.swaptab smi).stNfpgs < (s.swaptab smi).stNpgs then getswap smi ds s else some s

/- The end of swapdel. -/
def delPages (smi : Smi) (ds : List D) (s : Swap D) : Option (Swap D) := do
  let s ← delUsed smi ds s
  if (s.swaptab smi).stNfpgs = (s.swaptab smi).stNpgs then return swaprem smi s else return s

/-- swapdel -/
def swapdel (dev : Nat) (lowblk : Int) (ds : List D) (s : Swap D) :
    Option ((Option Smi × Option Errno) × Swap D) :=
  match delLoop dev lowblk s.swaptab (List.finRange MSFILES) (none, 0) with
  | (none, _) => some ((none, some .EINVAL), s)
  | (some _, 0) => some ((none, some .ENOMEM), s)
  | (some smi, _ + 1) =>
    if (s.swaptab smi).stIndel then (delPages smi ds s).map fun s => ((some smi, none), s)
    else if s.availsmem - (s.swaptab smi).stNpgs < s.tMinasmem then
      some ((none, some .ENOMEM), s)
    else (delPages smi ds (indel smi s)).map fun s => ((some smi, none), s)

end Svr32.Swapalloc
