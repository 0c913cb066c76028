import Svr32.Region.Tables

/-! region.c: allocreg, freereg, dupreg, growreg and ptexpand. A region is the index of its entry in
the region table. What the page tables point to is kept with their addresses. -/
namespace Svr32.Region

def NPGPT : Nat := 64
def MAXSUSE : Nat := 255
def RT_PRIVATE : Nat := 1
def DBD_NONE : Nat := 0
def DBD_SWAP : Nat := 1

/- Pages to segments, rounded up and down, and back. -/
def ctos (x : Nat) : Nat := (x + (NPGPT - 1)) / NPGPT
def ctost (x : Nat) : Nat := x / NPGPT
def stoc (x : Nat) : Nat := x * NPGPT

structure Pde where
  valid : Bool
  copyw : Bool
  prot : Nat
  pfn : Nat

structure Dbd where
  type : Nat
  swpi : Nat
  blkno : Nat

def zeroPde : Pde := ⟨false, false, 0, 0⟩
def zeroDbd : Dbd := ⟨DBD_NONE, 0, 0⟩

/- `list` is r_list and `tables` what it points to. -/
structure Reg where
  lock : Bool
  wanted : Bool
  flags : Nat
  listsz : Nat
  pgsz : Nat
  nvalid : Int
  refcnt : Nat
  type : Nat
  noswapcnt : Nat
  filesz : Nat
  list : Pt
  tables : Nat → Pt
  iptr : Option Nat

structure State where
  mem : Mem
  pde : Pt → Nat → Pde
  dbd : Pt → Nat → Dbd
  pfuse : Nat → Int
  freemem : Int
  swpuse : Nat → Nat → Nat
  reg : Nat → Reg
  ractive : List Nat
  rfree : List Nat
  icount : Nat → Int
  sdt : Pt
  sdtsz : Nat
  psize : Int

def State.setReg (s : State) (r : Nat) (x : Reg) : State := { s with reg := change s.reg r x }

/- ptalloc clears what it gives. -/
def State.ptalloc (tune : Tune) (n : Nat) (place : Option Place) (s : State) :
    Option (Pt × State) :=
  match s.mem.ptalloc tune n place with
  | none => none
  | some (pt, m) =>
    let new (t : Pt) : Bool := pt.page * NPTPP + pt.index ≤ t.page * NPTPP + t.index ∧
      t.page * NPTPP + t.index < pt.page * NPTPP + pt.index + n
    some (pt, { s with
      mem := m
      pde := fun t => if new t then fun _ => zeroPde else s.pde t
      dbd := fun t => if new t then fun _ => zeroDbd else s.dbd t })

def State.uptfree (pt : Pt) (n : Nat) (s : State) : State := { s with mem := s.mem.uptfree pt n }

/- One page of pfree. -/
def pfreePage (r : Nat) (pt : Pt) (k : Nat) (s : State) : State :=
  let e := s.pde pt k
  let d := s.dbd pt k
  let s := if e.valid then
    { s with
      pfuse := change s.pfuse e.pfn (s.pfuse e.pfn - 1)
      freemem := if s.pfuse e.pfn - 1 = 0 then s.freemem + 1 else s.freemem
      reg := change s.reg r { s.reg r with nvalid := (s.reg r).nvalid - 1 } }
    else s
  let s := if d.type = DBD_SWAP then
    { s with
      swpuse := change s.swpuse d.swpi
        (change (s.swpuse d.swpi) d.blkno (s.swpuse d.swpi d.blkno - 1)) }
    else s
  { s with
    pde := change s.pde pt (change (s.pde pt) k zeroPde)
    dbd := change s.dbd pt (change (s.dbd pt) k { d with type := DBD_NONE }) }

/- pfree, from entry `k` on. -/
def pfree (r : Nat) (pt : Pt) : Nat → Nat → State → State
  | 0, _, s => s
  | size + 1, k, s => pfree r pt size (k + 1) (pfreePage r pt k s)

/- One user more of the inode that a region is of. -/
def ihold (ip : Option Nat) (icount : Nat → Int) : Nat → Int :=
  match ip with
  | some i => change icount i (icount i + 1)
  | none => icount

section
variable (tune : Tune)

/- allocreg; `none` is NULL. -/
def allocreg (ip : Option Nat) (type : Nat) (s : State) : Option (Nat × State) :=
  match s.rfree with
  | [] => none
  | r :: rfree =>
    some (r, { s with
      rfree := rfree
      ractive := r :: s.ractive
      reg := change s.reg r { s.reg r with type := type, iptr := ip, lock := true }
      icount := ihold ip s.icount })

/- The page tables of segments from `i` on are freed, and the pages. -/
def freeTables (r : Nat) : Nat → Nat → State → State
  | 0, _, s => s
  | k + 1, i, s =>
    let pt := (s.reg r).tables i
    let size := min ((s.reg r).pgsz - stoc i) NPGPT
    freeTables r k (i + 1) ((pfree r pt size 0 s).uptfree pt 2)

/- The inode that the region is of is given up. -/
def iput (r : Nat) (s : State) : State :=
  match (s.reg r).iptr with
  | some i => { s with icount := change s.icount i (s.icount i - 1) }
  | none => s

/- Pages of the region are available again, or are taken. -/
def giveBack (r : Nat) (d : Int) (s : State) : State :=
  { s with mem := { s.mem with
    availsmem := s.mem.availsmem + d
    availrmem := s.mem.availrmem + if (s.reg r).noswapcnt ≠ 0 then d else 0 } }

def cleared (x : Reg) : Reg :=
  { x with
    lock := false, wanted := false, flags := 0, listsz := 0, pgsz := 0, nvalid := 0
    type := 0, filesz := 0, list := NULL, noswapcnt := 0 }

/- The region goes to the free list. -/
def unlink (r : Nat) (s : State) : State :=
  { s with
    ractive := s.ractive.erase r
    rfree := r :: s.rfree
    reg := change s.reg r (cleared (s.reg r)) }

/- freereg. A region that is wanted is only unlocked. -/
def freereg (r : Nat) (s : State) : State :=
  if (s.reg r).wanted then
    s.setReg r { s.reg r with lock := false, wanted := false }
  else
    let t := freeTables r (ctos (s.reg r).pgsz) 0 (iput r s)
    unlink r ((giveBack r (s.reg r).pgsz t).uptfree (t.reg r).list (t.reg r).listsz)

/- One page of a page table in dupreg, `true` when the swap use count overflows. -/
def dupPage (ppte cpte : Pt) (j : Nat) (s : State) : Bool × State :=
  let e := { s.pde ppte j with copyw := true }
  let s := { s with pde := change s.pde ppte (change (s.pde ppte) j e) }
  let s := { s with pde := change s.pde cpte (change (s.pde cpte) j e) }
  let s := if e.valid then { s with pfuse := change s.pfuse e.pfn (s.pfuse e.pfn + 1) } else s
  let map := s.dbd ppte j
  if map.type = DBD_SWAP then
    if MAXSUSE ≤ s.swpuse map.swpi map.blkno then
      (true, { s with dbd := change s.dbd cpte (change (s.dbd cpte) j
        { s.dbd cpte j with type := DBD_NONE }) })
    else
      (false, { s with
        swpuse := change s.swpuse map.swpi
          (change (s.swpuse map.swpi) map.blkno (s.swpuse map.swpi map.blkno + 1))
        dbd := change s.dbd cpte (change (s.dbd cpte) j map) })
  else (false, { s with dbd := change s.dbd cpte (change (s.dbd cpte) j map) })

def dupPages (ppte cpte : Pt) : Nat → Nat → State → Bool × State
  | 0, _, s => (false, s)
  | size + 1, j, s =>
    match dupPage ppte cpte j s with
    | (true, s) => (true, s)
    | (false, s) => dupPages ppte cpte size (j + 1) s

/- Where dupreg returns. -/
inductive DupEnd where
  | shared
  | noMemory
  | noRegion
  | noList
  | noTable (i : Nat)
  | overflow
  | done (r2 : Nat)
deriving DecidableEq

/- Memory that is not (any more) a region's. -/
def addAvail (d : Int) (s : State) : State :=
  { s with mem := { s.mem with availsmem := s.mem.availsmem + d } }

/- The loop over the page tables of the parent, from segment `i` on. -/
def dupTables (r r2 : Nat) : Nat → Nat → List (Option Place) → State → DupEnd × State
  | 0, _, _, s => (.done r2, s)
  | k + 1, i, places, s =>
    match s.ptalloc tune 2 places.head?.join with
    | none =>
      let s := freereg r2 (s.setReg r2 { s.reg r2 with pgsz := stoc i })
      (.noTable i, addAvail (s.reg r).pgsz s)
    | some (cpte, s) =>
      let s := s.setReg r2 { s.reg r2 with tables := change (s.reg r2).tables i cpte }
      let size := min ((s.reg r).pgsz - stoc i) NPGPT
      match dupPages ((s.reg r).tables i) cpte size 0 s with
      | (true, s) =>
        let s := freereg r2 s
        (.overflow, addAvail (s.reg r).pgsz s)
      | (false, s) => dupTables r r2 k (i + 1) places.tail s

/- The copy without a list, and with one. -/
def unlisted (p x : Reg) : Reg :=
  { x with listsz := 0, list := NULL, lock := p.lock, wanted := p.wanted, flags := p.flags }

def copied (p : Reg) (list : Pt) (x : Reg) : Reg :=
  { x with
    listsz := p.listsz, list := list, tables := fun _ => NULL
    lock := p.lock, wanted := p.wanted, flags := p.flags
    pgsz := p.pgsz, filesz := p.filesz, nvalid := p.nvalid }

/- dupreg; `places` are for the list and for each page table. -/
def dupreg (r : Nat) (force : Bool) (places : List (Option Place)) (s : State) : DupEnd × State :=
  let p := s.reg r
  if p.type ≠ RT_PRIVATE ∧ force = false then (.shared, s)
  else if s.mem.availsmem - p.pgsz < tune.minasmem then (.noMemory, s)
  else
    let s := addAvail (-p.pgsz) s
    match allocreg p.iptr (if force then RT_PRIVATE else p.type) s with
    | none => (.noRegion, addAvail p.pgsz s)
    | some (r2, s) =>
      match s.ptalloc tune p.listsz places.head?.join with
      | none => (.noList, addAvail p.pgsz (freereg r2 (s.setReg r2 (unlisted p (s.reg r2)))))
      | some (list, s) =>
        dupTables tune r r2 (ctos p.pgsz) 0 places.tail (s.setReg r2 (copied p list (s.reg r2)))

/- The pages of a region from page `nsize` on are freed, from segment `i` on. -/
def shrinkPages (r osize nsize : Nat) : Nat → Nat → State → State
  | 0, _, s => s
  | k + 1, i, s =>
    let from' := nsize - stoc i
    let s := pfree r ((s.reg r).tables i) (min (osize - stoc i) NPGPT - from') from' s
    shrinkPages r osize nsize k (i + 1) s

def shrinkTables (r : Nat) : Nat → Nat → State → State
  | 0, _, s => s
  | k + 1, i, s =>
    let s := s.uptfree ((s.reg r).tables i) 2
    let s := s.setReg r { s.reg r with tables := change (s.reg r).tables i NULL }
    shrinkTables r k (i + 1) s

/- ptexpand for a region that shrinks. -/
def ptshrink (r nsize : Nat) (place : Option Place) (s : State) : State :=
  let osize := (s.reg r).pgsz
  if ctos nsize < ctos osize then
    let s := shrinkTables r (ctos osize - ctos nsize) (ctos nsize) s
    let listsz := ctos (ctos nsize)
    if listsz < (s.reg r).listsz then
      if 0 < nsize then
        match s.ptalloc tune listsz place with
        | none => s
        | some (lp2, s) =>
          let s := s.uptfree (s.reg r).list (s.reg r).listsz
          s.setReg r { s.reg r with list := lp2, listsz := listsz }
      else
        let s := s.uptfree (s.reg r).list (s.reg r).listsz
        s.setReg r { s.reg r with list := NULL, listsz := listsz }
    else s
  else s

/- Where growreg returns. -/
inductive GrowEnd where
  | same
  | noMemory
  | noLocked
  | illegal
  | noSdt
  | noList
  | noTable (i : Nat)
  | changed
deriving DecidableEq

/- The page tables that ptexpand adds, from segment `i` on. -/
def growTables (r : Nat) : Nat → Nat → List (Option Place) → State → GrowEnd × State
  | 0, _, _, s => (.changed, s)
  | k + 1, i, places, s =>
    match s.ptalloc tune 2 places.head?.join with
    | none => (.noTable i, s.setReg r { s.reg r with tables := change (s.reg r).tables i NULL })
    | some (pt, s) =>
      growTables r k (i + 1) places.tail
        (s.setReg r { s.reg r with tables := change (s.reg r).tables i pt })

/- ptexpand for a region that grows. -/
def ptexpand (r nsize : Nat) (places : List (Option Place)) (s : State) : GrowEnd × State :=
  let osize := (s.reg r).pgsz
  let listsz := ctos (ctos nsize)
  if (s.reg r).listsz < listsz then
    match s.ptalloc tune listsz places.head?.join with
    | none => (.noList, s)
    | some (lp2, s) =>
      let tables (i : Nat) : Pt := if (s.reg r).list ≠ NULL ∧ i < ctos osize
        then (s.reg r).tables i else NULL
      let s := if (s.reg r).list ≠ NULL then s.uptfree (s.reg r).list (s.reg r).listsz else s
      let s := s.setReg r { s.reg r with list := lp2, listsz := listsz, tables := tables }
      growTables tune r (ctos nsize - ctos osize) (ctos osize) places.tail s
  else growTables tune r (ctos nsize - ctos osize) (ctos osize) places s

/- chkgrowth; `legal` is whether the region fits where it is, and `nsdt` the size of the segment
table that it needs, in page tables. -/
def chkgrowth (legal : Bool) (nsdt : Nat) (place : Option Place) (s : State) : GrowEnd × State :=
  if legal = false then (.illegal, s)
  else if s.sdtsz < nsdt then
    match s.ptalloc tune nsdt place with
    | none => (.noSdt, s)
    | some (newtop, s) => (.changed, { s.uptfree s.sdt s.sdtsz with sdt := newtop, sdtsz := nsdt })
  else (.changed, s)

/- The new entries are written, from segment `i` on. -/
def fillPages (r osize nsize type : Nat) (pte : Pde) : Nat → Nat → State → State
  | 0, _, s => s
  | k + 1, i, s =>
    let pt := (s.reg r).tables i
    let new (j : Nat) : Bool := osize - stoc i ≤ j ∧ j < min (nsize - stoc i) NPGPT
    fillPages r osize nsize type pte k (i + 1) { s with
      pde := change s.pde pt fun j => if new j then pte else s.pde pt j
      dbd := change s.dbd pt fun j => if new j then { s.dbd pt j with type := type }
        else s.dbd pt j }

/- The end of growreg. -/
def resize (r nsize : Nat) (s : State) : State :=
  let s := { s with psize := s.psize + nsize - (s.reg r).pgsz }
  s.setReg r { s.reg r with pgsz := nsize }

def expand (r d : Nat) (legal : Bool) (nsdt type : Nat) (pte : Pde) (places : List (Option Place))
    (s : State) : GrowEnd × State :=
  let osize := (s.reg r).pgsz
  if s.mem.availsmem - d < tune.minasmem then (.noMemory, s)
  else if (s.reg r).noswapcnt ≠ 0 ∧ s.mem.availrmem - d < tune.minarmem then (.noLocked, s)
  else
    match chkgrowth tune legal nsdt places.head?.join s with
    | (.changed, s) =>
      match ptexpand tune r (osize + d) places.tail s with
      | (.changed, s) =>
        let s := fillPages r osize (osize + d) type pte (ctos (osize + d) - ctost osize)
          (ctost osize) (giveBack r (-d) s)
        (.changed, resize r (osize + d) s)
      | (e, s) => (e, s)
    | (e, s) => (e, s)

def shrink (r d : Nat) (place : Option Place) (s : State) : GrowEnd × State :=
  let osize := (s.reg r).pgsz
  let nsize := osize - d
  let s := shrinkPages r osize nsize (ctos osize - ctost nsize) (ctost nsize) (giveBack r d s)
  let s := ptshrink tune r nsize place s
  (.changed, resize r nsize s)

/- growreg; `places` are for the segment table, the list and each page table. -/
def growreg (r : Nat) (change : Int) (legal : Bool) (nsdt type : Nat) (pte : Pde)
    (places : List (Option Place)) (s : State) : GrowEnd × State :=
  if change = 0 then (.same, s)
  else if change < 0 then shrink tune r (-change).toNat places.head?.join s
  else expand tune r change.toNat legal nsdt type pte places s

/- The calls, and what others do to a region: it is locked or wanted, attached or detached. -/
inductive Op where
  | alloc (ip : Option Nat) (type : Nat)
  | free (r : Nat)
  | dup (r : Nat) (force : Bool) (places : List (Option Place))
  | grow (r : Nat) (change : Int) (legal : Bool) (nsdt type : Nat) (pte : Pde)
      (places : List (Option Place))
  | other (r : Nat) (lock wanted : Bool) (refcnt : Nat)

/- The callers see to it that the region is theirs: it is active and locked, and has the pages that
are taken from it. -/
def step (op : Op) (s : State) : Option State :=
  match op with
  | .alloc ip type =>
    match allocreg ip type s with
    | none => some s
    | some (_, s) => some s
  | .free r =>
    if r ∈ s.ractive ∧ (s.reg r).lock ∧ (s.reg r).refcnt = 0 then some (freereg r s) else none
  | .dup r force places =>
    if r ∈ s.ractive ∧ (s.reg r).lock then some (dupreg tune r force places s).2 else none
  | .grow r change legal nsdt type pte places =>
    if r ∈ s.ractive ∧ (s.reg r).lock ∧ 0 ≤ (s.reg r).pgsz + change then
      some (growreg tune r change legal nsdt type pte places s).2
    else none
  | .other r lock wanted refcnt =>
    if r ∈ s.ractive then
      some (s.setReg r { s.reg r with lock := lock, wanted := wanted, refcnt := refcnt })
    else none

def run : State → List Op → Option State
  | s, [] => some s
  | s, op :: ops => (step tune op s).bind fun s => run s ops

end
end Svr32.Region
