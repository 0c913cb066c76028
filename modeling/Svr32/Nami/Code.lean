import Mathlib.Logic.Function.Basic
import Mathlib.Tactic.Set

/-! s5namei of fs/s5/s5nami.c, with s5ialloc, s5ifree, s5iput, s5iupdat and s5writei as far as it
uses them. What other parts of the kernel and the disk decide in a call is given with the call. -/
namespace Svr32.Nami

def DIRSIZ : Nat := 14
def MAXLINK : Int := 1000
def IFMT : BitVec 16 := 0xF000
def IFDIR : BitVec 16 := 0x4000
def IFREG : BitVec 16 := 0x8000
def ISVTX : BitVec 16 := 0x200
def MODEMSK : BitVec 16 := 0xFFF
def PERMMSK : BitVec 16 := 0x1FF

inductive Errno
  | EPERM | ENOENT | EIO | EACCES | EBUSY | EEXIST | EXDEV | ENOTDIR | EINVAL | ENFILE | ETXTBSY
  | ENOSPC | EROFS | EMLINK
deriving DecidableEq, Repr
open Errno ( EIO)

/- An entry of a directory: `d_ino` is 0 in an empty one. A name ends before its first NUL. -/
structure Direct where
  ino : Nat
  name : List Nat
deriving DecidableEq, Repr

def Direct.empty : Direct := ⟨0, []⟩

/- An inode: `size` is counted in entries. -/
structure Inode where
  mode : BitVec 16
  nlink : Int
  size : Nat
deriving DecidableEq, Repr

def Inode.ftype (x : Inode) : BitVec 16 := x.mode &&& IFMT

/- A file system: how many entries a block holds, its device, and how many inodes there are. -/
structure Mount where
  epb : Nat
  epb_pos : 0 < epb
  dev : Nat
  ninode : Nat

/- `core` is the inode as iget gives it, from the inode table or, once its place there has been
taken, from the disk; `count` is i_count; `dir` is the data of the directories; `err` is
u.u_error. -/
structure State where
  core : Nat → Inode
  disk : Nat → Inode
  count : Nat → Int
  dir : Nat → Nat → Direct
  err : Option Errno

def State.error (e : Errno) (s : State) : State := { s with err := some e }

def State.setInode (i : Nat) (x : Inode) (s : State) : State :=
  { s with core := Function.update s.core i x }

def State.setNlink (i : Nat) (n : Int) (s : State) : State :=
  s.setInode i { s.core i with nlink := n }

def State.setCount (i : Nat) (c : Int) (s : State) : State :=
  { s with count := Function.update s.count i c }

/- The write of one directory entry: done, refused before anything has been changed, or lost on its
way to the disk. -/
inductive Wr
  | done
  | refused
  | lost
deriving DecidableEq, Repr

/- What is decided elsewhere in a call: the blocks of a directory that cannot be read, the outcome
of writing one, the inodes whose block on disk fails, s5access(dp, IWRITE), whether the sticky bit
keeps the entry, the failure of iget and whether it crosses a mount point, the inode that s5ialloc
finds, whether the text is busy, suser(), dip == u.u_cdir, and u.u_cmask. -/
structure Env where
  rd : Nat → Nat → Bool
  wr : Nat → Wr
  upd : Nat → Bool
  access : Option Errno
  sticky : Bool
  iget : Option Errno
  mounted : Bool
  alloc : Except Errno Nat
  busy : Bool
  suser : Bool
  cdir : Bool
  cmask : BitVec 16

inductive Cmd
  | del | creat | xcreat | link | mkdir | rmdir | mknod
deriving DecidableEq, Repr

structure Argnamei where
  cmd : Cmd
  ino : Nat
  mode : BitVec 16
  ftype : BitVec 16
  idev : Nat

/- NI_FAIL, NI_NULL, NI_DONE with FSN_FOUND or FSN_NOTFOUND, or NI_PASS with the inode found. -/
inductive Ret
  | fail
  | null
  | found
  | made (ino : Nat)
  | pass (ino : Nat)
deriving DecidableEq, Repr

/- s5iupdat -/
def s5iupdat (bad : Bool) (i : Nat) (s : State) : State :=
  if bad then s.error EIO else { s with disk := Function.update s.disk i (s.core i) }

/- s5itrunc: the blocks are freed, and those that a directory gets later are cleared. -/
def s5itrunc (bad : Bool) (i : Nat) (s : State) : State :=
  if (s.core i).ftype ≠ IFREG ∧ (s.core i).ftype ≠ IFDIR then s
  else s5iupdat bad i
    { s.setInode i { s.core i with size := 0 } with
      dir := Function.update s.dir i fun _ => .empty }

/- s5ifree: don't put an already free inode on the free list. -/
def s5ifree (bad : Bool) (i : Nat) (s : State) : State :=
  if (s.core i).mode = 0 then s
  else s5iupdat bad i (s.setInode i { s.core i with mode := 0 })

/- s5iput: an inode that has not changed may be written with what it holds. -/
def s5iput (bad : Bool) (i : Nat) (s : State) : State :=
  s5iupdat bad i (if (s.core i).nlink ≤ 0 then s5ifree bad i (s5itrunc bad i s) else s)

/- iput: on the last reference, write the inode out. -/
def iput (bad : Bool) (i : Nat) (s : State) : State :=
  if s.count i = 1 then (s5iput bad i s).setCount i 0 else s.setCount i (s.count i - 1)

/- iget of an inode that is not mounted on. -/
def iget (i : Nat) (s : State) : State := s.setCount i (s.count i + 1)

/- s5ialloc, once it has found the free inode `i`. -/
def s5ialloc (bad : Bool) (i : Nat) (mode : BitVec 16) (nlink : Int) (s : State) : State :=
  s5iupdat bad i
    { (iget i s).setInode i ⟨mode, nlink, 0⟩ with
      dir := Function.update s.dir i fun _ => .empty }

/- s5writei of entries of a directory that lie in one block. A delayed write is not lost. -/
def s5writei (fsync : Bool) (wr : Wr) (d off : Nat) (es : List Direct) (s : State) : State :=
  let grown := s.setInode d { s.core d with size := max (s.core d).size (off + es.length) }
  let put := { grown with
    dir := Function.update s.dir d fun k =>
      if off ≤ k then (es[k - off]?).getD (s.dir d k) else s.dir d k }
  if s.err.isSome then s
  else match wr with
    | .done => put
    | .refused => s.error EIO
    | .lost => if fsync then grown.error EIO else put

/- searchdir of ml/misc.s, over the entries of one block: a match, or the first empty entry. -/
def searchdir (name : List Nat) (f : Nat → Direct) : Nat → Nat → Option Nat → Option Nat
  | 0, _, slot => slot
  | n + 1, k, slot =>
    if (f k).ino = 0 then searchdir name f n (k + 1) (slot.or (some k))
    else if (f k).name = name then some k
    else searchdir name f n (k + 1) slot

/- What the search of a directory ends with: an error, the entry, or the first empty one. -/
inductive Found
  | failed
  | hit (off : Nat)
  | none (eo : Option Nat)
deriving DecidableEq, Repr

variable (m : Mount) (env : Env)

/- The loop over the blocks of the directory. -/
def search (bad : Nat → Bool) (name : List Nat) (f : Nat → Direct) :
    Nat → Nat → Nat → Option Nat → Found
  | 0, _, _, eo => .none eo
  | fuel + 1, off, count, eo =>
    let pbsize := min count (m.epb - off % m.epb)
    if count = 0 then .none eo
    else if bad (off / m.epb) then .failed
    else match searchdir name f pbsize off none with
      | some i =>
        if (f i).ino ≠ 0 then .hit i
        else search bad name f fuel (off + pbsize) (count - pbsize) (eo.or (some i))
      | none => search bad name f fuel (off + pbsize) (count - pbsize) eo

/- emptblk: none if there is an entry besides . and .., else which of the two are present. -/
def emptblk (f : Nat → Direct) : Nat → Nat → Bool × Bool → Option (Bool × Bool)
  | 0, _, flag => some flag
  | n + 1, k, flag =>
    if (f k).ino = 0 then emptblk f n (k + 1) flag
    else if (f k).name = [46] then emptblk f n (k + 1) (true, flag.2)
    else if (f k).name = [46, 46] then emptblk f n (k + 1) (flag.1, true)
    else none

/- The check of NI_RMDIR that the directory is empty. -/
def empty (bad : Nat → Bool) (f : Nat → Direct) :
    Nat → Nat → Nat → Bool × Bool → Except Errno (Bool × Bool)
  | 0, _, _, dotflag => .ok dotflag
  | fuel + 1, off, count, dotflag =>
    let pbsize := min count (m.epb - off % m.epb)
    if count = 0 then .ok dotflag
    else if bad (off / m.epb) then .error EIO
    else match emptblk f pbsize off (false, false) with
      | some emptflags =>
        empty bad f fuel (off + pbsize) (count - pbsize)
          (dotflag.1 || emptflags.1, dotflag.2 || emptflags.2)
      | none => .error .EEXIST

/- goto fail, with the error that goes with it. -/
def fail (dp : Nat) (s : State) : Ret × State := (.fail, iput (env.upd dp) dp s)

/- NI_LINK, of a name that is not there yet. -/
def niLink (dp off : Nat) (name : List Nat) (flagp : Argnamei) (s : State) : Ret × State :=
  match env.access with
  | some e => fail env dp (s.error e)
  | none =>
    if m.dev ≠ flagp.idev then fail env dp (s.error .EXDEV)
    else if flagp.ino ≠ dp ∧ env.iget.isSome then fail env dp (s.error .ENOENT)
    else
      let dip := flagp.ino
      let s := if dip = dp then s else iget dip s
      if MAXLINK ≤ (s.core dip).nlink then
        fail env dp ((iput (env.upd dip) dip s).error .EMLINK)
      else
        let s := s5iupdat (env.upd dip) dip (s.setNlink dip ((s.core dip).nlink + 1))
        let s := s5writei false (env.wr dp) dp off [⟨dip, name⟩] s
        let s := if s.err.isSome then s.setNlink dip ((s.core dip).nlink - 1) else s
        let s := if dip ≠ dp then iput (env.upd dip) dip s else s
        (.null, iput (env.upd dp) dp s)

/- The mode of a new file. -/
def newMode (cmd : Cmd) (mode ftype : BitVec 16) : BitVec 16 :=
  let mode := mode &&& MODEMSK &&& ~~~env.cmask
  (if cmd ≠ .mknod then mode &&& ~~~ISVTX else mode) ||| ftype

/- NI_CREAT, NI_XCREAT and NI_MKNOD, of a name that is not there yet. -/
def niCreat (dp off : Nat) (name : List Nat) (flagp : Argnamei) (s : State) : Ret × State :=
  match env.access with
  | some e => fail env dp (s.error e)
  | none =>
    if flagp.ftype &&& ~~~IFMT ≠ 0 then fail env dp (s.error .EINVAL)
    else
      let ftype := if flagp.ftype = 0 then IFREG else flagp.ftype
      match env.alloc with
      | .error e => fail env dp (s.error e)
      | .ok dip =>
        let s := s5ialloc (env.upd dip) dip (newMode env flagp.cmd flagp.mode ftype) 1 s
        let s := s5writei false (env.wr dp) dp off [⟨dip, name⟩] s
        let s := iput (env.upd dp) dp s
        if s.err.isSome then fail env dip s else (.made dip, s)

/- NI_CREAT of a name that is there. -/
def niOpen (dp ino : Nat) (s : State) : Ret × State :=
  let s := iput (env.upd dp) dp s
  match env.iget with
  | some e => (.fail, s.error e)
  | none => (.found, if env.mounted then s else iget ino s)

/- NI_MKDIR, of a name that is not there yet. -/
def niMkdir (dp off : Nat) (name : List Nat) (flagp : Argnamei) (s : State) : Ret × State :=
  if MAXLINK ≤ (s.core dp).nlink then fail env dp (s.error .EMLINK)
  else match env.access with
    | some e => fail env dp (s.error e)
    | none =>
      match env.alloc with
      | .error e => fail env dp (s.error e)
      | .ok dip =>
        let mode := (flagp.mode &&& PERMMSK &&& ~~~env.cmask) ||| IFDIR
        let s := s5ialloc (env.upd dip) dip mode 2 s
        let s := s5writei true (env.wr dip) dip 0 [⟨dip, [46]⟩, ⟨dp, [46, 46]⟩] s
        if s.err.isSome then fail env dp (iput (env.upd dip) dip (s.setNlink dip 0))
        else
          let s := s5writei true (env.wr dp) dp off [⟨dip, name⟩] s
          if s.err.isSome then fail env dp (iput (env.upd dip) dip (s.setNlink dip 0))
          else
            let s := iput (env.upd dp) dp (s.setNlink dp ((s.core dp).nlink + 1))
            (.null, iput (env.upd dip) dip s)

/- NI_RMDIR, of the entry `off`. -/
def niRmdir (dp off : Nat) (s : State) : Ret × State :=
  let dip := (s.dir dp off).ino
  let name := (s.dir dp off).name
  match env.access with
  | some e => fail env dp (s.error e)
  | none =>
    if dp = dip then fail env dp (s.error .EINVAL)
    else match env.iget with
      | some e => fail env dp (s.error e)
      | none =>
        if env.mounted then fail env dp (s.error .EBUSY)
        else
          let s := iget dip s
          let back := fun e => fail env dp (iput (env.upd dip) dip (s.error e))
          if (s.core dip).ftype ≠ IFDIR then back .ENOTDIR
          else if env.cdir then back .EINVAL
          else if env.sticky then back .EACCES
          else match empty m (env.rd dip) (s.dir dip) (s.core dip).size 0 (s.core dip).size
              (false, false) with
            | .error e => back e
            | .ok dotflag =>
              let s := s5writei true (env.wr dp) dp off [⟨0, name⟩] s
              if s.err.isSome then fail env dp (iput (env.upd dip) dip s)
              else
                let s := if dotflag.2 then s.setNlink dp ((s.core dp).nlink - 1) else s
                let s := iput (env.upd dp) dp s
                let s := s.setNlink dip ((s.core dip).nlink - if dotflag.1 then 2 else 1)
                (.null, iput (env.upd dip) dip s)

/- NI_DEL, of the entry `off`. -/
def niDel (dp off : Nat) (s : State) : Ret × State :=
  let dip := (s.dir dp off).ino
  let name := (s.dir dp off).name
  match env.access with
  | some e => fail env dp (s.error e)
  | none =>
    if dip ≠ dp ∧ env.iget.isSome then fail env dp { s with err := env.iget }
    else if dip ≠ dp ∧ env.mounted then
      fail env dp (s.error (if env.sticky then .EACCES else .EBUSY))
    else
      let s := if dip = dp then s else iget dip s
      if env.sticky then fail env dp (iput (env.upd dip) dip (s.error .EACCES))
      else
        let s :=
          if (s.core dip).ftype = IFDIR ∧ env.suser = false then s.error .EPERM
          else if env.busy ∧ (s.core dip).nlink = 1 then s.error .ETXTBSY
          else
            let s := s5writei true (env.wr dp) dp off [⟨0, name⟩] s
            if s.err.isSome then s else s.setNlink dip ((s.core dip).nlink - 1)
        -- if unlinking ".", avoid doing iput twice
        let s := if dip ≠ dp then iput (env.upd dip) dip s else s
        if s.err.isSome then fail env dp s else (.null, iput (env.upd dp) dp s)

/- s5namei, of the locked directory `dp`. -/
def s5namei (dp : Nat) (comp : List Nat) (flagp : Option Argnamei) (s : State) : Ret × State :=
  if comp = [] then
    match flagp with
    | some a =>
      if a.cmd = .rmdir ∨ a.cmd = .del then fail env dp (s.error .EBUSY) else (.pass dp, s)
    | none => (.pass dp, s)
  else
    let name := comp.take DIRSIZ
    let size := (s.core dp).size
    match search m (env.rd dp) name (s.dir dp) size 0 size none, flagp with
    | .failed, _ => fail env dp (s.error EIO)
    | .hit off, none => (.pass (s.dir dp off).ino, s)
    | .none _, none => fail env dp (s.error .ENOENT)
    | .hit off, some a =>
      match a.cmd with
      | .link | .mknod | .xcreat | .mkdir => fail env dp (s.error .EEXIST)
      | .creat => niOpen env dp (s.dir dp off).ino s
      | .rmdir => niRmdir m env dp off s
      | .del => niDel env dp off s
    | .none eo, some a =>
      let off := eo.getD size
      match a.cmd with
      | .link => niLink m env dp off name a s
      | .mknod | .xcreat | .creat => niCreat env dp off name a s
      | .mkdir => niMkdir env dp off name a s
      | .rmdir | .del => fail env dp (s.error .ENOENT)

end Svr32.Nami

/-! The search of a directory for a name, and the check that it is empty. -/
namespace Svr32.Nami
variable {m : Mount} {f : Nat → Direct} {bad : Nat → Bool} {name : List Nat}

theorem searchdir_spec (name : List Nat) (f : Nat → Direct) (n k : Nat) (slot : Option Nat) :
    (∃ i, searchdir name f n k slot = some i ∧ k ≤ i ∧ i < k + n ∧ (f i).ino ≠ 0 ∧
      (f i).name = name) ∨
    (∀ j, k ≤ j → j < k + n → (f j).ino ≠ 0 → (f j).name ≠ name) ∧
      (searchdir name f n k slot = slot ∨ ∃ i, searchdir name f n k slot = some i ∧ k ≤ i ∧
        i < k + n ∧ (f i).ino = 0) := by
  induction n generalizing k slot with
  | zero => exact .inr ⟨fun j h1 h2 => by omega, .inl rfl⟩
  | succ n ih =>
    rw [searchdir]
    split
    · rename_i hk
      rcases ih (k + 1) (slot.or (some k)) with ⟨i, h1, h2, h3, h4⟩ | ⟨h1, h2⟩
      · exact .inl ⟨i, h1, by omega, by omega, h4⟩
      · refine .inr ⟨fun j hj1 hj2 hj => ?_, ?_⟩
        · by_cases hjk : j = k
          · exact absurd (hjk ▸ hk) hj
          · exact h1 j (by omega) (by omega) hj
        · rcases h2 with h2 | ⟨i, h2, h3, h4, h5⟩
          · rw [h2]
            cases slot with
            | none => exact .inr ⟨k, rfl, Nat.le_refl k, by omega, hk⟩
            | some i => exact .inl rfl
          · exact .inr ⟨i, h2, by omega, by omega, h5⟩
    · rename_i hk
      split
      · rename_i hname
        exact .inl ⟨k, rfl, Nat.le_refl k, by omega, hk, hname⟩
      · rename_i hname
        rcases ih (k + 1) slot with ⟨i, h1, h2, h3, h4⟩ | ⟨h1, h2⟩
        · exact .inl ⟨i, h1, by omega, by omega, h4⟩
        · refine .inr ⟨fun j hj1 hj2 hj => ?_, ?_⟩
          · by_cases hjk : j = k
            · exact hjk ▸ hname
            · exact h1 j (by omega) (by omega) hj
          · rcases h2 with h2 | ⟨i, h2, h3, h4, h5⟩
            · exact .inl h2
            · exact .inr ⟨i, h2, by omega, by omega, h5⟩

/- What the search says of the entries from `off` on. -/
def Tells (name : List Nat) (f : Nat → Direct) (off count : Nat) (eo : Option Nat) : Found → Prop
  | .failed => True
  | .hit i => i < off + count ∧ (f i).ino ≠ 0 ∧ (f i).name = name
  | .none eo' => (∀ j, off ≤ j → j < off + count → (f j).ino ≠ 0 → (f j).name ≠ name) ∧
      (eo' = eo ∨ ∃ i, eo' = some i ∧ i < off + count ∧ (f i).ino = 0)

/-- The part of a directory in one block. -/
theorem pbsize_spec (m : Mount) (off : Nat) {count : Nat} (h : count ≠ 0) :
    0 < min count (m.epb - off % m.epb) ∧ min count (m.epb - off % m.epb) ≤ count := by
  have := Nat.mod_lt off m.epb_pos
  omega

theorem search_spec {fuel off count : Nat} {eo : Option Nat} (h : count ≤ fuel) :
    Tells name f off count eo (search m bad name f fuel off count eo) := by
  induction fuel generalizing off count eo with
  | zero => exact ⟨fun j h1 h2 => by omega, .inl rfl⟩
  | succ fuel ih =>
    rw [search]
    split
    · exact ⟨fun j h1 h2 => by omega, .inl rfl⟩
    · rename_i hcount
      obtain ⟨hpos, hle⟩ := pbsize_spec m off hcount
      set n := min count (m.epb - off % m.epb)
      -- what is said of the later blocks and of this one
      have hrest : ∀ eo', (∀ j, off ≤ j → j < off + n → (f j).ino ≠ 0 → (f j).name ≠ name) →
          (eo' = eo ∨ ∃ i, eo' = some i ∧ i < off + n ∧ (f i).ino = 0) →
          Tells name f off count eo (search m bad name f fuel (off + n) (count - n) eo') := by
        intro eo' hno heo
        have hr := @ih (off + n) (count - n) eo' (by omega)
        cases hs : search m bad name f fuel (off + n) (count - n) eo' with
        | failed => trivial
        | hit i =>
          rw [hs] at hr
          exact ⟨by have := hr.1; omega, hr.2⟩
        | none eo₂ =>
          rw [hs] at hr
          refine ⟨fun j h1 h2 => ?_, ?_⟩
          · by_cases hj : j < off + n
            · exact hno j h1 hj
            · exact hr.1 j (by omega) (by omega)
          · rcases hr.2 with h2 | ⟨i, h2, h3, h4⟩
            · rw [h2]
              rcases heo with h5 | ⟨i, h5, h6, h7⟩
              · exact .inl h5
              · exact .inr ⟨i, h5, by omega, h7⟩
            · exact .inr ⟨i, h2, by omega, h4⟩
      split
      · trivial
      · have hd := searchdir_spec name f n off none
        split
        · rename_i i hi
          rw [hi] at hd
          split
          · rename_i hino
            rcases hd with ⟨j, hj, -, h3, h4⟩ | ⟨-, h2 | ⟨j, hj, -, -, h5⟩⟩
            · cases hj
              exact ⟨by omega, h4⟩
            · cases h2
            · cases hj
              exact absurd h5 hino
          · rename_i hino
            rcases hd with ⟨j, hj, -, -, h4, -⟩ | ⟨h1, h2 | ⟨j, hj, -, h4, h5⟩⟩
            · cases hj
              exact absurd h4 hino
            · cases h2
            · cases hj
              refine hrest _ h1 ?_
              cases eo with
              | none => exact .inr ⟨i, rfl, h4, h5⟩
              | some k => exact .inl rfl
        · rename_i hi
          rw [hi] at hd
          rcases hd with ⟨j, hj, -⟩ | ⟨h1, -⟩
          · cases hj
          · exact hrest _ h1 (.inl rfl)

/- An entry of the name from `off` on. -/
def Present (name : List Nat) (f : Nat → Direct) (off n : Nat) : Prop :=
  ∃ j, off ≤ j ∧ j < off + n ∧ (f j).ino ≠ 0 ∧ (f j).name = name

/- There is no other entry than . and .., and `flag` says which of them there are. -/
def Dots (f : Nat → Direct) (off n : Nat) (old flag : Bool × Bool) : Prop :=
  (∀ j, off ≤ j → j < off + n → (f j).ino ≠ 0 → (f j).name = [46] ∨ (f j).name = [46, 46]) ∧
    (flag.1 = true ↔ old.1 = true ∨ Present [46] f off n) ∧
    (flag.2 = true ↔ old.2 = true ∨ Present [46, 46] f off n)

theorem Dots.nil (off : Nat) (old : Bool × Bool) : Dots f off 0 old old := by
  have hno : ∀ name, ¬ Present name f off 0 := by
    rintro name ⟨j, h1, h2, -⟩
    omega
  exact ⟨fun j h1 h2 => by omega, (or_iff_left (hno _)).symm, (or_iff_left (hno _)).symm⟩

theorem present_append {off a b : Nat} :
    Present name f off (a + b) ↔ Present name f off a ∨ Present name f (off + a) b := by
  constructor
  · rintro ⟨j, h1, h2, h3⟩
    by_cases hj : j < off + a
    · exact .inl ⟨j, h1, hj, h3⟩
    · exact .inr ⟨j, by omega, by omega, h3⟩
  · rintro (⟨j, h1, h2, h3⟩ | ⟨j, h1, h2, h3⟩)
    · exact ⟨j, h1, by omega, h3⟩
    · exact ⟨j, by omega, by omega, h3⟩

theorem Dots.append {off a b : Nat} {old mid flag : Bool × Bool} (h : Dots f off a old mid)
    (h' : Dots f (off + a) b mid flag) : Dots f off (a + b) old flag := by
  refine ⟨fun j h1 h2 => ?_, ?_, ?_⟩
  · by_cases hj : j < off + a
    · exact h.1 j h1 hj
    · exact h'.1 j (by omega) (by omega)
  · rw [h'.2.1, h.2.1, present_append, or_assoc]
  · rw [h'.2.2, h.2.2, present_append, or_assoc]

end Svr32.Nami
