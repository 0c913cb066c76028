import Mathlib.Data.List.Basic

/-! Common IPC routines of io/ipc.c: the permission check and the search for a key. -/
namespace Svr32.Ipc

inductive Errno where
  | eperm
  | enoent
  | eintr
  | e2big
  | eagain
  | eacces
  | efault
  | eexist
  | einval
  | efbig
  | enospc
  | erange
  | enomsg
  | eidrm
deriving DecidableEq, Repr

structure Perm where
  uid : Nat
  gid : Nat
  cuid : Nat
  cgid : Nat
  mode : BitVec 16
  seq : Nat
  key : Int
deriving DecidableEq, Repr

/- u_uid, u_gid and p_pid of the calling process. -/
structure Cred where
  uid : Nat
  gid : Nat
  pid : Int
deriving DecidableEq, Repr

def ipcAlloc : BitVec 16 := 0o100000
def ipcCreat : BitVec 32 := 0o1000
def ipcExcl : BitVec 32 := 0o2000
def ipcNowait : BitVec 16 := 0o4000
def ipcPrivate : Int := 0

def Perm.allocated (p : Perm) : Bool := p.mode &&& ipcAlloc != 0

/-- ipcaccess: true when the access is permitted. -/
def ipcaccess (u : Cred) (p : Perm) (mode : BitVec 16) : Bool :=
  if u.uid = 0 then true
  else
    let mode :=
      if u.uid ≠ p.uid ∧ u.uid ≠ p.cuid then
        let mode := mode >>> 3
        if u.gid ≠ p.gid ∧ u.gid ≠ p.cgid then mode >>> 3 else mode
      else mode
    mode &&& p.mode != 0

/- u.u_uid != uid && u.u_uid != cuid && !suser() -/
def Perm.owns (u : Cred) (p : Perm) : Bool :=
  u.uid == p.uid || u.uid == p.cuid || u.uid == 0

/- The search for a free entry. -/
def ipcgetFree (perm : Nat → Perm) : List Nat → Except Errno Nat
  | [] => .error .enospc
  | i :: is => if (perm i).allocated then ipcgetFree perm is else .ok i

/- The search for a key; `a` is the first free entry so far. -/
def ipcgetKey (key : Int) (flag : BitVec 32) (perm : Nat → Perm) :
    List Nat → Option Nat → Except Errno (Nat × Bool)
  | [], a =>
    if flag &&& ipcCreat = 0 then .error .enoent
    else
      match a with
      | none => .error .enospc
      | some a => .ok (a, true)
  | i :: is, a =>
    if (perm i).allocated then
      if (perm i).key = key then
        if flag &&& (ipcCreat ||| ipcExcl) = (ipcCreat ||| ipcExcl) then .error .eexist
        else if (flag &&& 0o777).setWidth 16 &&& ~~~(perm i).mode ≠ 0 then .error .eacces
        else .ok (i, false)
      else ipcgetKey key flag perm is a
    else ipcgetKey key flag perm is (a.or (some i))

/-- ipcget over the `cnt` entries: the entry, and whether it is new. -/
def ipcget (key : Int) (flag : BitVec 32) (perm : Nat → Perm) (cnt : Nat) :
    Except Errno (Nat × Bool) :=
  if key = ipcPrivate then (ipcgetFree perm (List.range cnt)).map fun i => (i, true)
  else ipcgetKey key flag perm (List.range cnt) none

/- What ipcget writes into a new entry. -/
def ipcinit (u : Cred) (key : Int) (flag : BitVec 32) (p : Perm) : Perm :=
  { p with
    mode := ipcAlloc ||| (flag &&& 0o777).setWidth 16
    key := key
    cuid := u.uid
    uid := u.uid
    cgid := u.gid
    gid := u.gid }

theorem or_and_self (a x : BitVec 16) : (a ||| x) &&& a = a := by
  apply BitVec.eq_of_getLsbD_eq
  intro i _
  simp only [BitVec.getLsbD_and, BitVec.getLsbD_or]
  cases a.getLsbD i <;> simp

theorem ipcinit_allocated (u : Cred) (key : Int) (flag : BitVec 32) (p : Perm) :
    (ipcinit u key flag p).allocated = true := by
  simp only [Perm.allocated, ipcinit, or_and_self]
  decide

theorem ipcgetFree_spec {perm : Nat → Perm} {l : List Nat} {i : Nat}
    (h : ipcgetFree perm l = .ok i) : i ∈ l ∧ (perm i).allocated = false := by
  induction l with
  | nil => cases h
  | cons j l ih =>
    simp only [ipcgetFree] at h
    split at h
    · exact ⟨List.mem_cons_of_mem j (ih h).1, (ih h).2⟩
    · rename_i hj
      cases h
      exact ⟨List.mem_cons_self, by simpa using hj⟩

theorem ipcgetKey_spec {key : Int} {flag : BitVec 32} {perm : Nat → Perm} {l : List Nat}
    {a : Option Nat} {i : Nat} {new : Bool} (h : ipcgetKey key flag perm l a = .ok (i, new)) :
    (i ∈ l ∨ a = some i) ∧
      ((∀ j, a = some j → (perm j).allocated = false) → (perm i).allocated = !new) := by
  induction l generalizing a with
  | nil =>
    simp only [ipcgetKey] at h
    split at h
    · cases h
    · cases a with
      | none => cases h
      | some b =>
        cases h
        exact ⟨.inr rfl, fun ha => ha i rfl⟩
  | cons j l ih =>
    simp only [ipcgetKey] at h
    split at h
    · split at h
      · split at h
        · cases h
        · split at h
          · cases h
          · cases h
            exact ⟨.inl (by simp), fun _ => by assumption⟩
      · obtain ⟨hm, hi⟩ := ih h
        exact ⟨hm.imp_left (List.mem_cons_of_mem j), hi⟩
    · obtain ⟨hm, hi⟩ := ih h
      have hj : (perm j).allocated = false := by simpa using ‹¬ (perm j).allocated = true›
      cases a with
      | none =>
        refine ⟨.inl ?_, fun _ => hi fun b hb => ?_⟩
        · cases hm with
          | inl hm => exact List.mem_cons_of_mem j hm
          | inr hm =>
            cases hm
            exact List.mem_cons_self
        · cases hb
          exact hj
      | some a => exact ⟨hm.imp_left (List.mem_cons_of_mem j), hi⟩

/-- ipcget names an entry of the table, free when it is new and taken otherwise. -/
theorem ipcget_spec {key : Int} {flag : BitVec 32} {perm : Nat → Perm} {cnt i : Nat} {new : Bool}
    (h : ipcget key flag perm cnt = .ok (i, new)) : i < cnt ∧ (perm i).allocated = !new := by
  simp only [ipcget] at h
  split at h
  · cases hf : ipcgetFree perm (List.range cnt) with
    | error e =>
      rw [hf] at h
      cases h
    | ok j =>
      rw [hf] at h
      cases h
      obtain ⟨hm, hi⟩ := ipcgetFree_spec hf
      exact ⟨List.mem_range.mp hm, hi⟩
  · obtain ⟨hm, hi⟩ := ipcgetKey_spec h
    exact ⟨List.mem_range.mp (hm.resolve_right nofun), hi nofun⟩

end Svr32.Ipc
