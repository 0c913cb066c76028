import Svr32.Semaphore.Semop
import Svr32.Semaphore.UndoInv

/-! semctl, semget, semexit and seminit of io/sem.c. -/
namespace Svr32.Semaphore
open Svr32.Lib Svr32.Ipc

/- The commands of semctl with their arguments; a copy from user space brings something or
   fails, a copy to user space succeeds or fails. -/
inductive Ctl where
  | ipcRmid
  | ipcSet (ds : Option Perm)
  | ipcStat (copied : Bool)
  | getncnt (semnum : Nat)
  | getpid (semnum : Nat)
  | getval (semnum : Nat)
  | getall (copied : Bool)
  | getzcnt (semnum : Nat)
  | setval (semnum : Nat) (arg : Int)
  | setall (semvals : Option (Nat → Int))
  | other

/- What a call hands back: u_error, u_rval1, or what it has copied out. -/
inductive Reply where
  | err (e : Errno)
  | rval (n : Int)
  | stat (ds : SemidDs)
  | semvals (l : List Int)
deriving DecidableEq, Repr

/- Removing one semaphore. -/
def rmidSem (i : Int) (k : Tables) : Tables :=
  ((k.setSem i { k.sem i with semval := 0, sempid := 0 }).wake (.ncnt i)).wake (.zcnt i)

/- Setting one semval: whoever waits for it is woken. -/
def setSemval (i v : Int) (k : Tables) : Tables :=
  let k := k.setVal i v
  if v ≠ 0 then k.wake (.ncnt i) else k.wake (.zcnt i)

def setSempid (i pid : Int) (k : Tables) : Tables :=
  k.setSem i { k.sem i with sempid := i16 pid }

/- for (i = n, p = sem_base; i--; p++) -/
def forSems (f : Nat → Int → Tables → Tables) (base : Nat) : Nat → Tables → Tables
  | 0, k => k
  | n + 1, k => f n (base + n : Int) (forSems f base n k)

/- IPC_RMID. -/
def semctlRmid (info : Seminfo) (semid : Int) (s : Nat) (k : Tables) : Option (Tables × Reply) :=
  let sp := k.sema s
  let k := { k with undo := semunrm info semid 0 sp.semNsems k.undo }
  let k := forSems (fun _ => rmidSem) sp.semBase sp.semNsems k
  (Malloc.mfree k.semmap sp.semNsems (sp.semBase + 1)).map fun r =>
    let seq := if i32 (semid + info.semmni) < 0 then 0 else (sp.perm.seq + 1) % 2 ^ 16
    ({ k with
        semmap := r.map
        sema := Function.update k.sema s { sp with perm := { sp.perm with seq := seq, mode := 0 } } },
      .rval 0)

/- The read of a field of one semaphore. -/
def semctlGet (u : Cred) (sp : SemidDs) (semnum : Nat) (field : Sem → Int) (k : Tables) : Reply :=
  if ipcaccess u sp.perm semR = false then .err .eacces
  else if semnum ≥ sp.semNsems then .err .einval
  else .rval (field (k.sem (sp.semBase + semnum)))

def semctlSetval (info : Seminfo) (u : Cred) (semid : Int) (s semnum : Nat) (arg : Int)
    (k : Tables) : Tables × Reply :=
  let sp := k.sema s
  if ipcaccess u sp.perm semA = false then (k, .err .eacces)
  else if semnum ≥ sp.semNsems then (k, .err .einval)
  else if arg % 2 ^ 32 > info.semvmx then (k, .err .erange)
  else
    let i := (sp.semBase + semnum : Int)
    let k := setSempid i u.pid (setSemval i (u16 arg) k)
    ({ k with undo := semunrm info semid semnum semnum k.undo }, .rval 0)

def semctlSetall (info : Seminfo) (u : Cred) (semid : Int) (s : Nat)
    (semvals : Option (Nat → Int)) (k : Tables) : Tables × Reply :=
  let sp := k.sema s
  if ipcaccess u sp.perm semA = false then (k, .err .eacces)
  else
    match semvals with
    | none => (k, .err .efault)
    | some v =>
      if ∃ n < sp.semNsems, u16 (v n) > info.semvmx then (k, .err .erange)
      else
        let k := { k with undo := semunrm info semid 0 sp.semNsems k.undo }
        (forSems (fun n i k => setSempid i u.pid (setSemval i (u16 (v n)) k)) sp.semBase
          sp.semNsems k, .rval 0)

/-- semctl(semid, semnum, cmd, arg); `none` when mfree runs off the map. -/
def semctl (info : Seminfo) (u : Cred) (semid : Int) (cmd : Ctl) (k : Tables) :
    Option (Tables × Reply) :=
  match semconv info semid k with
  | none => some (k, .err .einval)
  | some s =>
    let sp := k.sema s
    match cmd with
    | .ipcRmid =>
      if sp.perm.owns u = false then some (k, .err .eperm) else semctlRmid info semid s k
    | .ipcSet ds =>
      if sp.perm.owns u = false then some (k, .err .eperm)
      else
        match ds with
        | none => some (k, .err .efault)
        | some d =>
          let perm := { sp.perm with
            uid := d.uid, gid := d.gid, mode := (d.mode &&& 0o777) ||| ipcAlloc }
          some ({ k with sema := Function.update k.sema s { sp with perm := perm } }, .rval 0)
    | .ipcStat copied =>
      some (k, if ipcaccess u sp.perm semR = false then .err .eacces
        else if copied then .stat sp else .err .efault)
    | .getncnt semnum => some (k, semctlGet u sp semnum Sem.semncnt k)
    | .getpid semnum => some (k, semctlGet u sp semnum Sem.sempid k)
    | .getval semnum => some (k, semctlGet u sp semnum Sem.semval k)
    | .getall copied =>
      some (k, if ipcaccess u sp.perm semR = false then .err .eacces
        else if copied then
          .semvals ((List.range sp.semNsems).map fun n => (k.sem (sp.semBase + n)).semval)
        else .err .efault)
    | .getzcnt semnum => some (k, semctlGet u sp semnum Sem.semzcnt k)
    | .setval semnum arg => some (semctlSetval info u semid s semnum arg k)
    | .setall semvals => some (semctlSetall info u semid s semvals k)
    | .other => some (k, .err .einval)

/-- semget(key, nsems, semflg); `none` when malloc runs off the map. -/
def semget (info : Seminfo) (u : Cred) (key nsems : Int) (semflg : BitVec 32) (k : Tables) :
    Option (Tables × Reply) :=
  match ipcget key semflg (fun i => (k.sema i).perm) info.semmni with
  | .error e => some (k, .err e)
  | .ok (s, false) =>
    if nsems ≠ 0 ∧ ((k.sema s).semNsems : Int) < nsems then some (k, .err .einval)
    else some (k, .rval ((k.sema s).perm.seq * info.semmni + s))
  | .ok (s, true) =>
    let perm := ipcinit u key semflg (k.sema s).perm
    let set (sp : SemidDs) (k : Tables) := { k with sema := Function.update k.sema s sp }
    if nsems ≤ 0 ∨ nsems > info.semmsl then
      some (set { k.sema s with perm := { perm with mode := 0 } } k, .err .einval)
    else
      (Malloc.malloc k.semmap nsems.toNat).map fun r =>
        let k := { k with semmap := r.2 }
        if r.1 = 0 then
          (set { k.sema s with perm := { perm with mode := 0 } } k, .err .enospc)
        else
          (set ⟨perm, r.1 - 1, nsems.toNat⟩ k, .rval (perm.seq * info.semmni + s))

/- One entry of semexit. -/
def semexitEnt (info : Seminfo) (e : Undo) (k : Tables) : Tables :=
  match semconv info e.unId k with
  | none => k
  | some s =>
    let i := (k.sema s).semBase + e.unNum
    let v := (k.sem i).semval + e.unAoe
    if v < 0 ∨ v > info.semvmx then k
    else
      let k := k.setVal i v
      let k := if v = 0 then k.wake (.zcnt i) else k
      if e.unAoe > 0 then k.wake (.ncnt i) else k

/-- semexit in the process `p`: its adjustments, the last one first. -/
def semexit (info : Seminfo) (p : Nat) (k : Tables) : Tables :=
  match k.undo.semUndo p with
  | none => k
  | some up =>
    if k.undo.ent up = [] then { k with undo := undoFree p up k.undo }
    else
      let k := (k.undo.ent up).foldr (semexitEnt info) k
      { k with undo := undoFree p up (undoOff info up (k.undo.setEnt up [])) }

/-- seminit; `none` when mfree runs off the map. -/
def seminit (info : Seminfo) (want : Nat) (k : Tables) : Option Tables :=
  (Malloc.mfree (Malloc.mapinit info.semmap want) info.semmns 1).map fun r =>
    { k with semmap := r.map, undo := seminitUndo info k.undo }

end Svr32.Semaphore

/-! Undo entries taken away: semunrm drops those of some semaphores of a set in every
structure on the chain, and semexit gives the structure of a process back. -/
namespace Svr32.Semaphore
open Svr32.Lib Svr32.Ipc
variable {info : Seminfo} {t : UndoTab} {free : List Nat} {id low high : Int}

/- The semaphores that semunrm(id, low, high) leaves alone. -/
def outside (id low high : Int) (k : Int ×ₗ Int) : Bool :=
  !decide ((ofLex k).1 = id ∧ low ≤ (ofLex k).2 ∧ (ofLex k).2 ≤ high)

theorem outside_iff {k : Int ×ₗ Int} : outside id low high k = true ↔
    ((ofLex k).1 = id → low ≤ (ofLex k).2 → high < (ofLex k).2) := by
  simp only [outside, Bool.not_eq_true', decide_eq_false_iff_not, not_and, not_le]

theorem filter_of_lt {k : Int ×ₗ Int} {es : List Undo} (hk : toLex (id, high) < k)
    (hes : ∀ e ∈ es, k < e.key) : es.filter (fun e => outside id low high e.key) = es := by
  rw [List.filter_eq_self]
  intro e he
  have hlt := hk.trans (hes e he)
  rw [outside_iff]
  intro hid _
  rw [Prod.Lex.lt_iff] at hlt
  cases hlt with
  | inl hlt => exact absurd hid hlt.ne'
  | inr hlt => exact hlt.2

/-- On sorted entries the scan of semunrm is a filter. -/
theorem semunrmEnt_eq {es : List Undo} (h : es.Pairwise fun e e' => e.key < e'.key) :
    semunrmEnt id low high es = es.filter fun e => outside id low high e.key := by
  induction es with
  | nil => rfl
  | cons e es ih =>
    obtain ⟨he, hes⟩ := List.pairwise_cons.mp h
    have hout : outside id low high e.key = true ↔
        (e.unId = id → low ≤ e.unNum → high < e.unNum) := outside_iff
    have hpast : toLex (id, high) < e.key →
        e :: es = (e :: es).filter fun e => outside id low high e.key := by
      intro hlt
      have hkeep : outside id low high e.key = true := by
        rw [hout]
        intro hid _
        rw [Prod.Lex.lt_iff] at hlt
        exact (hlt.resolve_left fun hl => absurd hid hl.ne').2
      rw [List.filter_cons, if_pos hkeep, filter_of_lt hlt he]
    simp only [semunrmEnt]
    by_cases h₁ : id < e.unId
    · rw [if_pos h₁]
      exact hpast (Prod.Lex.lt_iff.mpr (.inl h₁))
    · rw [if_neg h₁]
      by_cases h₂ : id > e.unId ∨ low > e.unNum
      · rw [if_pos h₂, ih hes, List.filter_cons, if_pos (hout.mpr fun _ _ => by omega)]
      · rw [if_neg h₂]
        by_cases h₃ : high < e.unNum
        · rw [if_pos h₃]
          exact hpast (Prod.Lex.lt_iff.mpr (.inr ⟨by show id = e.unId; omega, h₃⟩))
        · rw [if_neg h₃, ih hes, List.filter_cons, if_neg]
          rw [hout]
          intro hk
          exact h₃ (hk (by omega) (by omega))

theorem EntOk.filter {es : List Undo} (h : EntOk info es) (q : Undo → Bool) :
    EntOk info (es.filter q) :=
  ⟨h.sparse.filter q, fun e he => h.bound e (List.mem_of_mem_filter he),
    (List.length_filter_le q es).trans h.len⟩

/- `t'` is `t` with the structures in `l` swept. -/
structure Swept (info : Seminfo) (id low high : Int) (l free : List Nat) (t t' : UndoTab) : Prop
    where
  inv : ∃ chain, UndoInv info t' chain free
  semUndo : t'.semUndo = t.semUndo
  ent : ∀ u, t'.ent u = if u ∈ l then semunrmEnt id low high (t.ent u) else t.ent u

/-- The walk of semunrm, by induction on the structures that are still ahead. -/
theorem semunrmLoop_spec {front rest : List Nat} (fuel : Nat)
    (h : UndoInv info t (front ++ rest) free) (hfuel : rest.length < fuel) :
    Swept info id low high rest free t
      (semunrmLoop id low high fuel front.getLast? rest.head? t) := by
  induction rest generalizing front t fuel with
  | nil =>
    obtain ⟨n, rfl⟩ := Nat.exists_eq_succ_of_ne_zero (Nat.ne_zero_of_lt hfuel)
    exact ⟨⟨_, h⟩, rfl, fun u => by simp [semunrmLoop]⟩
  | cons x rest ih =>
    obtain ⟨n, rfl⟩ := Nat.exists_eq_succ_of_ne_zero (Nat.ne_zero_of_lt hfuel)
    have hn : rest.length < n := by simpa using hfuel
    have hcn := (List.nodup_append'.mp h.nodup).1
    have hxr : x ∉ rest := (List.nodup_cons.mp (List.nodup_append'.mp hcn).2.1).1
    have hxm := (List.nodup_cons.mp (List.perm_middle.nodup_iff.mp hcn)).1
    have hnext : t.np x = rest.head? := h.chain.next_eq
    have hold : t.ent x ≠ [] := (h.onChain x).mp (by simp)
    have hsweep := (@semunrmEnt_eq id low high) (h.ents x).sparse.sorted
    -- what the rest of the walk adds to the sweep of `x`
    have hjoin : ∀ {t₁ t' : UndoTab}, Swept info id low high rest free t₁ t' →
        t₁.semUndo = t.semUndo →
        (∀ u, t₁.ent u = (t.setEnt x (semunrmEnt id low high (t.ent x))).ent u) →
        Swept info id low high (x :: rest) free t t' := by
      intro t₁ t' hs hu he
      refine ⟨hs.inv, hs.semUndo.trans hu, fun u => ?_⟩
      rw [hs.ent, he]
      by_cases hux : u = x
      · simp only [hux, hxr, if_false, List.mem_cons_self, if_true, UndoTab.setEnt,
          Function.update_self]
      · simp only [List.mem_cons, hux, false_or, UndoTab.setEnt, Function.update_of_ne hux]
    simp only [List.head?_cons, semunrmLoop]
    have hent : (t.setEnt x (semunrmEnt id low high (t.ent x))).ent x =
        semunrmEnt id low high (t.ent x) := by
      simp only [UndoTab.setEnt, Function.update_self]
    have hnp : (t.setEnt x (semunrmEnt id low high (t.ent x))).np x = rest.head? := hnext
    rw [hent, hnp]
    by_cases hempty : semunrmEnt id low high (t.ent x) = []
    · rw [if_pos hempty]
      have hfree : ∀ u ∈ free, u ≠ x ∧ u ∉ front := fun u hu =>
        ⟨fun he => (List.nodup_append'.mp h.nodup).2.2 (he ▸ by simp) hu,
          fun hm => (List.nodup_append'.mp h.nodup).2.2 (List.mem_append_left _ hm) hu⟩
      rcases List.eq_nil_or_concat' front with hf | ⟨pre, q, hf⟩
      · subst hf
        have hseg : Seg (Function.update t.np x none) rest.head? rest :=
          ((@Seg.suffix _ _ _ [x]) h.chain).congr fun u hu =>
            Function.update_of_ne (fun he : u = x => hxr (he ▸ hu)) _ _
        have hgone := (@UndoInv.gone _ _ _ _ []) h hseg fun u hu =>
          Function.update_of_ne (hfree u hu).1 _ _
        rw [hempty] at hjoin ⊢
        exact hjoin (ih n hgone hn) rfl fun u => rfl
      · subst hf
        have hqx : ∀ u ∈ pre ++ [q] ++ rest, u ≠ x := fun u hu he => hxm (he ▸ hu)
        have hchain : pre ++ [q] ++ x :: rest = pre ++ q :: x :: rest := by simp
        have hseg : Seg (Function.update (Function.update t.np q rest.head?) x none) t.semunp
            (pre ++ [q] ++ rest) := by
          refine Seg.congr ?_ fun u hu => Function.update_of_ne (hqx u hu) _ _
          have hskip := Seg.skip (hchain ▸ h.chain) (hchain ▸ hcn)
          rw [hnext] at hskip
          simpa using hskip
        have hgone := h.gone hseg fun u hu => by
          rw [Function.update_of_ne (hfree u hu).1, Function.update_of_ne]
          exact fun he : u = q => (hfree u hu).2 (by simp [he])
        rw [hempty] at hjoin ⊢
        have hw := hjoin (ih n hgone hn) rfl fun u => rfl
        simp only [List.getLast?_append, List.getLast?_singleton, Option.some_or] at hw ⊢
        exact hw
    · rw [if_neg hempty]
      have hkeep := h.edit hold (hsweep ▸ (h.ents x).filter _) hempty
      have hsplit : front ++ x :: rest = (front ++ [x]) ++ rest := by simp
      rw [hsplit] at hkeep
      have hw := hjoin (ih n hkeep hn) rfl fun u => rfl
      simpa using hw

/-- semunrm filters the entries of every process. -/
theorem semunrm_spec (h : UndoOk info t) (id low high : Int) :
    UndoOk info (semunrm info id low high t) ∧
      (semunrm info id low high t).semUndo = t.semUndo ∧
      ∀ p, entriesOf p (semunrm info id low high t) =
        (entriesOf p t).filter fun e => outside id low high e.key := by
  obtain ⟨chain, free, h⟩ := h
  have hlen := h.chain_length
  have hs := (@semunrmLoop_spec _ _ _ id low high [])
    (info.semmnu + 1) h (by omega)
  rw [← h.chain.head] at hs
  obtain ⟨⟨chain', hinv⟩, hu, hent⟩ := hs
  refine ⟨⟨chain', free, hinv⟩, hu, fun p => ?_⟩
  simp only [entriesOf]
  show (match (semunrmLoop id low high (info.semmnu + 1) none t.semunp t).semUndo p with
    | none => []
    | some u => (semunrmLoop id low high (info.semmnu + 1) none t.semunp t).ent u) = _
  have hu' : (semunrmLoop id low high (info.semmnu + 1) none t.semunp t).semUndo = t.semUndo := hu
  rw [hu']
  cases t.semUndo p with
  | none => rfl
  | some u =>
    have hent' : (semunrmLoop id low high (info.semmnu + 1) none t.semunp t).ent u =
      if u ∈ chain then semunrmEnt id low high (t.ent u) else t.ent u := hent u
    simp only [hent']
    by_cases hm : u ∈ chain
    · rw [if_pos hm, semunrmEnt_eq (h.ents u).sparse.sorted]
    · have hnil : t.ent u = [] := not_not.mp fun hne => hm ((h.onChain u).mpr hne)
      rw [if_neg hm, hnil]
      rfl

variable {chain : List Nat} {p up : Nat}

/-- An empty structure goes from its process to the free list. -/
theorem UndoInv.release (h : UndoInv info t chain free) (hp : t.semUndo p = some up)
    (hold : t.ent up = []) : UndoInv info (undoFree p up t) chain (up :: free) := by
  obtain ⟨hsmall, hfree⟩ := h.owner p up hp
  have hchain : up ∉ chain := fun hm => (h.onChain up).mp hm hold
  refine { h with
    chain := h.chain.congr fun u hu =>
      Function.update_of_ne (fun he : u = up => hchain (he ▸ hu)) _ _
    free := h.free.push hfree
    nodup := ?_
    small := ?_
    owned := fun u hu => ?_
    owner := fun q u hq => ?_
    inj := fun q q' u hq hq' => ?_ }
  · rw [List.perm_middle.nodup_iff, List.nodup_cons, List.mem_append]
    exact ⟨fun hm => hm.elim hchain hfree, h.nodup⟩
  · intro u hu
    cases List.mem_cons.mp (List.perm_middle.mem_iff.mp hu) with
    | inl he => exact he ▸ hsmall
    | inr hu => exact h.small u hu
  · cases h.owned u hu with
    | inl hm => exact .inl (List.mem_cons_of_mem up hm)
    | inr hq =>
      obtain ⟨q, hq⟩ := hq
      by_cases hqp : q = p
      · rw [hqp, hp] at hq
        exact .inl (by simp [Option.some.inj hq])
      · exact .inr ⟨q, by simp only [undoFree, Function.update_of_ne hqp, hq]⟩
  · have hqp : q ≠ p := fun he => by simp [undoFree, he] at hq
    simp only [undoFree, Function.update_of_ne hqp] at hq
    refine ⟨(h.owner q u hq).1, fun hm => ?_⟩
    cases List.mem_cons.mp hm with
    | inl he => exact hqp (h.inj q p u hq (he ▸ hp))
    | inr hm => exact (h.owner q u hq).2 hm
  · have hqp : q ≠ p := fun he => by simp [undoFree, he] at hq
    have hqp' : q' ≠ p := fun he => by simp [undoFree, he] at hq'
    simp only [undoFree, Function.update_of_ne hqp, Function.update_of_ne hqp'] at hq hq'
    exact h.inj q q' u hq hq'

end Svr32.Semaphore
