import Svr32.Lib.System
import Svr32.RecLock.Reclock

/-! Runs of reclock and cleanlocks by any processes on any inodes. A call is atomic
except where it sleeps for a lock and where plock may sleep. A process is named by its
p_epid and p_sysid, and makes one call at a time. -/
namespace Svr32.RecLock
open Svr32.Lib
variable {I : Type*}

/- A sleeping call: `lckdat` with its range, `whence` and `offset` for the way back. -/
structure Call (I : Type*) where
  ip : I
  cmd : Cmd
  lckdat : Flock
  whence : Int
  offset : Int

/- Asleep with the record `sf`, or waiting for the inode. -/
inductive Phase where
  | asleep (sf : Nat)
  | plock (intr : Bool)
deriving DecidableEq, Repr

/- `result` is what the last call of a process has handed back. -/
structure World (I : Type*) where
  k : Table I
  iSize : I → Int
  call : Owner → Option (Call I × Phase)
  result : Owner → Option (Flock × Option Errno)

namespace World

def finish (u : Owner) (c : Call I) (lckdat : Flock) (retval : Option Errno) (w : World I) :
    World I :=
  { w with
    call := Function.update w.call u none
    result := Function.update w.result u
      (some (reclockRestore (w.iSize c.ip) lckdat c.whence c.offset, retval)) }

def settle (u : Owner) (c : Call I) (w : World I) (r : Table I × Turn) : World I :=
  match r with
  | (k, .done lckdat retval) => finish u c lckdat retval { w with k := k }
  | (k, .sleep sf) =>
    { w with k := k, call := Function.update w.call u (some (c, .asleep sf)) }

theorem settle_call (u : Owner) (c : Call I) (w : World I) (x : Option (Call I × Phase)) :
    settle u c { w with call := Function.update w.call u x } = settle u c w := by
  funext r
  obtain ⟨k, t⟩ := r
  cases t <;> simp [settle, finish]

variable [DecidableEq I]

/-- reclock(ip, lckdat, cmd, flag, offset) up to its first sleep or its end. -/
def reclock (recs : Nat) (u : Owner) (ip : I) (lckdat : Flock) (cmd : Cmd) (flag : Flag)
    (offset : Int) (w : World I) : Option (World I) :=
  match reclockRange (w.iSize ip) lckdat cmd flag offset with
  | (lckdat, some e) =>
    some { w with result := Function.update w.result u (some (lckdat, some e)) }
  | (ld, none) =>
    (reclockPass recs u ip cmd ld w.k).map (settle u ⟨ip, cmd, ld, lckdat.lWhence, offset⟩ w)

/- The end of a pass that has slept: EINTR, or once more. -/
def resume (recs : Nat) (u : Owner) (c : Call I) (intr : Bool) (w : World I) :
    Option (World I) :=
  if intr then some (finish u c c.lckdat (some .eintr) w)
  else (reclockPass recs u c.ip c.cmd c.lckdat w.k).map (settle u c w)

/- Behind SLEEP. -/
def wake (recs : Nat) (u : Owner) (c : Call I) (sf : Nat) (intr : Bool) (w : World I) :
    Option (World I) :=
  let w := { w with k := reclockWake sf { w.k with wchan := Function.update w.k.wchan u none } }
  if c.cmd.inoflck then some { w with call := Function.update w.call u (some (c, .plock intr)) }
  else resume recs u c intr w

theorem resume_call (recs : Nat) (u : Owner) (c : Call I) (intr : Bool) (w : World I)
    (x : Option (Call I × Phase)) :
    resume recs u c intr { w with call := Function.update w.call u x } =
      resume recs u c intr w := by
  simp only [resume, settle_call]
  simp [finish]

def clean (recs : Nat) (u : Owner) (ip : I) (flag : CleanFlag) (w : World I) :
    Option (World I) :=
  (cleanlocks recs u (.inode ip) flag w.k).map fun k => { w with k := k }

end World

/- The run invariant over the lists `ls`: sleepers and their records match. -/
structure Good (recs : Nat) (w : World I) (ls : ListId I → List Nat) : Prop where
  sound : Sound recs w.k ls
  valid : ∀ u c p, w.call u = some (c, p) → c.lckdat.Valid
  asleep : ∀ u c sf, w.call u = some (c, .asleep sf) →
    sf ∈ ls .sleeplcks ∧ (w.k.set sf).owner = u
  sleeper : ∀ r ∈ ls .sleeplcks, ∃ c, w.call (w.k.set r).owner = some (c, .asleep r)

variable {recs : Nat} {w : World I} {ls : ListId I → List Nat} {u : Owner}

/-- A process that does not sleep has no record on sleeplcks. -/
theorem Good.awake (h : Good recs w ls) (hu : ∀ c sf, w.call u ≠ some (c, .asleep sf)) :
    ∀ r ∈ ls .sleeplcks, (w.k.set r).owner ≠ u := by
  intro r hr he
  obtain ⟨c, hc⟩ := h.sleeper r hr
  rw [he] at hc
  exact hu c r hc

/-- A pass of the process `u`, whatever it ends in, keeps the run invariant. -/
theorem Good.settle (h : Good recs w ls) (hu : ∀ c sf, w.call u ≠ some (c, .asleep sf))
    {c : Call I} {r : Option (Table I × Turn)} (hr : PassOk recs u c.lckdat w.k ls r) :
    ∃ w' ls', r.map (World.settle u c w) = some w' ∧ Good recs w' ls' := by
  obtain ⟨k', t, ls', rfl, hs, ht⟩ := hr
  have hawake := h.awake hu
  cases t with
  | done lckdat retval =>
    refine ⟨_, ls', rfl, hs, fun v c' p hv => ?_, fun v c' sf hv => ?_, fun r hr => ?_⟩
    · by_cases hvu : v = u
      · subst hvu
        simp [World.settle, World.finish] at hv
      · simp only [World.settle, World.finish, Function.update_of_ne hvu] at hv
        exact h.valid v c' p hv
    · by_cases hvu : v = u
      · subst hvu
        simp [World.settle, World.finish] at hv
      · simp only [World.settle, World.finish, Function.update_of_ne hvu] at hv ⊢
        obtain ⟨hm, ho⟩ := h.asleep v c' sf hv
        rw [ht.list, ht.set sf hm]
        exact ⟨hm, ho⟩
    · rw [ht.list] at hr
      obtain ⟨c', hc⟩ := h.sleeper r hr
      refine ⟨c', ?_⟩
      simp only [World.settle, World.finish, ht.set r hr, Function.update_of_ne (hawake r hr)]
      exact hc
  | sleep sf =>
    obtain ⟨hv, hl', ho, hset⟩ := ht
    refine ⟨_, ls', rfl, hs, fun v c' p hc => ?_, fun v c' sf' hc => ?_, fun r hr => ?_⟩
    · by_cases hvu : v = u
      · subst hvu
        simp only [World.settle, Function.update_self, Option.some.injEq, Prod.mk.injEq] at hc
        exact hc.1 ▸ hv
      · simp only [World.settle, Function.update_of_ne hvu] at hc
        exact h.valid v c' p hc
    · rw [hl']
      by_cases hvu : v = u
      · subst hvu
        simp only [World.settle, Function.update_self, Option.some.injEq, Prod.mk.injEq,
          Phase.asleep.injEq] at hc
        simp only [World.settle, ← hc.2]
        exact ⟨by simp, ho⟩
      · simp only [World.settle, Function.update_of_ne hvu] at hc ⊢
        obtain ⟨hm, ho'⟩ := h.asleep v c' sf' hc
        rw [hset sf' hm]
        exact ⟨List.mem_cons_of_mem sf hm, ho'⟩
    · rw [hl'] at hr
      simp only [World.settle]
      cases List.mem_cons.mp hr with
      | inl he => exact ⟨c, by rw [he, ho, Function.update_self]⟩
      | inr hr =>
        obtain ⟨c', hc⟩ := h.sleeper r hr
        exact ⟨c', by rw [hset r hr, Function.update_of_ne (hawake r hr), hc]⟩

variable [DecidableEq I]

inductive Step (recs : Nat) : World I → World I → Prop where
  | reclock {w w' : World I} {u : Owner} {ip : I} {lckdat : Flock} {cmd : Cmd} {flag : Flag}
      {offset : Int} (hcall : w.call u = none)
      (h : w.reclock recs u ip lckdat cmd flag offset = some w') : Step recs w w'
  | cleanlocks {w w' : World I} {u : Owner} {ip : I} {flag : CleanFlag}
      (h : w.clean recs u ip flag = some w') : Step recs w w'
  | wakeup {w w' : World I} {u : Owner} {c : Call I} {sf : Nat}
      (hcall : w.call u = some (c, .asleep sf)) (hchan : w.k.wchan u = none)
      (h : w.wake recs u c sf false = some w') : Step recs w w'
  | signal {w w' : World I} {u : Owner} {c : Call I} {sf : Nat}
      (hcall : w.call u = some (c, .asleep sf))
      (h : w.wake recs u c sf true = some w') : Step recs w w'
  | plock {w w' : World I} {u : Owner} {c : Call I} {intr : Bool}
      (hcall : w.call u = some (c, .plock intr))
      (h : w.resume recs u c intr = some w') : Step recs w w'
  | resize {w : World I} {ip : I} {n : Int} :
      Step recs w { w with iSize := Function.update w.iSize ip n }

/- At boot all records are free and no inode has a lock. -/
def system (recs : Nat) (I : Type*) [DecidableEq I] : System (World I) where
  init w := (∃ links : Links (ListId I) Nat, (∀ li, links.head li = none) ∧
    w.k.links = flckinit recs links) ∧ ∀ u, w.call u = none
  step := Step recs

/- Every call that can be made or gone on with in `w` gets to its end or to a sleep. -/
structure Ends (recs : Nat) (w : World I) : Prop where
  reclock : ∀ u ip lckdat cmd flag offset, w.call u = none →
    (w.reclock recs u ip lckdat cmd flag offset).isSome
  cleanlocks : ∀ u ip flag, (w.clean recs u ip flag).isSome
  wake : ∀ u c sf intr, w.call u = some (c, .asleep sf) → (w.wake recs u c sf intr).isSome
  plock : ∀ u c intr, w.call u = some (c, .plock intr) → (w.resume recs u c intr).isSome

theorem Good.reclock (h : Good recs w ls) (hu : w.call u = none) (ip : I) (lckdat : Flock)
    (cmd : Cmd) (flag : Flag) (offset : Int) :
    ∃ w' ls', w.reclock recs u ip lckdat cmd flag offset = some w' ∧ Good recs w' ls' := by
  have hna : ∀ c sf, w.call u ≠ some (c, .asleep sf) := by simp [hu]
  simp only [World.reclock]
  cases hr : reclockRange (w.iSize ip) lckdat cmd flag offset with
  | mk ld e =>
    cases e with
    | some e => exact ⟨_, ls, rfl, h.sound, h.valid, h.asleep, h.sleeper⟩
    | none =>
      obtain ⟨hs, hle, hmax⟩ := reclockRange_asked hr
      exact h.settle hna (reclockPass_spec h.sound cmd hs hle hmax (h.awake hna))

theorem Good.resume (h : Good recs w ls) {c : Call I} {p : Bool}
    (hu : w.call u = some (c, .plock p)) (intr : Bool) :
    ∃ w' ls', w.resume recs u c intr = some w' ∧ Good recs w' ls' := by
  have hna : ∀ c sf, w.call u ≠ some (c, .asleep sf) := by simp [hu]
  have hv := h.valid u c _ hu
  simp only [World.resume]
  split
  · exact h.settle hna (c := c)
      ⟨w.k, .done c.lckdat (some .eintr), ls, rfl, h.sound, .refl w.k ls⟩
  · exact h.settle hna (reclockPass_spec h.sound c.cmd hv.start hv.le hv.max (h.awake hna))

/-- The sleeper's record is taken off sleeplcks before anything else happens. -/
theorem Good.wake (h : Good recs w ls) {c : Call I} {sf : Nat}
    (hu : w.call u = some (c, .asleep sf)) (intr : Bool) :
    ∃ w' ls', w.wake recs u c sf intr = some w' ∧ Good recs w' ls' := by
  obtain ⟨hm, ho⟩ := h.asleep u c sf hu
  obtain ⟨pre, post, hl⟩ := List.append_of_mem hm
  have hs : Sound recs { w.k with wchan := Function.update w.k.wchan u none } ls :=
    ⟨⟨h.sound.rep.lists, h.sound.rep.small⟩, h.sound.locked, h.sound.once, h.sound.acyclic⟩
  obtain ⟨ls', hs', hl', hset⟩ := reclockWake_spec hs hl
  have hnd := h.sound.rep.lists.nodup .sleeplcks
  rw [hl] at hnd
  have hsub : ∀ r, r ∈ pre ++ post ↔ r ∈ ls .sleeplcks ∧ r ≠ sf := by
    intro r
    have hnm := (List.nodup_cons.mp (List.perm_middle.nodup_iff.mp hnd)).1
    rw [hl]
    constructor
    · intro hr
      exact ⟨((List.sublist_cons_self sf post).append_left pre).subset hr,
        fun he => hnm (he ▸ hr)⟩
    · intro hr
      simpa [hr.2] using hr.1
  -- with its record gone the process counts as waiting for the inode
  have hgood : ∀ p, Good recs { w with
      k := reclockWake sf { w.k with wchan := Function.update w.k.wchan u none }
      call := Function.update w.call u (some (c, .plock p)) } ls' := by
    intro p
    refine ⟨hs', fun v c' q hv => ?_, fun v c' sf' hv => ?_, fun r hr => ?_⟩
    · by_cases hvu : v = u
      · subst hvu
        simp only [Function.update_self, Option.some.injEq, Prod.mk.injEq] at hv
        exact hv.1 ▸ h.valid v c _ hu
      · simp only [Function.update_of_ne hvu] at hv
        exact h.valid v c' q hv
    · by_cases hvu : v = u
      · subst hvu
        simp at hv
      · simp only [Function.update_of_ne hvu] at hv
        obtain ⟨hm', ho'⟩ := h.asleep v c' sf' hv
        simp only [hset, hl', hsub]
        exact ⟨⟨hm', fun he => hvu (by rw [← ho', he, ho])⟩, ho'⟩
    · rw [hl', hsub] at hr
      obtain ⟨c', hc'⟩ := h.sleeper r hr.1
      refine ⟨c', ?_⟩
      simp only [hset]
      have hne : (w.k.set r).owner ≠ u := by
        intro he
        rw [he, hu] at hc'
        simp only [Option.some.injEq, Prod.mk.injEq, Phase.asleep.injEq] at hc'
        exact hr.2 hc'.2.symm
      rw [Function.update_of_ne hne]
      exact hc'
  simp only [World.wake]
  split
  · exact ⟨_, ls', rfl, hgood intr⟩
  · obtain ⟨w', ls'', hw', hg⟩ := (hgood intr).resume (Function.update_self _ _ _) intr
    refine ⟨w', ls'', ?_, hg⟩
    exact (World.resume_call recs u c intr { w with k := _ } _).symm.trans hw'

theorem Good.clean (h : Good recs w ls) (u : Owner) (ip : I) (flag : CleanFlag) :
    ∃ w' ls', w.clean recs u ip flag = some w' ∧ Good recs w' ls' := by
  obtain ⟨k', ls', hk, hR, hF, hL⟩ :=
    cleanlocks_spec h.sound.rep (ListId.inode_ne_free ip) (h.sound.locked ip) u flag
  have hS := hF.sleepSame
  refine ⟨{ w with k := k' }, ls', by rw [World.clean, hk]; rfl, ⟨h.sound.frame hR hF hL, h.valid,
    fun v c sf hv => ?_, fun r hr => ?_⟩⟩
  · obtain ⟨hm, ho⟩ := h.asleep v c sf hv
    rw [hS.list, hS.set sf hm]
    exact ⟨hm, ho⟩
  · rw [hS.list] at hr
    rw [hS.set r hr]
    exact h.sleeper r hr

theorem good_init (h : (system recs I).init w) : ∃ ls, Good recs w ls := by
  obtain ⟨⟨links, hnone, hlinks⟩, hcall⟩ := h
  obtain ⟨ls, hL, hnil, hlt⟩ := flckinit_lists recs hnone
  have hsleep : ls .sleeplcks = [] := hnil _ ListId.sleeplcks_ne_free
  have hwaits : ∀ p q, ¬ Waits w.k (ls .sleeplcks) p q := by simp [Waits, hsleep]
  refine ⟨ls, ⟨⟨hlinks ▸ hL, fun li r hr => ?_⟩, fun ip => ?_, ?_, fun p hp => ?_⟩, ?_, ?_, ?_⟩
  · by_cases hf : li = .free
    · exact hlt r (hf ▸ hr)
    · rw [hnil li hf] at hr
      cases hr
  · rw [hnil _ (ListId.inode_ne_free ip)]
    exact Locked.nil
  · simp [OnceAsleep, hsleep]
  · cases Relation.TransGen.head'_iff.mp hp with
    | intro q hq => exact hwaits p q hq.1
  · simp [hcall]
  · simp [hcall]
  · simp [hsleep]

theorem good_step (h : Good recs w ls) {w' : World I} (hstep : Step recs w w') :
    ∃ ls', Good recs w' ls' := by
  cases hstep with
  | reclock hcall hr =>
    obtain ⟨w₁, ls', hw, hg⟩ := h.reclock hcall _ _ _ _ _
    rw [hr] at hw
    cases hw
    exact ⟨ls', hg⟩
  | cleanlocks hr =>
    obtain ⟨w₁, ls', hw, hg⟩ := h.clean _ _ _
    rw [hr] at hw
    cases hw
    exact ⟨ls', hg⟩
  | wakeup hcall _ hr =>
    obtain ⟨w₁, ls', hw, hg⟩ := h.wake hcall _
    rw [hr] at hw
    cases hw
    exact ⟨ls', hg⟩
  | signal hcall hr =>
    obtain ⟨w₁, ls', hw, hg⟩ := h.wake hcall _
    rw [hr] at hw
    cases hw
    exact ⟨ls', hg⟩
  | plock hcall hr =>
    obtain ⟨w₁, ls', hw, hg⟩ := h.resume hcall _
    rw [hr] at hw
    cases hw
    exact ⟨ls', hg⟩
  | resize => exact ⟨ls, h.sound, h.valid, h.asleep, h.sleeper⟩

theorem reachable_good (h : (system recs I).Reachable w) : ∃ ls, Good recs w ls :=
  System.invariant (fun w => ∃ ls, Good recs w ls) (fun _ => good_init)
    (fun _ _ ⟨_, hg⟩ hst => good_step hg hst) h

theorem Good.ends (h : Good recs w ls) : Ends recs w := by
  refine ⟨fun u ip lckdat cmd flag offset hu => ?_, fun u ip flag => ?_, fun u c sf intr hu => ?_,
    fun u c intr hu => ?_⟩
  · obtain ⟨w', -, hw, -⟩ := h.reclock hu ip lckdat cmd flag offset
    simp [hw]
  · obtain ⟨w', -, hw, -⟩ := h.clean u ip flag
    simp [hw]
  · obtain ⟨w', -, hw, -⟩ := h.wake hu intr
    simp [hw]
  · obtain ⟨w', -, hw, -⟩ := h.resume hu intr
    simp [hw]

/-- Record locking: in every reachable state each inode's lock list is linked both ways,
in order of its starts, with one owner's locks disjoint and coalesced and two owners'
overlapping locks all read locks; and every call ends or sleeps. -/
theorem record_lock_run (h : (system recs I).Reachable w) :
    (∀ ip, ∃ l, Chain w.k.links.next w.k.links.prev none (w.k.links.head (.inode ip)) l ∧
      l.Nodup ∧ Locked w.k.set l) ∧ Ends recs w := by
  obtain ⟨ls, hg⟩ := reachable_good h
  exact ⟨fun ip => ⟨ls (.inode ip), hg.sound.rep.lists.chain _, hg.sound.rep.lists.nodup _,
    hg.sound.locked ip⟩, hg.ends⟩

/- Three records, one inode, nothing locked. -/
def boot : World Unit where
  k := {
    links := flckinit 3 ⟨fun _ => none, fun _ => none, fun _ => none⟩
    set := fun _ => ⟨.rdlck, 0, 0, 0, 0, 0⟩
    stat := fun _ => .wakeflg 0
    wchan := fun _ => none }
  iSize := fun _ => 0
  call := fun _ => none
  result := fun _ => none

/- F_SETLKW for writing on the first ten bytes, by the process `pid`. -/
def setlkw (pid : Int) : World Unit → Option (World Unit) :=
  World.reclock 3 ⟨pid, 0⟩ () ⟨.wrlck, 0, 0, 10, 0, 0⟩ ⟨false, true, true⟩ ⟨true, true⟩ 0

/- Process 1 has the lock and process 2 sleeps for it. -/
theorem sleeping_reachable : ∃ w, (system 3 Unit).Reachable w ∧
    w.call ⟨1, 0⟩ = none ∧ (∃ c, w.call ⟨2, 0⟩ = some (c, .asleep 1)) ∧
    w.k.links.head (.inode ()) = some 2 ∧ w.k.set 2 = ⟨.wrlck, 0, 0, 9, 0, 1⟩ := by
  have h₀ := System.reachable_init (S := system 3 Unit) (s := boot)
    ⟨⟨_, fun _ => rfl, rfl⟩, fun _ => rfl⟩
  have h₁ := System.reachable_step h₀ (Step.reclock rfl (rfl : setlkw 1 _ = some _))
  have h₂ := System.reachable_step h₁ (Step.reclock rfl (rfl : setlkw 2 _ = some _))
  exact ⟨_, h₂, rfl, ⟨_, rfl⟩, rfl, rfl⟩

theorem record_lock_run_sleeping : ∃ w : World Unit, (∃ c, w.call ⟨2, 0⟩ = some (c, .asleep 1)) ∧
    ∃ l, Chain w.k.links.next w.k.links.prev none (w.k.links.head (.inode ())) l ∧
      l.Nodup ∧ Locked w.k.set l := by
  obtain ⟨w, h, -, hcall, -⟩ := sleeping_reachable
  exact ⟨w, hcall, (record_lock_run h).1 ()⟩

/-- Deadlock detection: the records on sleeplcks are those of the sleeping processes, the
graph they make has no cycle, and deadflck ends with 1 exactly when the owner of the
lock found leads to the calling process. -/
theorem deadlock_detection_run (h : (system recs I).Reachable w) :
    ∃ l, Chain w.k.links.next w.k.links.prev none (w.k.links.head .sleeplcks) l ∧ l.Nodup ∧
      (∀ u c sf, w.call u = some (c, .asleep sf) → sf ∈ l ∧ (w.k.set sf).owner = u) ∧
      (∀ sf ∈ l, ∃ c, w.call (w.k.set sf).owner = some (c, .asleep sf)) ∧
      Acyclic (Waits w.k l) ∧
      ∀ u found, ∃ b, deadflck recs u found w.k = some b ∧
        (b = true ↔ Relation.ReflTransGen (Waits w.k l) (w.k.set found).owner u) := by
  obtain ⟨ls, hg⟩ := reachable_good h
  exact ⟨ls .sleeplcks, hg.sound.rep.lists.chain _, hg.sound.rep.lists.nodup _, hg.asleep,
    hg.sleeper, hg.sound.acyclic, deadflck_spec hg.sound.rep hg.sound.once hg.sound.acyclic⟩

/- Process 1 may not wait for a lock of process 2, which waits for process 1. -/
theorem deadlock_detection_run_sleeping : ∃ w : World Unit,
    (∃ c, w.call ⟨2, 0⟩ = some (c, .asleep 1)) ∧ ∃ l, Acyclic (Waits w.k l) ∧
      ∃ b, deadflck 3 ⟨1, 0⟩ 1 w.k = some b ∧
        (b = true ↔ Relation.ReflTransGen (Waits w.k l) (w.k.set 1).owner ⟨1, 0⟩) := by
  obtain ⟨w, h, -, hcall, -⟩ := sleeping_reachable
  obtain ⟨l, -, -, -, -, hac, hd⟩ := deadlock_detection_run h
  exact ⟨w, hcall, l, hac, hd ⟨1, 0⟩ 1⟩

end Svr32.RecLock
