import Svr32.Semaphore.World

/-! In every run: a call of semop does all or nothing, and no process sleeps that could go
on. -/
namespace Svr32.Semaphore
open Svr32.Lib Svr32.Ipc
variable {info : Seminfo} {pt : ProcTab} {allow : Tables → Args → List Sembuf → Prop}
  {w : World} {p : Nat}

/- The run invariant: whoever sleeps has a call that waits on that channel for what is not
   the case. -/
structure Good (info : Seminfo) (pt : ProcTab) (w : World) : Prop where
  sound : Sound info w.k
  procs : ∀ p c, w.call p = some c → p < pt.nproc
  asleep : ∀ p ch, w.k.wchan p = some ch → ∃ c, w.call p = some c ∧ c.chan = ch
  blocked : ∀ p c, w.call p = some c → w.k.wchan p = some c.chan →
    Blocked w.k c.chan c.op c.done
  counted : Counted pt.nproc w.k

theorem ProcTab.lt (pt : ProcTab) : pt.nproc < 2 ^ 16 := by
  have h := pt.nproc_le
  omega

/-- A process without a call is awake. -/
theorem Good.awake (h : Good info pt w) (hp : w.call p = none) : w.k.wchan p = none := by
  cases hw : w.k.wchan p with
  | none => rfl
  | some ch =>
    obtain ⟨c, hc, -⟩ := h.asleep p ch hw
    rw [hp] at hc
    cases hc

/-- A quiet stretch, at whose end a process that is awake may have given up its call. -/
theorem Good.quiet (h : Good info pt w) {k' : Tables} (hq : Quiet w.k k') (hs : Sound info k')
    {call : Nat → Option Call} (hcall : ∀ q, w.k.wchan q ≠ none → call q = w.call q)
    (hsub : ∀ q c, call q = some c → w.call q = some c) (ledger : Nat → Int → Int)
    (accesses : List Access) : Good info pt ⟨k', call, ledger, accesses⟩ := by
  have hsame : ∀ q ch, k'.wchan q = some ch → call q = w.call q := by
    intro q ch hw
    apply hcall
    rw [hq.slept hw]
    exact nofun
  refine ⟨hs, fun q c hc => h.procs q c (hsub q c hc), fun q ch hw => ?_, fun q c hc hw => ?_,
    hq.counted h.counted⟩
  · show ∃ c, call q = some c ∧ _
    rw [hsame q ch hw]
    exact h.asleep q ch (hq.slept hw)
  · exact hq.blocked hw (h.blocked q c (hsub q c hc) (hq.slept hw))

/-- What a turn of a process that is awake ends in keeps the run invariant. -/
theorem Good.turn (h : Good info pt w) (hp : p < pt.nproc) (hw : w.k.wchan p = none) {id : Int}
    {base : Nat} {r : Tables × Stop × List Sembuf} (ht : Turn info p id base w.k r) (a : Args) :
    Good info pt (w.turn p a r) := by
  obtain ⟨k', s, seen⟩ := r
  have hgive : ∀ q, w.k.wchan q ≠ none → Function.update w.call p none q = w.call q :=
    fun q hq => Function.update_of_ne (fun he : q = p => hq (he ▸ hw)) _ _
  have hsub : ∀ q c, Function.update w.call p none q = some c → w.call q = some c := by
    intro q c hc
    by_cases hqp : q = p
    · simp [hqp] at hc
    · rwa [Function.update_of_ne hqp] at hc
  cases s with
  | ok =>
    obtain ⟨hperf, hq⟩ := ht.ok rfl
    exact h.quiet hq ⟨hq.attended h.sound.attended, hperf.range, hperf.undoOk⟩ hgive hsub _ _
  | err e =>
    obtain ⟨hr, hq⟩ := ht.err e rfl
    have hrange : InRange info k'.val := fun i => by
      rw [hr.vals]
      exact h.sound.range i
    exact h.quiet hq ⟨hq.attended h.sound.attended, hrange, hr.undoOk⟩ hgive hsub _ _
  | sleep ch =>
    obtain ⟨k₁, op, done, hk', hseen, hr, hq, hb⟩ := ht.sleep ch rfl
    simp only at hk' hseen
    have hrange : InRange info k₁.val := fun i => by
      rw [hr.vals]
      exact h.sound.range i
    have hw₁ : k₁.wchan p = none := by
      cases hw₁ : k₁.wchan p with
      | none => rfl
      | some d =>
        have hslept := hq.slept hw₁
        rw [hw] at hslept
        cases hslept
    have h₁ := h.quiet hq ⟨hq.attended h.sound.attended, hrange, hr.undoOk⟩ hgive hsub w.ledger
      w.accesses
    obtain ⟨hval, hrest, hchan, ha, hc⟩ :=
      sleepOn_spec hp pt.lt h₁.sound.attended h₁.counted hw₁ ch
    rw [hk', hseen]
    refine ⟨⟨ha, fun i => ?_, ?_⟩, fun q c hcq => ?_, fun q d hd => ?_, fun q c hcq hd => ?_, hc⟩
    · show 0 ≤ (sleepOn p ch k₁).val i ∧ (sleepOn p ch k₁).val i ≤ info.semvmx
      rw [hval]
      exact hrange i
    · show UndoOk info (sleepOn p ch k₁).undo
      rw [hrest.undo]
      exact hr.undoOk
    · by_cases hqp : q = p
      · exact hqp ▸ hp
      · simp only [World.turn, Function.update_of_ne hqp] at hcq
        exact h.procs q c hcq
    · simp only [World.turn, hchan] at hd ⊢
      by_cases hqp : q = p
      · rw [if_pos hqp] at hd
        rw [hqp, Function.update_self]
        exact ⟨_, rfl, Option.some.inj hd⟩
      · rw [if_neg hqp] at hd
        rw [Function.update_of_ne hqp]
        exact h.asleep q d (hq.slept hd)
    · simp only [World.turn, hchan] at hcq hd ⊢
      by_cases hqp : q = p
      · rw [hqp, Function.update_self] at hcq
        cases hcq
        exact hb.congr fun i => (hval i).trans (hr.vals i)
      · rw [if_neg hqp] at hd
        rw [Function.update_of_ne hqp] at hcq
        have hbq := h₁.blocked q c (by simp only [Function.update_of_ne hqp]; exact hcq) hd
        exact hbq.congr hval

theorem Good.intr (h : Good info pt w) {c : Call} (hp : w.call p = some c) :
    Good info pt (w.intr p c.chan) := by
  have hw : ∀ d, w.k.wchan p = some d → d = c.chan := by
    intro d hd
    obtain ⟨c', hc', he⟩ := h.asleep p d hd
    rw [hp] at hc'
    cases hc'
    exact he.symm
  obtain ⟨hval, hrest, hchan, ha, hc⟩ := semopIntr_spec (p := p) pt.lt h.sound.attended h.counted hw
  have hsub : ∀ q c', (w.intr p c.chan).call q = some c' → w.call q = some c' := by
    intro q c' hc'
    by_cases hqp : q = p
    · simp [World.intr, hqp] at hc'
    · simpa only [World.intr, Function.update_of_ne hqp] using hc'
  refine ⟨⟨ha, fun i => ?_, ?_⟩, fun q c' hc' => h.procs q c' (hsub q c' hc'), fun q d hd => ?_,
    fun q c' hc' hd => ?_, hc⟩
  · show 0 ≤ (semopIntr p c.chan w.k).val i ∧ (semopIntr p c.chan w.k).val i ≤ info.semvmx
    rw [hval]
    exact h.sound.range i
  · show UndoOk info (semopIntr p c.chan w.k).undo
    rw [hrest.undo]
    exact h.sound.undoOk
  · obtain ⟨hqp, hd⟩ := hchan q d hd
    simp only [World.intr, Function.update_of_ne hqp]
    exact h.asleep q d hd
  · exact (h.blocked q c' (hsub q c' hc') (hchan q _ hd).2).congr hval

theorem good_init (h : (system info pt allow).init w) : Good info pt w := by
  obtain ⟨⟨k₀, want, hz, hk⟩, hcall, -, -⟩ := h
  simp only [seminit, Option.map_eq_some_iff] at hk
  obtain ⟨m, -, hk⟩ := hk
  have hsem : ∀ i, w.k.sem i = ⟨0, 0, 0, 0⟩ := fun i => hk ▸ hz.sem i
  have hchan : ∀ p, w.k.wchan p = none := fun p => hk ▸ hz.wchan p
  have hundo : UndoOk info w.k.undo := hk ▸ seminitUndo_ok hz.semUndo hz.ent hz.semunp
  have hcnt : ∀ c, w.k.cnt c = 0 := fun c => by cases c <;> simp [Tables.cnt, hsem]
  refine ⟨⟨by simp [Attended, hchan], fun i => ?_, hundo⟩, by simp [hcall], by simp [hchan],
    by simp [hcall], fun c => ?_⟩
  · simp only [Tables.val, hsem]
    exact ⟨le_rfl, info.semvmx_nonneg⟩
  · rw [hcnt]
    exact ⟨le_rfl, Int.natCast_nonneg _⟩

theorem good_step (h : Good info pt w) {w' : World} (hstep : Step info pt allow w w') :
    Good info pt w' := by
  cases hstep with
  | @semop p u semid nsops sops hp hcall _ =>
    obtain ⟨s, ht⟩ := semop_turn (p := p) h.sound u semid nsops sops
    exact h.turn hp (h.awake hcall) ht _
  | @wakeup p c sops hcall hchan _ _ =>
    exact h.turn (h.procs p c hcall) hchan (semopAgain_turn h.sound _ _ _ sops) _
  | signal hcall => exact h.intr hcall
  | @semctl w' u semid cmd hr =>
    simp only [World.semctl, Option.map_eq_some_iff] at hr
    obtain ⟨⟨k', r⟩, hr, rfl⟩ := hr
    obtain ⟨hq, hs⟩ := (semctl_effect h.sound hr).sound h.sound
    exact h.quiet hq hs (fun _ _ => rfl) (fun _ _ hc => hc) _ _
  | @semget w' u key nsems semflg hr =>
    simp only [World.semget, Option.map_eq_some_iff] at hr
    obtain ⟨⟨k', r⟩, hr, rfl⟩ := hr
    obtain ⟨hq, hs⟩ := (semget_effect hr).sound h.sound
    exact h.quiet hq hs (fun _ _ => rfl) (fun _ _ hc => hc) _ _
  | @semexit p hcall =>
    obtain ⟨hq, hs, -⟩ := semexit_spec h.sound p
    exact h.quiet hq hs (fun _ _ => rfl) (fun _ _ hc => hc) _ _

theorem reachable_good (h : (system info pt allow).Reachable w) : Good info pt w :=
  System.invariant (Good info pt) (fun _ => good_init) (fun _ _ hg => good_step hg) h

/- The semvals after all of `ops` in order. -/
def perform (base : Nat) (v : Int → Int) (ops : List Sembuf) : Int → Int :=
  ops.foldl (fun v op =>
    Function.update v (base + op.semNum) (v (base + op.semNum) + op.semOp)) v

theorem applied_reverse (base : Nat) (v : Int → Int) (ops : List Sembuf) :
    applied base v ops.reverse = perform base v ops := by
  have hfold : ∀ done, applied base v done = done.foldr (fun op (v : Int → Int) =>
      Function.update v (base + op.semNum) (v (base + op.semNum) + op.semOp)) v := by
    intro done
    induction done with
    | nil => rfl
    | cons op done ih => rw [applied, ih, List.foldr_cons]
  rw [hfold, List.foldr_reverse, perform]

/- All semvals and all undo entries are what they were. -/
def Untouched (k k' : Tables) : Prop :=
  (∀ i, k'.val i = k.val i) ∧ ∀ q, entriesOf q k'.undo = entriesOf q k.undo

/- The operations of `ops` are applied in order, with every semval on the way in range. -/
def Applied (info : Seminfo) (base : Nat) (ops : List Sembuf) (k k' : Tables) : Prop :=
  (∀ i, k'.val i = perform base k.val ops i) ∧
    ∀ n ≤ ops.length, InRange info (perform base k.val (ops.take n))

theorem Restored.untouched {k k' : Tables} (h : Restored info k k') : Untouched k k' :=
  ⟨h.vals, h.entries⟩

theorem Performed.applied {id : Int} {base : Nat} {ops : List Sembuf} {k k' : Tables}
    (h : Performed info p id base k ops.reverse k') : Applied info base ops k k' := by
  refine ⟨fun i => by rw [h.vals, applied_reverse], fun n _ => ?_⟩
  rw [← applied_reverse]
  refine h.within _ ?_
  rw [List.reverse_suffix]
  exact List.take_prefix n ops

theorem Turn.untouched {id : Int} {base : Nat} {k : Tables} {r : Tables × Stop × List Sembuf}
    (h : Turn info p id base k r) (hr : r.2.1 ≠ .ok) : Untouched k r.1 := by
  obtain ⟨k', s, seen⟩ := r
  cases s with
  | ok => exact absurd rfl hr
  | err e => exact (h.err e rfl).1.untouched
  | sleep c =>
    obtain ⟨k₁, op, done, hk, -, hres, -, -⟩ := h.sleep c rfl
    simp only at hk
    rw [hk]
    refine ⟨fun i => (Tables.val_setCnt c _ i k₁).trans (hres.vals i), fun q => ?_⟩
    show entriesOf q ((k₁.setCnt c _).undo) = _
    rw [Tables.undo_setCnt]
    exact hres.entries q

theorem semopPass_applied {k : Tables} (h : Sound info k) {id pid : Int} {base : Nat}
    {ops : List Sembuf} (hr : (semopPass info p pid id base ops k).2.1 = .ok) :
    Applied info base ops k (semopPass info p pid id base ops k).1 := by
  obtain ⟨ht, -, hall⟩ := (@semopPass_spec _ p id base) h pid ops
  obtain ⟨hp, -⟩ := ht.ok hr
  rw [hall hr] at hp
  exact hp.applied

/-- semop is all or nothing: from every reachable state, a call that fails, goes to sleep
or is interrupted leaves all semvals and undo entries as they were, whether it has slept
before or not; one that succeeds has applied all operations in order. -/
theorem semop_run (h : (system info pt fun _ _ _ => True).Reachable w) :
    (∀ p u semid nsops sops,
      ((semop info p u semid nsops sops w.k).2.1 ≠ .ok →
        Untouched w.k (semop info p u semid nsops sops w.k).1) ∧
      ((semop info p u semid nsops sops w.k).2.1 = .ok →
        ∃ s ops, semconv info semid w.k = some s ∧ sops = some ops ∧
          Applied info (w.k.sema s).semBase ops w.k (semop info p u semid nsops sops w.k).1)) ∧
    (∀ p c sops, w.call p = some c →
      ((semopAgain info p c.args.cred c.args.semid c.args.s sops w.k).2.1 ≠ .ok →
        Untouched w.k (semopAgain info p c.args.cred c.args.semid c.args.s sops w.k).1) ∧
      ((semopAgain info p c.args.cred c.args.semid c.args.s sops w.k).2.1 = .ok →
        ∃ ops, sops = some ops ∧ Applied info (w.k.sema c.args.s).semBase ops w.k
          (semopAgain info p c.args.cred c.args.semid c.args.s sops w.k).1)) ∧
    ∀ p c, w.call p = some c → Untouched w.k (semopIntr p c.chan w.k) := by
  have hg := reachable_good h
  refine ⟨fun p u semid nsops sops => ⟨fun hr => ?_, fun hr => ?_⟩,
    fun p c sops _ => ⟨(semopAgain_turn hg.sound _ _ _ sops).untouched, fun hr => ?_⟩,
    fun p c hcall => ?_⟩
  · obtain ⟨s, ht⟩ := semop_turn (p := p) hg.sound u semid nsops sops
    exact ht.untouched hr
  · cases semop_cases info p u semid nsops sops w.k with
    | inl he =>
      obtain ⟨e, he⟩ := he
      rw [he] at hr
      cases hr
    | inr hp =>
      obtain ⟨s, ops, hs, hops, -, hp⟩ := hp
      rw [hp] at hr ⊢
      exact ⟨s, ops, hs, hops, semopPass_applied hg.sound hr⟩
  · cases semopAgain_cases info p c.args.cred c.args.semid c.args.s sops w.k with
    | inl he =>
      obtain ⟨e, he⟩ := he
      rw [he] at hr
      cases hr
    | inr hp =>
      obtain ⟨s, ops, -, hops, hp⟩ := hp
      rw [hp] at hr ⊢
      exact ⟨ops, hops, semopPass_applied hg.sound hr⟩
  · have hw : ∀ d, w.k.wchan p = some d → d = c.chan := by
      intro d hd
      obtain ⟨c', hc', he⟩ := hg.asleep p d hd
      rw [hcall] at hc'
      cases hc'
      exact he.symm
    obtain ⟨hval, hrest, -, -, -⟩ :=
      semopIntr_spec (p := p) pt.lt hg.sound.attended hg.counted hw
    exact ⟨hval, fun q => by rw [hrest.undo]⟩

/- A small configuration, and what the kernel starts with. -/
def tiny : Seminfo where
  semmap := 4
  semmni := 2
  semmns := 4
  semmnu := 2
  semmsl := 2
  semopm := 2
  semume := 2
  semvmx := 100
  semaem := 100
  semmap_le := by decide
  semmap_lt := by decide
  semmni_pos := by decide
  semmni_lt := by decide
  semmns_lt := by decide
  semmnu_pos := by decide
  semmsl_lt := by decide
  semume_lt := by decide
  semvmx_nonneg := by decide
  semvmx_lt := by decide
  semaem_nonneg := by decide
  semaem_lt := by decide

def procs : ProcTab := ⟨2, by decide⟩

def zeroed : Tables where
  sema := fun _ => ⟨⟨0, 0, 0, 0, 0, 0, 0⟩, 0, 0⟩
  sem := fun _ => ⟨0, 0, 0, 0⟩
  semmap := ⟨0, 0, []⟩
  undo := ⟨fun _ => none, fun _ => [], fun _ => none, none, none⟩
  wchan := fun _ => none

def boot : World := ⟨(seminit tiny 0 zeroed).getD zeroed, fun _ => none, fun _ _ => 0, []⟩

/- A set of one semaphore that all may read; process 0 adds 1 to it. -/
def root : Cred := ⟨0, 0, 1⟩
def up : Sembuf := ⟨0, 1, 0, by decide, by decide⟩
def down : Sembuf := ⟨0, -1, 0, by decide, by decide⟩
def tryDown : Sembuf := ⟨0, -1, ipcNowait, by decide, by decide⟩
def created : World := (boot.semget tiny root ipcPrivate 1 0o4).getD boot
def posted : World := created.semop tiny 0 root 0 1 (some [up])

theorem created_reachable (allow : Tables → Args → List Sembuf → Prop) :
    (system tiny procs allow).Reachable created := by
  have h₀ : (system tiny procs allow).init boot := ⟨⟨zeroed, 0,
    ⟨fun _ => allocated_zero rfl, fun _ => rfl, fun _ => rfl, fun _ => rfl, rfl, fun _ => rfl⟩, rfl⟩,
    fun _ => rfl, fun _ _ => rfl, rfl⟩
  exact System.reachable_step (System.reachable_init h₀)
    (Step.semget (rfl : boot.semget tiny root ipcPrivate 1 0o4 = some created))

theorem posted_reachable (allow : Tables → Args → List Sembuf → Prop) :
    (system tiny procs allow).Reachable posted :=
  System.reachable_step (created_reachable allow)
    (Step.semop (by decide) rfl fun _ ho => Option.some.inj ho ▸ rfl)

/- The second of two decrements cannot be done, and the first is taken back. -/
theorem semop_run_nowait : posted.k.val 0 = 1 ∧
    (semop tiny 1 root 0 2 (some [down, tryDown]) posted.k).2.1 = .err .eagain ∧
    Untouched posted.k (semop tiny 1 root 0 2 (some [down, tryDown]) posted.k).1 :=
  ⟨by decide, by decide, ((semop_run (posted_reachable _)).1 _ _ _ _ _).1 (by decide)⟩

/-- No process is passed over: whoever is asleep on a counter has it above zero, and the
operation it sleeps over cannot be done behind those before it in its vector. -/
theorem semaphore_wakeup_run (h : (system info pt fun _ _ _ => True).Reachable w) {ch : Chan}
    (hp : w.k.wchan p = some ch) :
    0 < w.k.cnt ch ∧ ∃ c, w.call p = some c ∧ c.chan = ch ∧ Blocked w.k ch c.op c.done := by
  have hg := reachable_good h
  obtain ⟨c, hc, rfl⟩ := hg.asleep p ch hp
  exact ⟨hg.sound.attended p _ hp, c, hc, rfl, hg.blocked p c hc hp⟩

/- Process 1 sleeps over the second of two decrements of a semaphore that is 1. -/
def twoDown : World := posted.semop tiny 1 root 0 2 (some [down, down])

theorem twoDown_reachable (allow : Tables → Args → List Sembuf → Prop) :
    (system tiny procs allow).Reachable twoDown :=
  System.reachable_step (posted_reachable allow)
    (Step.semop (by decide) rfl fun _ ho => Option.some.inj ho ▸ rfl)

theorem semaphore_wakeup_run_twoDown : twoDown.k.wchan 1 = some (.ncnt 0) ∧
    0 < twoDown.k.cnt (.ncnt 0) ∧ ∃ c, twoDown.call 1 = some c ∧ c.chan = .ncnt 0 ∧
      Blocked twoDown.k (.ncnt 0) c.op c.done :=
  ⟨rfl, semaphore_wakeup_run (twoDown_reachable _) rfl⟩

/-- The semval alone may be enough for the operation a process sleeps over. -/
theorem semaphore_sleeps_at_one : ¬ ∀ (info : Seminfo) (pt : ProcTab) (w : World) (p : Nat)
    (ch : Chan), (system info pt fun _ _ _ => True).Reachable w → w.k.wchan p = some ch →
      0 < w.k.cnt ch ∧ ∃ c, w.call p = some c ∧ c.chan = ch ∧
        match ch with
        | .ncnt i => w.k.val i < -c.op.semOp
        | .zcnt i => w.k.val i ≠ 0 := by
  intro h
  obtain ⟨-, c, hc, -, hlt⟩ := h tiny procs twoDown 1 (.ncnt 0) (twoDown_reachable _) rfl
  have hval : twoDown.k.val 0 = 1 := by decide
  have hop : twoDown.call 1 = some ⟨⟨0, 0, 2, root, true⟩, .ncnt 0, down, [down]⟩ := rfl
  rw [hop] at hc
  cases hc
  change twoDown.k.val 0 < 1 at hlt
  omega

end Svr32.Semaphore

/-! semop and its set: the check of the operations is made once, and the vector is read
again after each sleep. As long as what is read then would pass the check no call leaves
its set; otherwise it may. -/
namespace Svr32.Semaphore
open Svr32.Lib Svr32.Ipc
variable {info : Seminfo} {pt : ProcTab} {w : World} {p : Nat}

/- What the check of semop asks of every operation. -/
def Checked (k : Tables) (a : Args) (ops : List Sembuf) : Prop :=
  ∀ op ∈ ops, op.semNum < (k.sema a.s).semNsems ∧ (op.semOp ≠ 0 → a.mayAlter = true)

theorem semopCheck_spec {u : Cred} {sp : SemidDs} {ops : List Sembuf}
    (h : semopCheck u sp ops = none) : ∀ op ∈ ops, op.semNum < sp.semNsems ∧
      (op.semOp ≠ 0 → ipcaccess u sp.perm semA = true) := by
  induction ops with
  | nil => simp
  | cons op ops ih =>
    simp only [semopCheck] at h
    by_cases hacc : ipcaccess u sp.perm (if op.semOp ≠ 0 then semA else semR) = false
    · rw [if_pos hacc] at h
      cases h
    · rw [if_neg hacc] at h
      by_cases hnum : op.semNum ≥ sp.semNsems
      · rw [if_pos hnum] at h
        cases h
      · rw [if_neg hnum] at h
        intro a ha
        cases List.mem_cons.mp ha with
        | inl he =>
          rw [he]
          refine ⟨not_le.mp hnum, fun hne => ?_⟩
          rw [if_pos hne] at hacc
          simpa using hacc
        | inr ha => exact ih h a ha

/- Every access is to a semaphore of the set, and no operation alters without permission. -/
def Confined (w : World) : Prop :=
  ∀ a ∈ w.accesses, a.semNum < a.semNsems ∧ (a.alter = true → a.mayAlter = true)

/-- A turn over operations that meet the check stays inside the set. -/
theorem Confined.turn (h : Confined w) {a : Args} {r : Tables × Stop × List Sembuf}
    (hr : Checked w.k a r.2.2) : Confined (w.turn p a r) := by
  intro x hx
  cases List.mem_append.mp hx with
  | inl hx =>
    obtain ⟨op, hop, rfl⟩ := List.mem_map.mp hx
    exact ⟨(hr op hop).1, fun halt => (hr op hop).2 (by simpa [access] using halt)⟩
  | inr hx => exact h x hx

theorem confined_step (h : Good info pt w ∧ Confined w) {w' : World}
    (hstep : Step info pt Checked w w') : Good info pt w' ∧ Confined w' := by
  refine ⟨good_step h.1 hstep, ?_⟩
  obtain ⟨hg, hc⟩ := h
  cases hstep with
  | @semop p u semid nsops sops _ _ _ =>
    refine hc.turn ?_
    cases semop_cases info p u semid nsops sops w.k with
    | inl he =>
      obtain ⟨e, he⟩ := he
      rw [he]
      exact fun op hop => absurd hop List.not_mem_nil
    | inr hp =>
      obtain ⟨s, ops, hs, -, hcheck, hp⟩ := hp
      rw [hp, hs]
      exact fun op hop =>
        semopCheck_spec hcheck op ((semopPass_spec hg.sound u.pid ops).2.1 op hop)
  | @wakeup p c sops _ _ _ hallow =>
    refine hc.turn ?_
    cases semopAgain_cases info p c.args.cred c.args.semid c.args.s sops w.k with
    | inl he =>
      obtain ⟨e, he⟩ := he
      rw [he]
      exact fun op hop => absurd hop List.not_mem_nil
    | inr hp =>
      obtain ⟨s, ops, -, hops, hp⟩ := hp
      rw [hp]
      exact fun op hop => hallow ops hops op
        ((semopPass_spec hg.sound c.args.cred.pid ops).2.1 op hop)
  | signal hcall => exact hc
  | semctl hr =>
    simp only [World.semctl, Option.map_eq_some_iff] at hr
    obtain ⟨r, -, rfl⟩ := hr
    exact hc
  | semget hr =>
    simp only [World.semget, Option.map_eq_some_iff] at hr
    obtain ⟨r, -, rfl⟩ := hr
    exact hc
  | semexit hcall => exact hc

/-- In a run where each vector read again after a sleep would pass the check, no call of
semop leaves its set or alters without permission. -/
theorem semop_confined_run (h : (system info pt Checked).Reachable w) :
    ∀ a ∈ w.accesses, a.semNum < a.semNsems ∧ (a.alter = true → a.mayAlter = true) := by
  refine (System.invariant (fun w => Good info pt w ∧ Confined w) (fun w h₀ => ?_)
    (fun _ _ hi => confined_step hi) h).2
  refine ⟨good_init h₀, ?_⟩
  obtain ⟨-, -, -, hacc⟩ := h₀
  simp [Confined, hacc]

/- A second set, and process 1, which may only read, asleep until the first semaphore is 0. -/
def user : Cred := ⟨5, 5, 2⟩
def isZero : Sembuf := ⟨0, 0, 0, by decide, by decide⟩
def two : World := (posted.semget tiny root ipcPrivate 1 0o4).getD posted
def waiting : World := two.semop tiny 1 user 0 1 (some [isZero])
def ready : World := waiting.semop tiny 0 root 0 1 (some [down])

/- Meanwhile its vector has become an addition to sem[1], with SEM_UNDO. -/
def stray : Sembuf := ⟨1, 1, semUndoFlg, by decide, by decide⟩
def strayed : World := ready.again tiny 1 ⟨0, 0, 1, user, false⟩ (some [stray])

theorem waiting_reachable (allow : Tables → Args → List Sembuf → Prop) :
    (system tiny procs allow).Reachable waiting := by
  have h := System.reachable_step (posted_reachable allow)
    (Step.semget (rfl : posted.semget tiny root ipcPrivate 1 0o4 = some two))
  exact System.reachable_step h (Step.semop (by decide) rfl fun _ ho => Option.some.inj ho ▸ rfl)

theorem strayed_reachable : (system tiny procs fun _ _ _ => True).Reachable strayed := by
  have h := System.reachable_step (waiting_reachable fun _ _ _ => True)
    (Step.semop (by decide) rfl fun _ ho => Option.some.inj ho ▸ rfl :
      Step tiny procs (fun _ _ _ => True) waiting ready)
  have hcall : ready.call 1 = some ⟨⟨0, 0, 1, user, false⟩, .zcnt 0, isZero, []⟩ := rfl
  exact System.reachable_step h (Step.wakeup hcall rfl (fun _ ho => Option.some.inj ho ▸ rfl)
    fun _ _ => trivial)

theorem semop_confined_run_waiting : waiting.accesses.Forall fun a =>
    a.semNum < a.semNsems ∧ (a.alter = true → a.mayAlter = true) :=
  List.forall_iff_forall_mem.mpr (semop_confined_run (waiting_reachable _))

/-- What is read again is not checked: the semaphore of another set is altered, by a process
that may only read. -/
theorem semop_leaves_its_set : ¬ ∀ (info : Seminfo) (pt : ProcTab) (w : World),
    (system info pt fun _ _ _ => True).Reachable w →
      ∀ a ∈ w.accesses, a.semNum < a.semNsems ∧ (a.alter = true → a.mayAlter = true) := by
  intro h
  have ha := h tiny procs strayed strayed_reachable ⟨1, 1, true, false⟩ (by decide)
  exact absurd ha.1 (by decide)

end Svr32.Semaphore
