import Svr32.Semaphore.Rollback
import Svr32.Semaphore.Semctl

/-! What semctl, semget and semexit do to the semvals and to the processes asleep: the
semvals stay in range, and nobody who could go on sleeps on. -/
namespace Svr32.Semaphore
open Svr32.Lib Svr32.Ipc
variable {info : Seminfo} {k : Tables}

/- From `k` to `k'` only semvals and counters change, within their range. -/
structure Calm (info : Seminfo) (k k' : Tables) : Prop where
  quiet : Quiet k k'
  range : InRange info k'.val
  rest : SameRest k k'

theorem Calm.refl (h : InRange info k.val) : Calm info k k :=
  ⟨Quiet.refl k, h, SameRest.refl k⟩

theorem Calm.trans {k₁ k₂ : Tables} (h : Calm info k k₁) (h' : Calm info k₁ k₂) :
    Calm info k k₂ :=
  ⟨h.quiet.trans h'.quiet, h'.range, h.rest.trans h'.rest⟩

theorem Calm.wake (hk : Attended k) (h : InRange info k.val) (c : Chan) :
    Calm info k (k.wake c) :=
  ⟨wake_quiet hk c, fun i => by rw [Tables.val_wake]; exact h i, SameRest.wake c k⟩

def Tables.setPid (i pid : Int) (k : Tables) : Tables :=
  k.setSem i { k.sem i with sempid := pid }

@[simp] theorem Tables.val_setPid (i pid j : Int) (k : Tables) :
    (k.setPid i pid).val j = k.val j := by
  by_cases h : j = i <;> simp [val, setPid, setSem, h]

theorem kept_setPid (i pid : Int) (k : Tables) (c : Chan) : Kept c k (k.setPid i pid) := by
  refine ⟨?_, fun _ => Iff.rfl⟩
  cases c with
  | ncnt j | zcnt j =>
    by_cases h : j = i <;> simp [Tables.cnt, Tables.setPid, Tables.setSem, h]

theorem Calm.setPid (h : InRange info k.val) (i pid : Int) : Calm info k (k.setPid i pid) :=
  ⟨⟨fun c => .inr (kept_setPid i pid k c), fun j => .inr (by simp), fun j => .inr (by simp)⟩,
    fun j => by rw [Tables.val_setPid]; exact h j, ⟨rfl, rfl, rfl⟩⟩

theorem setPids_calm (h : InRange info k.val) (pid : Int) (base : Nat) (ops : List Sembuf) :
    Calm info k (setPids pid base ops k) := by
  induction ops generalizing k with
  | nil => exact Calm.refl h
  | cons op ops ih =>
    have h₁ : Calm info k (k.setPid (base + op.semNum) (i16 pid)) := Calm.setPid h _ _
    exact h₁.trans (ih h₁.range)

theorem setPids_val (pid : Int) (base : Nat) (ops : List Sembuf) (k : Tables) (i : Int) :
    (setPids pid base ops k).val i = k.val i := by
  induction ops generalizing k with
  | nil => rfl
  | cons op ops ih => exact (ih _).trans (Tables.val_setPid ..)

/-- SETVAL of one semaphore wakes whoever waits for the new semval. -/
theorem setSemval_calm (hk : Attended k) (h : InRange info k.val) (i : Int) {v : Int}
    (hv : 0 ≤ v ∧ v ≤ info.semvmx) : Calm info k (setSemval i v k) := by
  have h₁ : Attended (k.setVal i v) := attended_setVal hk i v
  have hin : InRange info (k.setVal i v).val := by
    intro j
    rw [Tables.val_setVal]
    split
    · exact hv
    · exact h j
  have hrest : SameRest k (k.setVal i v) := ⟨rfl, rfl, rfl⟩
  simp only [setSemval]
  by_cases h0 : v = 0
  · rw [if_neg (not_not.mpr h0)]
    have hw := Calm.wake h₁ hin (.zcnt i)
    exact ⟨Quiet.setVal (wake_moved h₁ _) (fun j => by simp) (.inr (h0 ▸ (h i).1))
      (.inl (wake_woken h₁ _)), hw.range, hrest.trans hw.rest⟩
  · rw [if_pos h0]
    have hw := Calm.wake h₁ hin (.ncnt i)
    exact ⟨Quiet.setVal (wake_moved h₁ _) (fun j => by simp) (.inl (wake_woken h₁ _))
      (.inr fun hz => absurd hz h0), hw.range, hrest.trans hw.rest⟩

/-- IPC_RMID wakes everybody who sleeps on the semaphore. -/
theorem rmidSem_calm (hk : Attended k) (h : InRange info k.val) (i : Int) :
    Calm info k (rmidSem i k) := by
  have hp := Calm.setPid h i 0
  have hkp := hp.quiet.attended hk
  have h₁ : Attended ((k.setPid i 0).setVal i 0) := attended_setVal hkp i 0
  have hin : InRange info ((k.setPid i 0).setVal i 0).val := by
    intro j
    rw [Tables.val_setVal]
    split
    · exact ⟨le_rfl, info.semvmx_nonneg⟩
    · exact hp.range j
  have heq : k.setSem i { k.sem i with semval := 0, sempid := 0 } =
      (k.setPid i 0).setVal i 0 := by
    simp [Tables.setPid, Tables.setVal, Tables.setSem]
  have hw₁ := Calm.wake h₁ hin (.ncnt i)
  have h₂ := hw₁.quiet.attended h₁
  have hw₂ := Calm.wake h₂ hw₁.range (.zcnt i)
  have hrest : SameRest (k.setPid i 0) ((k.setPid i 0).setVal i 0) := ⟨rfl, rfl, rfl⟩
  simp only [rmidSem, heq]
  refine hp.trans ⟨Quiet.setVal (i := i) (v := 0) (fun c => moved_trans (hw₁.quiet.chans c)
    (hw₂.quiet.chans c)) (fun j => by simp) ?_ (.inl (wake_woken h₂ _)), hw₂.range,
    hrest.trans (hw₁.rest.trans hw₂.rest)⟩
  exact .inr (hp.range i).1

/-- A walk over the semaphores of a set. -/
theorem forSems_calm {f : Nat → Int → Tables → Tables} (base n : Nat)
    (hf : ∀ m < n, ∀ i k, Attended k → InRange info k.val → Calm info k (f m i k))
    (hk : Attended k) (h : InRange info k.val) : Calm info k (forSems f base n k) := by
  induction n with
  | zero => exact Calm.refl h
  | succ n ih =>
    have h₁ := ih fun m hm => hf m (Nat.lt_succ_of_lt hm)
    exact h₁.trans (hf n (Nat.lt_succ_self n) _ _ (h₁.quiet.attended hk) h₁.range)

/-- One adjustment of semexit; an entry below zero wakes nobody for more. -/
theorem semexitEnt_calm (hk : Attended k) (h : InRange info k.val) (e : Undo) :
    Calm info k (semexitEnt info e k) := by
  simp only [semexitEnt]
  cases semconv info e.unId k with
  | none => exact Calm.refl h
  | some s =>
    simp only
    generalize ((k.sema s).semBase + e.unNum : Int) = i
    have hval : (k.sem i).semval = k.val i := rfl
    rw [hval]
    by_cases hbad : k.val i + e.unAoe < 0 ∨ k.val i + e.unAoe > info.semvmx
    · rw [if_pos hbad]
      exact Calm.refl h
    · rw [if_neg hbad]
      generalize hv : k.val i + e.unAoe = v
      have h₁ : Attended (k.setVal i v) := attended_setVal hk i v
      have hin : InRange info (k.setVal i v).val := by
        intro j
        rw [Tables.val_setVal]
        split
        · omega
        · exact h j
      have hz : Calm info (k.setVal i v)
          (if v = 0 then (k.setVal i v).wake (.zcnt i) else k.setVal i v) := by
        split
        · exact Calm.wake h₁ hin _
        · exact Calm.refl hin
      have hwz : Woken (.zcnt i) (if v = 0 then (k.setVal i v).wake (.zcnt i) else k.setVal i v) ∨
          (v = 0 → k.val i = 0) := by
        split
        · exact .inl (wake_woken h₁ _)
        · rename_i h0
          exact .inr fun hz => absurd hz h0
      have hvz : ∀ j, (if v = 0 then (k.setVal i v).wake (.zcnt i) else k.setVal i v).val j =
          (k.setVal i v).val j := by
        intro j
        split
        · exact Tables.val_wake ..
        · rfl
      revert hz hwz hvz
      generalize (if v = 0 then (k.setVal i v).wake (.zcnt i) else k.setVal i v) = k₁
      intro hz hwz hvz
      have h₂ := hz.quiet.attended h₁
      have hrest : SameRest k (k.setVal i v) := ⟨rfl, rfl, rfl⟩
      by_cases hpos : e.unAoe > 0
      · rw [if_pos hpos]
        have hw := Calm.wake h₂ hz.range (.ncnt i)
        refine ⟨Quiet.setVal (fun c => moved_trans (hz.quiet.chans c) (hw.quiet.chans c))
          (fun j => by rw [Tables.val_wake, hvz]) (.inl (wake_woken h₂ _)) ?_, hw.range,
          hrest.trans (hz.rest.trans hw.rest)⟩
        exact hwz.imp_left fun hw' => (hw.quiet.chans (.zcnt i)).elim id hw'.kept
      · rw [if_neg hpos]
        exact ⟨Quiet.setVal hz.quiet.chans hvz (.inr (by omega)) hwz, hz.range,
          hrest.trans hz.rest⟩

theorem semexit_foldr_calm (es : List Undo) (hk : Attended k) (h : InRange info k.val) :
    Calm info k (es.foldr (semexitEnt info) k) := by
  induction es with
  | nil => exact Calm.refl h
  | cons e es ih => exact ih.trans (semexitEnt_calm (ih.quiet.attended hk) ih.range e)

/- Where semaphores and undo entries are in order. -/
structure Sound (info : Seminfo) (k : Tables) : Prop where
  attended : Attended k
  range : InRange info k.val
  undoOk : UndoOk info k.undo

/- The entries of semaphores `low` to `high` of `id` are dropped, and nobody is passed over. -/
structure Cleared (info : Seminfo) (id low high : Int) (k k' : Tables) : Prop where
  quiet : Quiet k k'
  sound : Sound info k'
  semUndo : k'.undo.semUndo = k.undo.semUndo
  entries : ∀ p, entriesOf p k'.undo =
    (entriesOf p k.undo).filter fun e => outside id low high e.key

/-- Dropping entries before or after a calm stretch. -/
theorem Cleared.intro {k' : Tables} {id low high : Int} (hs : Sound info k) (hq : Quiet k k')
    (hr : InRange info k'.val) (hu : k'.undo = semunrm info id low high k.undo) :
    Cleared info id low high k k' := by
  obtain ⟨hok, hsame, hent⟩ := semunrm_spec hs.undoOk id low high
  refine ⟨hq, ⟨hq.attended hs.attended, hr, hu ▸ hok⟩, hu ▸ hsame, fun p => ?_⟩
  rw [hu, hent]

theorem arg_range {arg : Int} (h : ¬ arg % 2 ^ 32 > info.semvmx) :
    0 ≤ u16 arg ∧ u16 arg ≤ info.semvmx := by
  have hlt := info.semvmx_lt
  have hv : u16 arg = arg % 2 ^ 32 % 2 ^ 16 := by
    rw [u16, Int.emod_emod_of_dvd]
    decide
  have hr := u16_range arg
  rw [hv] at hr ⊢
  have hm := Int.emod_nonneg arg (show (2 ^ 32 : Int) ≠ 0 by decide)
  rw [Int.emod_eq_of_lt hm (by omega)] at hr ⊢
  omega

/-- SETVAL: refused without a trace, or one semval set and its entries dropped. -/
theorem semctlSetval_spec (h : Sound info k) (u : Cred) (semid : Int) (s semnum : Nat)
    (arg : Int) :
    (∃ e, semctlSetval info u semid s semnum arg k = (k, .err e)) ∨
      ∃ k', semctlSetval info u semid s semnum arg k = (k', .rval 0) ∧
        semnum < (k.sema s).semNsems ∧ Cleared info semid semnum semnum k k' ∧
        k'.sema = k.sema ∧ k'.semmap = k.semmap := by
  simp only [semctlSetval]
  split
  · exact .inl ⟨_, rfl⟩
  · split
    · exact .inl ⟨_, rfl⟩
    · rename_i hnum
      split
      · exact .inl ⟨_, rfl⟩
      · rename_i harg
        have hset := setSemval_calm h.attended h.range ((k.sema s).semBase + semnum)
          (arg_range harg)
        have hpid := hset.trans (Calm.setPid hset.range ((k.sema s).semBase + semnum) (i16 u.pid))
        refine .inr ⟨_, rfl, not_le.mp hnum, Cleared.intro h (hpid.quiet.congr rfl rfl) hpid.range
          ?_, hpid.rest.sema, hpid.rest.semmap⟩
        exact congrArg (semunrm info semid semnum semnum) hpid.rest.undo

/-- SETALL: the same for all semaphores of the set. -/
theorem semctlSetall_spec (h : Sound info k) (u : Cred) (semid : Int) (s : Nat)
    (semvals : Option (Nat → Int)) :
    (∃ e, semctlSetall info u semid s semvals k = (k, .err e)) ∨
      ∃ k', semctlSetall info u semid s semvals k = (k', .rval 0) ∧
        Cleared info semid 0 (k.sema s).semNsems k k' ∧
        k'.sema = k.sema ∧ k'.semmap = k.semmap := by
  simp only [semctlSetall]
  split
  · exact .inl ⟨_, rfl⟩
  · cases semvals with
    | none => exact .inl ⟨_, rfl⟩
    | some v =>
      simp only
      split
      · exact .inl ⟨_, rfl⟩
      · rename_i hv
        let k₁ : Tables := { k with
          undo := semunrm info semid 0 (k.sema s).semNsems k.undo }
        have hq₁ : Quiet k k₁ := (Quiet.refl k).congr rfl rfl
        have hcalm := @forSems_calm info k₁
          (fun n i k => setSempid i u.pid (setSemval i (u16 (v n)) k)) (k.sema s).semBase
          (k.sema s).semNsems (fun m hm i k' hk' hr' => ?_) (hq₁.attended h.attended) h.range
        · exact .inr ⟨_, rfl, Cleared.intro h (hq₁.trans hcalm.quiet) hcalm.range hcalm.rest.undo,
            hcalm.rest.sema, hcalm.rest.semmap⟩
        · have hle : u16 (v m) ≤ info.semvmx := not_lt.mp fun hlt => hv ⟨m, hm, hlt⟩
          have hset := setSemval_calm hk' hr' i ⟨(u16_range (v m)).1, hle⟩
          exact hset.trans (Calm.setPid hset.range i _)

/-- IPC_RMID: everybody woken, the entries dropped, and the slot given up. -/
theorem semctlRmid_spec (h : Sound info k) {semid : Int} {s : Nat} {k' : Tables} {r : Reply}
    (hr : semctlRmid info semid s k = some (k', r)) :
    Cleared info semid 0 (k.sema s).semNsems k k' ∧ r = .rval 0 ∧
      (∃ seq, k'.sema = Function.update k.sema s { k.sema s with
        perm := { (k.sema s).perm with seq := seq, mode := 0 } }) ∧
      ∃ m, Malloc.mfree k.semmap (k.sema s).semNsems ((k.sema s).semBase + 1) = some m ∧
        k'.semmap = m.map := by
  let k₁ : Tables := { k with undo := semunrm info semid 0 (k.sema s).semNsems k.undo }
  have hq₁ : Quiet k k₁ := (Quiet.refl k).congr rfl rfl
  have hcalm := (@forSems_calm info k₁ (fun _ => rmidSem)) (k.sema s).semBase
    (k.sema s).semNsems (fun m hm i k' hk' hr' => rmidSem_calm hk' hr' i)
    (hq₁.attended h.attended) h.range
  simp only [semctlRmid] at hr
  change (Malloc.mfree (forSems (fun _ => rmidSem) (k.sema s).semBase (k.sema s).semNsems k₁).semmap
    (k.sema s).semNsems ((k.sema s).semBase + 1)).map _ = _ at hr
  rw [hcalm.rest.semmap] at hr
  cases hm : Malloc.mfree k.semmap (k.sema s).semNsems ((k.sema s).semBase + 1) with
  | none =>
    have hm' : Malloc.mfree k₁.semmap (k.sema s).semNsems ((k.sema s).semBase + 1) = none := hm
    rw [hm'] at hr
    cases hr
  | some m =>
    have hm' : Malloc.mfree k₁.semmap (k.sema s).semNsems ((k.sema s).semBase + 1) = some m := hm
    rw [hm'] at hr
    simp only [Option.map_some, Option.some.injEq, Prod.mk.injEq] at hr
    obtain ⟨hk, hrep⟩ := hr
    subst hk
    refine ⟨Cleared.intro h (hq₁.trans (hcalm.quiet.congr rfl rfl)) hcalm.range hcalm.rest.undo,
      hrep.symm, ⟨if i32 (semid + info.semmni) < 0 then 0 else ((k.sema s).perm.seq + 1) % 2 ^ 16,
        ?_⟩, m, rfl, rfl⟩
    show Function.update (forSems _ _ _ k₁).sema s _ = _
    rw [hcalm.rest.sema]

/-- semexit leaves the process without entries. -/
theorem semexit_spec (h : Sound info k) (p : Nat) :
    Quiet k (semexit info p k) ∧ Sound info (semexit info p k) ∧
      (semexit info p k).sema = k.sema ∧ (semexit info p k).semmap = k.semmap ∧
      ∀ q, entriesOf q (semexit info p k).undo = if q = p then [] else entriesOf q k.undo := by
  obtain ⟨chain, free, hI⟩ := h.undoOk
  -- what giving the structure back does to the entries
  have hfreed : ∀ {t : UndoTab} {up : Nat}, (∀ q, entriesOf q t =
        if q = p then [] else entriesOf q k.undo) → t.semUndo p = some up →
      ∀ q, entriesOf q (undoFree p up t) = if q = p then [] else entriesOf q k.undo := by
    intro t up ht hp q
    rw [← ht]
    by_cases hq : q = p
    · subst hq
      simp only [entriesOf, undoFree, Function.update_self]
      have hq := ht q
      rw [if_pos rfl] at hq
      exact hq.symm
    · simp only [entriesOf, undoFree, Function.update_of_ne hq]
  simp only [semexit]
  cases hp : k.undo.semUndo p with
  | none =>
    refine ⟨Quiet.refl k, h, rfl, rfl, fun q => ?_⟩
    by_cases hq : q = p
    · rw [if_pos hq, hq]
      simp only [entriesOf, hp]
    · rw [if_neg hq]
  | some up =>
    simp only
    by_cases hempty : k.undo.ent up = []
    · rw [if_pos hempty]
      refine ⟨(Quiet.refl k).congr rfl rfl, ⟨h.attended, h.range, _, _, hI.release hp hempty⟩, rfl,
        rfl, hfreed (fun q => ?_) hp⟩
      by_cases hq : q = p
      · rw [if_pos hq, hq]
        simp only [entriesOf, hp, hempty]
      · rw [if_neg hq]
    · rw [if_neg hempty]
      have hcalm := semexit_foldr_calm (k.undo.ent up) h.attended h.range
      obtain ⟨chain', hleave⟩ := hI.leave hp hempty k.undo.semfup
      have hrel := hleave.release hp (by simp [undoOff, UndoTab.setEnt])
      have hset := (@UndoInv.entriesOf_setEnt _ _ _ _ _ _ []) hI hp
      have heq : undoFree p up { undoOff info up (k.undo.setEnt up []) with
          np := Function.update (undoOff info up (k.undo.setEnt up [])).np up k.undo.semfup } =
          undoFree p up (undoOff info up (k.undo.setEnt up [])) := by
        simp only [undoFree, undoOff, UndoTab.setEnt, Function.update_idem]
      rw [heq] at hrel
      have hundo : (((k.undo.ent up).foldr (semexitEnt info) k).undo) = k.undo := hcalm.rest.undo
      rw [hundo]
      exact ⟨hcalm.quiet.congr rfl rfl, ⟨hcalm.quiet.attended h.attended, hcalm.range, _, _, hrel⟩, hcalm.rest.sema,
        hcalm.rest.semmap, hfreed hset hp⟩

end Svr32.Semaphore
