import Svr32.Semaphore.Calm
import Mathlib.Data.Finset.Card

/-! semop from one sleep to the next: what a pass, the end of a sleep and a signal leave
of the semvals, the undo entries and the processes asleep. -/
namespace Svr32.Semaphore
open Svr32.Lib Svr32.Ipc
variable {info : Seminfo} {p : Nat} {id : Int} {base : Nat} {k₀ k : Tables}

theorem Restored.refl (h : UndoOk info k.undo) : Restored info k k :=
  ⟨rfl, rfl, fun _ => rfl, h, fun _ => rfl⟩

/- How far a call of semop of the process `p` gets: its operations are performed, or taken
   back, and it may sleep over one of them. -/
structure Turn (info : Seminfo) (p : Nat) (id : Int) (base : Nat) (k₀ : Tables)
    (r : Tables × Stop × List Sembuf) : Prop where
  ok : r.2.1 = .ok → Performed info p id base k₀ r.2.2 r.1 ∧ Quiet k₀ r.1
  err : ∀ e, r.2.1 = .err e → Restored info k₀ r.1 ∧ Quiet k₀ r.1
  sleep : ∀ c, r.2.1 = .sleep c → ∃ k₁ op done, r.1 = sleepOn p c k₁ ∧ r.2.2 = op :: done ∧
    Restored info k₀ k₁ ∧ Quiet k₀ k₁ ∧ Blocked k₀ c op done

theorem Turn.refused (h : UndoOk info k.undo) (e : Errno) : Turn info p id base k (k, .err e, []) :=
  ⟨nofun, fun _ _ => ⟨Restored.refl h, Quiet.refl k⟩, nofun⟩

theorem Performed.calm {done : List Sembuf} {k' : Tables} (h : Performed info p id base k₀ done k)
    (hr : SameRest k k') (hv : ∀ i, k'.val i = k.val i) : Performed info p id base k₀ done k' := by
  refine ⟨hr.sema.trans h.sema, hr.semmap.trans h.semmap, fun i => (hv i).trans (h.vals i),
    h.within, ?_, ?_, ?_, ?_⟩
  · exact hr.undo ▸ h.undoOk
  · exact hr.undo ▸ h.undoes
  · exact hr.undo ▸ h.others
  · exact hr.undo ▸ h.has

theorem Performed.range {done : List Sembuf} (h : Performed info p id base k₀ done k) :
    InRange info k.val := by
  intro i
  rw [h.vals]
  exact h.within done List.suffix_rfl i

/-- A pass looks at operations of its vector only, and at all of them when it ends well. -/
theorem semopPass_spec (h : Sound info k) (pid : Int) (ops : List Sembuf) :
    Turn info p id base k (semopPass info p pid id base ops k) ∧
      (∀ op ∈ (semopPass info p pid id base ops k).2.2, op ∈ ops) ∧
      ((semopPass info p pid id base ops k).2.1 = .ok →
        (semopPass info p pid id base ops k).2.2 = ops.reverse) := by
  have ha := (@semopLoop_spec _ _ id base _ _ _ ops) h.attended
    (h.undoOk.entries p) (Performed.nil h.range h.undoOk) (Quiet.refl k)
  rw [List.append_nil] at ha
  simp only [semopPass]
  revert ha
  generalize semopLoop info p id base [] ops k = r
  obtain ⟨k₁, s, seen⟩ := r
  intro ha
  have hseen : ∀ op ∈ seen, op ∈ ops := fun op hop => List.mem_reverse.mp (ha.seen op hop)
  cases s with
  | ok =>
    obtain ⟨hp, hall⟩ := ha.ok rfl
    have hc := setPids_calm hp.range pid base ops
    simp only at hall
    refine ⟨⟨fun _ => ⟨?_, ha.quiet.trans hc.quiet⟩, nofun, nofun⟩, hseen, fun _ => hall⟩
    simp only [hall]
    exact hp.calm hc.rest (setPids_val pid base ops k₁)
  | err e => exact ⟨⟨nofun, fun _ _ => ⟨ha.failed nofun, ha.quiet⟩, nofun⟩, hseen, nofun⟩
  | sleep c =>
    refine ⟨⟨nofun, nofun, fun c' hc => ?_⟩, hseen, nofun⟩
    cases hc
    obtain ⟨op, done, hs, hb⟩ := ha.blocked c rfl
    exact ⟨k₁, op, done, rfl, hs, ha.failed nofun, ha.quiet, hb⟩

/-- semop stops at a check, or makes a pass over the vector it has checked. -/
theorem semop_cases (info : Seminfo) (p : Nat) (u : Cred) (semid : Int) (nsops : Nat)
    (sops : Option (List Sembuf)) (k : Tables) :
    (∃ e, semop info p u semid nsops sops k = (k, .err e, [])) ∨
      ∃ s ops, semconv info semid k = some s ∧ sops = some ops ∧
        semopCheck u (k.sema s) ops = none ∧ semop info p u semid nsops sops k =
          semopPass info p u.pid semid (k.sema s).semBase ops k := by
  simp only [semop]
  cases semconv info semid k with
  | none => exact .inl ⟨_, rfl⟩
  | some s =>
    simp only
    split
    · exact .inl ⟨_, rfl⟩
    · cases sops with
      | none => exact .inl ⟨_, rfl⟩
      | some ops =>
        simp only
        cases hc : semopCheck u (k.sema s) ops with
        | some e => exact .inl ⟨_, rfl⟩
        | none => exact .inr ⟨s, ops, rfl, rfl, hc, rfl⟩

/-- After a sleep there is no check but for the set itself. -/
theorem semopAgain_cases (info : Seminfo) (p : Nat) (u : Cred) (semid : Int) (s : Nat)
    (sops : Option (List Sembuf)) (k : Tables) :
    (∃ e, semopAgain info p u semid s sops k = (k, .err e, [])) ∨
      ∃ s' ops, semconv info semid k = some s' ∧ sops = some ops ∧
        semopAgain info p u semid s sops k =
          semopPass info p u.pid semid (k.sema s).semBase ops k := by
  simp only [semopAgain]
  cases semconv info semid k with
  | none => exact .inl ⟨_, rfl⟩
  | some s' =>
    cases sops with
    | none => exact .inl ⟨_, rfl⟩
    | some ops => exact .inr ⟨s', ops, rfl, rfl, rfl⟩

theorem semop_turn (h : Sound info k) (u : Cred) (semid : Int) (nsops : Nat)
    (sops : Option (List Sembuf)) : ∃ s, Turn info p semid (k.sema s).semBase k
      (semop info p u semid nsops sops k) := by
  cases semop_cases info p u semid nsops sops k with
  | inl he =>
    obtain ⟨e, he⟩ := he
    rw [he]
    exact ⟨0, Turn.refused h.undoOk e⟩
  | inr hp =>
    obtain ⟨s, ops, -, -, -, hp⟩ := hp
    rw [hp]
    exact ⟨s, (semopPass_spec h u.pid ops).1⟩

theorem semopAgain_turn (h : Sound info k) (u : Cred) (semid : Int) (s : Nat)
    (sops : Option (List Sembuf)) : Turn info p semid (k.sema s).semBase k
      (semopAgain info p u semid s sops k) := by
  cases semopAgain_cases info p u semid s sops k with
  | inl he =>
    obtain ⟨e, he⟩ := he
    rw [he]
    exact Turn.refused h.undoOk e
  | inr hp =>
    obtain ⟨s', ops, -, -, hp⟩ := hp
    rw [hp]
    exact (semopPass_spec h u.pid ops).1

/- The processes asleep on `c`. -/
def sleepers (nproc : Nat) (k : Tables) (c : Chan) : Finset Nat :=
  (Finset.range nproc).filter fun p => k.wchan p = some c

theorem sleepers_le (nproc : Nat) (k : Tables) (c : Chan) : (sleepers nproc k c).card ≤ nproc := by
  have hsub : sleepers nproc k c ⊆ Finset.range nproc := Finset.filter_subset _ _
  simpa using Finset.card_le_card hsub

/- The counters count sleepers; a process a signal has woken may have been counted off
   twice, so they can fall behind. -/
def Counted (nproc : Nat) (k : Tables) : Prop :=
  ∀ c, 0 ≤ k.cnt c ∧ k.cnt c ≤ (sleepers nproc k c).card

variable {nproc : Nat}

theorem Quiet.counted {k' : Tables} (h : Quiet k k') (hk : Counted nproc k) :
    Counted nproc k' := by
  intro c
  cases h.chans c with
  | inl hw =>
    rw [hw.1]
    exact ⟨le_rfl, Int.natCast_nonneg _⟩
  | inr hkept =>
    have he : sleepers nproc k' c = sleepers nproc k c :=
      Finset.filter_congr fun p _ => hkept.2 p
    rw [hkept.1, he]
    exact hk c

theorem Quiet.blocked {k' : Tables} (h : Quiet k k') {c : Chan} {op : Sembuf}
    {done : List Sembuf} (hp : k'.wchan p = some c) (hb : Blocked k c op done) :
    Blocked k' c op done := by
  cases c with
  | ncnt i =>
    have hle := (h.ncnt i).resolve_left fun hw => hw.2 p hp
    exact ⟨hb.1, by have := hb.2; omega⟩
  | zcnt i =>
    have hz := (h.zcnt i).resolve_left fun hw => hw.2 p hp
    exact ⟨hb.1, hb.2.imp_left fun hn h0 => hn (hz h0)⟩

/-- Who sleeps after a quiet stretch has slept before. -/
theorem Quiet.slept {k' : Tables} (h : Quiet k k') {c : Chan} (hp : k'.wchan p = some c) :
    k.wchan p = some c :=
  (h.chans c).elim (fun hw => absurd hp (hw.2 p)) fun hk => (hk.2 p).mp hp

/-- A process goes to sleep: it is counted, and nothing else moves. -/
theorem sleepOn_spec (hp : p < nproc) (hn : nproc < 2 ^ 16) (ha : Attended k)
    (hk : Counted nproc k) (hw : k.wchan p = none) (c : Chan) :
    (∀ i, (sleepOn p c k).val i = k.val i) ∧ SameRest k (sleepOn p c k) ∧
      (∀ q, (sleepOn p c k).wchan q = if q = p then some c else k.wchan q) ∧
      Attended (sleepOn p c k) ∧ Counted nproc (sleepOn p c k) := by
  have hval : ∀ i, (sleepOn p c k).val i = k.val i := fun i => Tables.val_setCnt c _ i k
  have hrest : SameRest k (sleepOn p c k) :=
    ⟨Tables.sema_setCnt c _ k, Tables.semmap_setCnt c _ k, Tables.undo_setCnt c _ k⟩
  have hchan : ∀ q, (sleepOn p c k).wchan q = if q = p then some c else k.wchan q := by
    intro q
    by_cases hq : q = p <;> simp [sleepOn, hq]
  have hcnt : ∀ d, (sleepOn p c k).cnt d = if d = c then u16 (k.cnt c + 1) else k.cnt d :=
    fun d => Tables.cnt_setCnt c d _ k
  have hnot : p ∉ sleepers nproc k c := by simp [sleepers, hw]
  have hins : sleepers nproc (sleepOn p c k) c = insert p (sleepers nproc k c) := by
    ext q
    simp only [sleepers, Finset.mem_filter, Finset.mem_range, Finset.mem_insert, hchan]
    by_cases hq : q = p <;> simp [hq, hp]
  have hcard : (insert p (sleepers nproc k c)).card ≤ nproc := by
    have hsub : insert p (sleepers nproc k c) ⊆ Finset.range nproc :=
      Finset.insert_subset (Finset.mem_range.mpr hp) (Finset.filter_subset _ _)
    simpa using Finset.card_le_card hsub
  rw [Finset.card_insert_of_notMem hnot] at hcard
  obtain ⟨h0, hle⟩ := hk c
  have hu : u16 (k.cnt c + 1) = k.cnt c + 1 := u16_eq (by omega) (by omega)
  refine ⟨hval, hrest, hchan, fun q d hq => ?_, fun d => ?_⟩
  · rw [hcnt]
    split
    · rw [hu]
      omega
    · rename_i hd
      rw [hchan] at hq
      split at hq
      · cases hq
        exact absurd rfl hd
      · exact ha q d hq
  · rw [hcnt]
    by_cases hd : d = c
    · rw [hd, if_pos rfl, hu, hins, Finset.card_insert_of_notMem hnot]
      omega
    · rw [if_neg hd]
      have he : sleepers nproc (sleepOn p c k) d = sleepers nproc k d := by
        refine Finset.filter_congr fun q _ => ?_
        rw [hchan]
        split
        · rename_i hq
          rw [hq, hw]
          simp [Ne.symm hd]
        · rfl
      rw [he]
      exact hk d

/-- A signal: the counter goes down, and at its last count everybody is woken. The process
may have been woken before, and others may sleep on the channel since. -/
theorem semopIntr_spec (hn : nproc < 2 ^ 16) (ha : Attended k)
    (hk : Counted nproc k) {c : Chan} (hw : ∀ d, k.wchan p = some d → d = c) :
    (∀ i, (semopIntr p c k).val i = k.val i) ∧ SameRest k (semopIntr p c k) ∧
      (∀ q d, (semopIntr p c k).wchan q = some d → q ≠ p ∧ k.wchan q = some d) ∧
      Attended (semopIntr p c k) ∧ Counted nproc (semopIntr p c k) := by
  let k₁ : Tables := { k with wchan := Function.update k.wchan p none }
  have hcnt₁ : ∀ d, k₁.cnt d = k.cnt d := fun d => by cases d <;> rfl
  have hchan₁ : ∀ q, k₁.wchan q = if q = p then none else k.wchan q := fun q => by
    by_cases hq : q = p <;> simp [k₁, hq]
  have hslept : ∀ q d, k₁.wchan q = some d → q ≠ p ∧ k.wchan q = some d := by
    intro q d hq
    rw [hchan₁] at hq
    split at hq
    · cases hq
    · exact ⟨by assumption, hq⟩
  obtain ⟨h0, hle⟩ := hk c
  have hothers : ∀ d, d ≠ c → sleepers nproc k₁ d = sleepers nproc k d := by
    intro d hd
    refine Finset.filter_congr fun q _ => ?_
    rw [hchan₁]
    split
    · rename_i hq
      simp only [reduceCtorEq, false_iff, hq]
      exact fun hs => hd (hw d hs)
    · rfl
  by_cases hlast : k.cnt c ≤ 1
  · -- nobody is left on the channel
    let k' := ((k₁.setCnt c (u16 (k₁.cnt c - 1))).setCnt c 0).wakeup c
    have hres : semopIntr p c k = k' := if_pos (hcnt₁ c ▸ hlast)
    rw [hres]
    have hcnt : ∀ d, k'.cnt d = if d = c then 0 else k.cnt d := by
      intro d
      show ((k₁.setCnt c _).setCnt c 0).cnt d = _
      by_cases hd : d = c <;> simp [hd, hcnt₁]
    have hchan : ∀ q, k'.wchan q = if k₁.wchan q = some c then none else k₁.wchan q := by
      intro q
      simp only [k', Tables.wakeup, Tables.wchan_setCnt]
    have hout : ∀ q d, k'.wchan q = some d → d ≠ c ∧ k₁.wchan q = some d := by
      intro q d hq
      rw [hchan] at hq
      split at hq
      · cases hq
      · rename_i hne
        exact ⟨fun hd => hne (hd ▸ hq), hq⟩
    refine ⟨fun i => ?_, ⟨?_, ?_, ?_⟩, fun q d hq => hslept q d (hout q d hq).2, fun q d hq => ?_,
      fun d => ?_⟩
    · show ((k₁.setCnt c _).setCnt c 0).val i = _
      simp only [Tables.val_setCnt]
      rfl
    · simp [k', k₁, Tables.wakeup]
    · simp [k', k₁, Tables.wakeup]
    · simp [k', k₁, Tables.wakeup]
    · rw [hcnt, if_neg (hout q d hq).1]
      exact ha q d (hslept q d (hout q d hq).2).2
    · rw [hcnt]
      by_cases hd : d = c
      · rw [if_pos hd]
        exact ⟨le_rfl, Int.natCast_nonneg _⟩
      · have he : sleepers nproc k' d = sleepers nproc k d := by
          rw [← hothers d hd]
          refine Finset.filter_congr fun q _ => ⟨fun hq => (hout q d hq).2, fun hq => ?_⟩
          rw [hchan, hq, if_neg fun he => hd (Option.some.inj he)]
        rw [if_neg hd, he]
        exact hk d
  · let k' := k₁.setCnt c (u16 (k₁.cnt c - 1))
    have hres : semopIntr p c k = k' := if_neg (hcnt₁ c ▸ hlast)
    rw [hres]
    have hcard := sleepers_le nproc k c
    have hcnt : ∀ d, k'.cnt d = if d = c then k.cnt c - 1 else k.cnt d := by
      intro d
      simp only [k', Tables.cnt_setCnt, hcnt₁]
      rw [u16_eq (by omega) (by omega)]
    have hchan : ∀ q, k'.wchan q = k₁.wchan q := fun q => by
      simp only [k', Tables.wchan_setCnt]
    have herase : (sleepers nproc k c).card ≤ (sleepers nproc k' c).card + 1 := by
      have hsub : sleepers nproc k c ⊆ insert p (sleepers nproc k' c) := by
        intro q hq
        simp only [sleepers, Finset.mem_filter, Finset.mem_insert, hchan, hchan₁] at hq ⊢
        by_cases hqp : q = p <;> simp [hqp, hq]
      exact (Finset.card_le_card hsub).trans (Finset.card_insert_le _ _)
    refine ⟨fun i => ?_, ⟨?_, ?_, ?_⟩, fun q d hq => hslept q d (hchan q ▸ hq), fun q d hq => ?_,
      fun d => ?_⟩
    · simp only [k', Tables.val_setCnt]
      rfl
    · simp [k', k₁]
    · simp [k', k₁]
    · simp [k', k₁]
    · rw [hcnt]
      split
      · omega
      · exact ha q d (hslept q d (hchan q ▸ hq)).2
    · rw [hcnt]
      by_cases hd : d = c
      · rw [hd, if_pos rfl]
        omega
      · have he : sleepers nproc k' d = sleepers nproc k d := by
          rw [← hothers d hd]
          exact Finset.filter_congr fun q _ => by rw [hchan]
        rw [if_neg hd, he]
        exact hk d

end Svr32.Semaphore
