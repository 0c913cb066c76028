import Svr32.Semaphore.Semop
import Mathlib.Algebra.Order.Group.Int

/-! The wait counters: what a change of semvals does to the processes asleep. Over a
stretch of code every channel is either woken or as it was, and where it is as it was
the semval has not moved towards the sleepers. -/
namespace Svr32.Semaphore
open Svr32.Lib

namespace Tables

def val (k : Tables) (i : Int) : Int := (k.sem i).semval

@[simp] theorem val_setVal (i j : Int) (v : Int) (k : Tables) :
    (k.setVal i v).val j = if j = i then v else k.val j := by
  by_cases h : j = i <;> simp [val, setVal, setSem, h]

@[simp] theorem val_setCnt (c : Chan) (n j : Int) (k : Tables) :
    (k.setCnt c n).val j = k.val j := by
  cases c with
  | ncnt i | zcnt i =>
    by_cases h : j = i
    · simp [val, setCnt, setSem, h]
    · simp [val, setCnt, setSem, Function.update_of_ne h]

@[simp] theorem cnt_setVal (i : Int) (v : Int) (c : Chan) (k : Tables) :
    (k.setVal i v).cnt c = k.cnt c := by
  cases c with
  | ncnt j | zcnt j =>
    by_cases h : j = i
    · simp [cnt, setVal, setSem, h]
    · simp [cnt, setVal, setSem, Function.update_of_ne h]

@[simp] theorem cnt_setCnt (c d : Chan) (n : Int) (k : Tables) :
    (k.setCnt c n).cnt d = if d = c then n else k.cnt d := by
  cases c with
  | ncnt i | zcnt i =>
    cases d with
    | ncnt j | zcnt j =>
      by_cases h : j = i <;> simp [cnt, setCnt, setSem, h]

@[simp] theorem wchan_setVal (i : Int) (v : Int) (k : Tables) :
    (k.setVal i v).wchan = k.wchan := rfl

@[simp] theorem wchan_setCnt (c : Chan) (n : Int) (k : Tables) :
    (k.setCnt c n).wchan = k.wchan := by cases c <;> rfl

@[simp] theorem sema_setCnt (c : Chan) (n : Int) (k : Tables) :
    (k.setCnt c n).sema = k.sema := by cases c <;> rfl

@[simp] theorem semmap_setCnt (c : Chan) (n : Int) (k : Tables) :
    (k.setCnt c n).semmap = k.semmap := by cases c <;> rfl

@[simp] theorem undo_setCnt (c : Chan) (n : Int) (k : Tables) :
    (k.setCnt c n).undo = k.undo := by cases c <;> rfl

theorem addVal_eq (i d : Int) (k : Tables) : k.addVal i d = k.setVal i (u16 (k.val i + d)) := rfl

@[simp] theorem val_wake (c : Chan) (j : Int) (k : Tables) : (k.wake c).val j = k.val j := by
  simp only [wake]
  split
  · exact val_setCnt c 0 j k
  · rfl

@[simp] theorem val_wakeZero (i j : Int) (k : Tables) : (k.wakeZero i).val j = k.val j := by
  simp only [wakeZero]
  split
  · exact val_wake _ j k
  · rfl

end Tables

/- The parts of the tables that no counter and no semval is in. -/
structure SameRest (k k' : Tables) : Prop where
  sema : k'.sema = k.sema
  semmap : k'.semmap = k.semmap
  undo : k'.undo = k.undo

theorem SameRest.refl (k : Tables) : SameRest k k := ⟨rfl, rfl, rfl⟩

theorem SameRest.trans {k k₁ k₂ : Tables} (h : SameRest k k₁) (h' : SameRest k₁ k₂) :
    SameRest k k₂ :=
  ⟨h'.sema.trans h.sema, h'.semmap.trans h.semmap, h'.undo.trans h.undo⟩

theorem SameRest.wake (c : Chan) (k : Tables) : SameRest k (k.wake c) := by
  simp only [Tables.wake]
  split
  · exact ⟨Tables.sema_setCnt c 0 k, Tables.semmap_setCnt c 0 k, Tables.undo_setCnt c 0 k⟩
  · exact SameRest.refl k

theorem SameRest.wakeZero (i : Int) (k : Tables) : SameRest k (k.wakeZero i) := by
  simp only [Tables.wakeZero]
  split
  · exact SameRest.wake _ k
  · exact SameRest.refl k

/- Nobody sleeps on `c` and its counter is zero. -/
def Woken (c : Chan) (k : Tables) : Prop := k.cnt c = 0 ∧ ∀ p, k.wchan p ≠ some c

/- The same processes sleep on `c`, counted the same. -/
def Kept (c : Chan) (k k' : Tables) : Prop :=
  k'.cnt c = k.cnt c ∧ ∀ p, k'.wchan p = some c ↔ k.wchan p = some c

/- Where a process sleeps, the counter is above zero. -/
def Attended (k : Tables) : Prop := ∀ p c, k.wchan p = some c → 0 < k.cnt c

/- From `k` to `k'` no process went to sleep, and none was passed over. -/
structure Quiet (k k' : Tables) : Prop where
  chans : ∀ c, Woken c k' ∨ Kept c k k'
  ncnt : ∀ i, Woken (.ncnt i) k' ∨ k'.val i ≤ k.val i
  zcnt : ∀ i, Woken (.zcnt i) k' ∨ (k'.val i = 0 → k.val i = 0)

theorem Kept.refl (c : Chan) (k : Tables) : Kept c k k := ⟨rfl, fun _ => Iff.rfl⟩

theorem Kept.trans {c : Chan} {k k₁ k₂ : Tables} (h : Kept c k k₁) (h' : Kept c k₁ k₂) :
    Kept c k k₂ :=
  ⟨h'.1.trans h.1, fun p => (h'.2 p).trans (h.2 p)⟩

theorem Woken.kept {c : Chan} {k k' : Tables} (h : Woken c k) (h' : Kept c k k') : Woken c k' :=
  ⟨h'.1.trans h.1, fun p hp => h.2 p ((h'.2 p).mp hp)⟩

theorem moved_trans {c : Chan} {k k₁ k₂ : Tables} (h : Woken c k₁ ∨ Kept c k k₁)
    (h' : Woken c k₂ ∨ Kept c k₁ k₂) : Woken c k₂ ∨ Kept c k k₂ := by
  cases h' with
  | inl h' => exact .inl h'
  | inr h' =>
    cases h with
    | inl h => exact .inl (h.kept h')
    | inr h => exact .inr (h.trans h')

theorem moved_attended {k k' : Tables} (hk : Attended k)
    (h : ∀ c, Woken c k' ∨ Kept c k k') : Attended k' := by
  intro p c hp
  cases h c with
  | inl hw => exact absurd hp (hw.2 p)
  | inr hk' =>
    rw [hk'.1]
    exact hk p c ((hk'.2 p).mp hp)

namespace Quiet

theorem refl (k : Tables) : Quiet k k :=
  ⟨fun c => .inr (Kept.refl c k), fun _ => .inr le_rfl, fun _ => .inr id⟩

theorem trans {k k₁ k₂ : Tables} (h : Quiet k k₁) (h' : Quiet k₁ k₂) : Quiet k k₂ := by
  refine ⟨fun c => moved_trans (h.chans c) (h'.chans c), fun i => ?_, fun i => ?_⟩
  · cases h'.ncnt i with
    | inl hw => exact .inl hw
    | inr hle =>
      cases h.ncnt i with
      | inl hw => exact .inl ((h'.chans (.ncnt i)).elim id hw.kept)
      | inr hle' => exact .inr (hle.trans hle')
  · cases h'.zcnt i with
    | inl hw => exact .inl hw
    | inr hz =>
      cases h.zcnt i with
      | inl hw => exact .inl ((h'.chans (.zcnt i)).elim id hw.kept)
      | inr hz' => exact .inr fun h0 => hz' (hz h0)

theorem attended {k k' : Tables} (h : Quiet k k') (hk : Attended k) : Attended k' :=
  moved_attended hk h.chans

/-- The semvals may go back to where they were. -/
theorem restore {k k₁ k' : Tables} (h : Quiet k k₁) (hc : ∀ c, Kept c k₁ k')
    (hv : ∀ i, k'.val i = k.val i) : Quiet k k' := by
  refine ⟨fun c => moved_trans (h.chans c) (.inr (hc c)), fun i => .inr (hv i).le, fun i => ?_⟩
  exact .inr fun h0 => (hv i).symm.trans h0

/-- The tables outside sem[] and the channels do not matter. -/
theorem congr {k k₁ k₂ : Tables} (h : Quiet k k₁) (hs : k₂.sem = k₁.sem)
    (hw : k₂.wchan = k₁.wchan) : Quiet k k₂ := by
  have hk : ∀ c, Kept c k₁ k₂ := by
    intro c
    refine ⟨?_, fun p => by rw [hw]⟩
    cases c <;> simp only [Tables.cnt, hs]
  have hv : ∀ i, k₂.val i = k₁.val i := fun i => by simp only [Tables.val, hs]
  exact h.trans ⟨fun c => .inr (hk c), fun i => .inr (hv i).le,
    fun i => .inr fun h0 => (hv i).symm.trans h0⟩

end Quiet

theorem wake_woken {k : Tables} (hk : Attended k) (c : Chan) : Woken c (k.wake c) := by
  simp only [Tables.wake]
  split
  · refine ⟨?_, fun p => ?_⟩
    · show (k.setCnt c 0).cnt c = 0
      simp
    · simp only [Tables.wakeup, Tables.wchan_setCnt]
      split
      · simp
      · assumption
  · rename_i h0
    exact ⟨not_not.mp h0, fun p hp => (hk p c hp).ne' (not_not.mp h0)⟩

theorem wake_kept {c d : Chan} (h : d ≠ c) (k : Tables) : Kept d k (k.wake c) := by
  simp only [Tables.wake]
  split
  · refine ⟨?_, fun p => ?_⟩
    · show (k.setCnt c 0).cnt d = k.cnt d
      simp [h]
    · simp only [Tables.wakeup, Tables.wchan_setCnt]
      split
      · rename_i hp
        simp [hp, h.symm]
      · rfl
  · exact Kept.refl d k

theorem wake_quiet {k : Tables} (hk : Attended k) (c : Chan) : Quiet k (k.wake c) := by
  refine ⟨fun d => ?_, fun i => .inr (by simp), fun i => .inr (by simp)⟩
  by_cases h : d = c
  · exact .inl (h ▸ wake_woken hk c)
  · exact .inr (wake_kept h k)

/-- A new semval at `i` passes nobody over when the wakeups behind it reach whom it may
concern. -/
theorem Quiet.setVal {k k' : Tables} {i : Int} {v : Int}
    (hc : ∀ c, Woken c k' ∨ Kept c (k.setVal i v) k')
    (hv : ∀ j, k'.val j = (k.setVal i v).val j)
    (hn : Woken (.ncnt i) k' ∨ v ≤ k.val i) (hz : Woken (.zcnt i) k' ∨ (v = 0 → k.val i = 0)) :
    Quiet k k' := by
  have hk : ∀ c, Kept c k (k.setVal i v) := fun c => ⟨by simp, fun p => by simp⟩
  refine ⟨fun c => (hc c).imp id (hk c).trans, fun j => ?_, fun j => ?_⟩
  · rw [hv, Tables.val_setVal]
    split
    · rename_i hj
      exact hj ▸ hn
    · exact .inr le_rfl
  · rw [hv, Tables.val_setVal]
    split
    · rename_i hj
      exact hj ▸ hz
    · exact .inr id

theorem attended_setVal {k : Tables} (hk : Attended k) (i : Int) (v : Int) :
    Attended (k.setVal i v) := fun p c hp => by
  rw [Tables.cnt_setVal]
  exact hk p c hp

theorem wake_moved {k : Tables} (hk : Attended k) (c d : Chan) :
    Woken d (k.wake c) ∨ Kept d k (k.wake c) := (wake_quiet hk c).chans d

theorem wakeZero_moved {k : Tables} (hk : Attended k) (i : Int) (d : Chan) :
    Woken d (k.wakeZero i) ∨ Kept d k (k.wakeZero i) := by
  simp only [Tables.wakeZero]
  split
  · exact wake_moved hk _ d
  · exact .inr (Kept.refl d k)

theorem wakeZero_woken {k : Tables} (hk : Attended k) {i : Int} (h : k.val i = 0) :
    Woken (.zcnt i) (k.wakeZero i) := by
  simp only [Tables.wakeZero]
  rw [if_pos (show (k.sem i).semval = 0 from h)]
  exact wake_woken hk _

end Svr32.Semaphore
