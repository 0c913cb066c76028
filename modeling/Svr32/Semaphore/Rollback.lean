import Svr32.Semaphore.Quiet
import Svr32.Semaphore.UndoInv

/-! The operations a pass of semop has behind it: what they make of the semvals and of the
entries of the process, and that semundo takes all of it back. -/
namespace Svr32.Semaphore
open Svr32.Lib Svr32.Ipc
variable {info : Seminfo} {p : Nat} {id : Int} {base : Nat} {k₀ k : Tables} {op : Sembuf}
  {done : List Sembuf}

/- The semvals `v` after the operations `done`, the last one first. -/
def applied (base : Nat) (v : Int → Int) : List Sembuf → Int → Int
  | [] => v
  | op :: done =>
    Function.update (applied base v done) (base + op.semNum)
      (applied base v done (base + op.semNum) + op.semOp)

/- What operations add up to on the semaphore `num`. -/
def netOn (num : Nat) : List Sembuf → Int
  | [] => 0
  | op :: done => netOn num done + if op.semNum = num then op.semOp else 0

theorem applied_eq (base : Nat) (v : Int → Int) (done : List Sembuf) (num : Nat) :
    applied base v done (base + num) = v (base + num) + netOn num done := by
  induction done with
  | nil => simp [applied, netOn]
  | cons op done ih =>
    simp only [applied, netOn]
    by_cases h : op.semNum = num
    · subst h
      rw [Function.update_self, ih, if_pos rfl, add_assoc]
    · have hne : (base + num : Int) ≠ base + op.semNum := by omega
      rw [Function.update_of_ne hne, ih, if_neg h, add_zero]

theorem applied_zero (h : op.semOp = 0) (v : Int → Int) :
    applied base v (op :: done) = applied base v done := by
  simp only [applied, h, add_zero, Function.update_eq_self]

def InRange (info : Seminfo) (v : Int → Int) : Prop := ∀ i, 0 ≤ v i ∧ v i ≤ info.semvmx

/- Every semval on the way is in range. -/
def Within (info : Seminfo) (base : Nat) (v : Int → Int) (done : List Sembuf) : Prop :=
  ∀ s, s <:+ done → InRange info (applied base v s)

theorem Within.cons {v : Int → Int} (h : Within info base v done)
    (hop : InRange info (applied base v (op :: done))) : Within info base v (op :: done) := by
  intro s hs
  cases List.suffix_cons_iff.mp hs with
  | inl he => exact he ▸ hop
  | inr hs => exact h s hs

/- The entries `es` of a process after the operations `done`. -/
inductive Undoes (info : Seminfo) (id : Int) (es : List Undo) : List Sembuf → List Undo → Prop
  | nil : Undoes info id es [] es
  | skip {op : Sembuf} {done : List Sembuf} {es' : List Undo} (h : Undoes info id es done es')
      (hop : op.undo = false ∨ op.semOp = 0) : Undoes info id es (op :: done) es'
  | adjust {op : Sembuf} {done : List Sembuf} {es' es'' : List Undo}
      (h : Undoes info id es done es') (hop : op.undo = true) (hne : op.semOp ≠ 0)
      (hadj : Adjusted info op.semOp (toLex (id, i16 op.semNum)) es' es'')
      (hb : -info.semaem ≤ op.semOp ∧ op.semOp ≤ info.semaem) :
      Undoes info id es (op :: done) es''

theorem Undoes.ok {es es' : List Undo} (h : Undoes info id es done es') (hes : EntOk info es) :
    EntOk info es' := by
  induction h with
  | nil => exact hes
  | skip _ _ ih => exact ih
  | adjust _ _ _ hadj _ _ => exact hadj.ok

theorem Undoes.of_nil {es es' : List Undo} (h : Undoes info id es [] es') : es' = es := by
  cases h
  rfl

/- What the SEM_UNDO operations among `done` add up to at (id, num) = `key`. -/
def undoSum (id : Int) (key : Int ×ₗ Int) : List Sembuf → Int
  | [] => 0
  | op :: done =>
    undoSum id key done +
      if op.undo = true ∧ toLex (id, i16 op.semNum) = key then op.semOp else 0

/-- The entry moves opposite to the operations. -/
theorem Undoes.aoe {es es' : List Undo} (h : Undoes info id es done es') (key : Int ×ₗ Int) :
    aoeOf es' key = aoeOf es key - undoSum id key done := by
  induction h with
  | nil => simp [undoSum]
  | skip _ hop ih =>
    rw [ih, undoSum]
    cases hop with
    | inl hu => simp [hu]
    | inr h0 => simp [h0]
  | @adjust op done _ _ _ hop _ hadj _ ih =>
    simp only [undoSum, hop, true_and]
    by_cases hk : toLex (id, i16 op.semNum) = key
    · rw [if_pos hk, ← hk, hadj.at_, hk, ih]
      omega
    · rw [if_neg hk, hadj.ne key (fun he => hk he.symm), ih, add_zero]

/- The tables `k` are `k₀` with the operations `done` performed by `p`. -/
structure Performed (info : Seminfo) (p : Nat) (id : Int) (base : Nat) (k₀ : Tables)
    (done : List Sembuf) (k : Tables) : Prop where
  sema : k.sema = k₀.sema
  semmap : k.semmap = k₀.semmap
  vals : ∀ i, k.val i = applied base k₀.val done i
  within : Within info base k₀.val done
  undoOk : UndoOk info k.undo
  undoes : Undoes info id (entriesOf p k₀.undo) done (entriesOf p k.undo)
  others : ∀ q, q ≠ p → entriesOf q k.undo = entriesOf q k₀.undo
  has : (∃ op ∈ done, op.undo = true ∧ op.semOp ≠ 0) → ∃ u, k.undo.semUndo p = some u

/- All semvals and undo entries of `k` are those of `k₀`. -/
structure Restored (info : Seminfo) (k₀ k : Tables) : Prop where
  sema : k.sema = k₀.sema
  semmap : k.semmap = k₀.semmap
  vals : ∀ i, k.val i = k₀.val i
  undoOk : UndoOk info k.undo
  entries : ∀ q, entriesOf q k.undo = entriesOf q k₀.undo

theorem Performed.nil (hv : InRange info k₀.val) (hu : UndoOk info k₀.undo) :
    Performed info p id base k₀ [] k₀ := by
  refine ⟨rfl, rfl, fun _ => rfl, fun s hs => ?_, hu, .nil, fun _ _ => rfl, by simp⟩
  rw [List.suffix_nil.mp hs]
  exact hv

theorem Performed.restored (h : Performed info p id base k₀ [] k) : Restored info k₀ k := by
  refine ⟨h.sema, h.semmap, h.vals, h.undoOk, fun q => ?_⟩
  by_cases hq : q = p
  · subst hq
    exact h.undoes.of_nil
  · exact h.others q hq

/-- An operation that is zero leaves no trace. -/
theorem Performed.skip (h : Performed info p id base k₀ done k) (hop : op.semOp = 0) :
    Performed info p id base k₀ (op :: done) k := by
  refine { h with
    vals := by rw [applied_zero hop]; exact h.vals
    within := h.within.cons ?_
    undoes := .skip h.undoes (.inr hop)
    has := fun hex => h.has ?_ }
  · rw [applied_zero hop]
    exact h.within done List.suffix_rfl
  · obtain ⟨a, ha, hu, hne⟩ := hex
    cases List.mem_cons.mp ha with
    | inl he => exact absurd (he ▸ hop) hne
    | inr ha => exact ⟨a, ha, hu, hne⟩

/- `k'` differs from `k` in the undo table at most. -/
structure SameSem (k k' : Tables) : Prop where
  sema : k'.sema = k.sema
  sem : k'.sem = k.sem
  semmap : k'.semmap = k.semmap
  wchan : k'.wchan = k.wchan

theorem opAoe_sameSem (info : Seminfo) (p : Nat) (id : Int) (op : Sembuf) (val : Int)
    (k : Tables) : SameSem k (opAoe info p id op val k).1 := by
  simp only [opAoe]
  split <;> exact ⟨rfl, rfl, rfl, rfl⟩

theorem SameSem.val {k' : Tables} (h : SameSem k k') (i : Int) : k'.val i = k.val i := by
  rw [Tables.val, h.sem, Tables.val]

theorem SameSem.kept {k' : Tables} (h : SameSem k k') (c : Chan) : Kept c k k' := by
  refine ⟨?_, fun q => by rw [h.wchan]⟩
  cases c <;> simp only [Tables.cnt, h.sem]

theorem SameSem.quiet {k' : Tables} (h : SameSem k k') : Quiet k k' :=
  ⟨fun c => .inr (h.kept c), fun i => .inr (h.val i).le, fun i => .inr fun h0 => h.val i ▸ h0⟩

theorem Sembuf.i16_op (op : Sembuf) : i16 op.semOp = op.semOp :=
  i16_eq op.op_range.1 (by have := op.op_range.2; omega)

/-- When semaoe refuses, the entries are as they were. -/
theorem Performed.refused (h : Performed info p id base k₀ done k) {k' : Tables} {e : Errno}
    (hop : opAoe info p id op op.semOp k = (k', some e)) : Performed info p id base k₀ done k' := by
  have hsame := opAoe_sameSem info p id op op.semOp k
  rw [hop] at hsame
  simp only [opAoe] at hop
  split at hop
  · simp only [Prod.mk.injEq] at hop
    obtain ⟨hk, he⟩ := hop
    have hs := (semaoe_spec h.undoOk p op.semOp id op.semNum).1
    subst hk
    have hf := hs.failed (by simp [he])
    refine ⟨h.sema, h.semmap, h.vals, h.within, hs.ok, ?_, fun q hq =>
      (hs.others q hq).trans (h.others q hq), fun hex => ?_⟩
    · rw [hf]
      exact h.undoes
    · obtain ⟨u, hu⟩ := h.has hex
      exact ⟨u, hs.owns p u hu⟩
  · cases hop

/-- When semaoe takes the operation and the semval follows, it is performed. -/
theorem Performed.cons (h : Performed info p id base k₀ done k) {k₁ k' : Tables}
    (hop : opAoe info p id op op.semOp k = (k₁, none)) (hne : op.semOp ≠ 0)
    (hrest : SameRest k₁ k') {i : Int} (hi : i = base + op.semNum)
    (hr : 0 ≤ k.val i + op.semOp ∧ k.val i + op.semOp ≤ info.semvmx)
    (hv : ∀ j, k'.val j = if j = i then k.val i + op.semOp else k.val j) :
    Performed info p id base k₀ (op :: done) k' := by
  have hsame := opAoe_sameSem info p id op op.semOp k
  rw [hop] at hsame
  have hvals : ∀ j, k'.val j = applied base k₀.val (op :: done) j := by
    intro j
    rw [hv, applied]
    by_cases hj : j = i
    · rw [if_pos hj, hj, hi, Function.update_self, h.vals]
    · rw [if_neg hj, Function.update_of_ne (hi ▸ hj), h.vals]
  have hin : InRange info (applied base k₀.val (op :: done)) := by
    intro j
    rw [← hvals, hv]
    split
    · exact hr
    · rw [h.vals]
      exact h.within done List.suffix_rfl j
  simp only [opAoe] at hop
  split at hop
  · rename_i hu
    simp only [Prod.mk.injEq] at hop
    obtain ⟨hk, he⟩ := hop
    have hs := (semaoe_spec h.undoOk p op.semOp id op.semNum).1
    rw [op.i16_op] at hs
    obtain ⟨hadj, hb⟩ := hs.done he
    have hundo : k'.undo = (semaoe info p op.semOp id op.semNum k.undo).1 := by
      rw [hrest.undo, ← hk]
    refine ⟨(hrest.sema.trans hsame.sema).trans h.sema,
      (hrest.semmap.trans hsame.semmap).trans h.semmap, hvals, h.within.cons hin, ?_, ?_, ?_, ?_⟩
    · rw [hundo]
      exact hs.ok
    · rw [hundo]
      exact .adjust h.undoes hu hne hadj (hb hne).1
    · intro q hq
      rw [hundo, hs.others q hq, h.others q hq]
    · intro _
      rw [hundo]
      exact (hb hne).2
  · rename_i hu
    simp only [Prod.mk.injEq, and_true] at hop
    subst hop
    refine ⟨hrest.sema.trans h.sema, hrest.semmap.trans h.semmap, hvals, h.within.cons hin, ?_, ?_,
      ?_, ?_⟩
    · rw [hrest.undo]
      exact h.undoOk
    · rw [hrest.undo]
      exact .skip h.undoes (.inl (by simpa using hu))
    · intro q hq
      rw [hrest.undo, h.others q hq]
    · intro hex
      rw [hrest.undo]
      apply h.has
      obtain ⟨a, ha, hau, hane⟩ := hex
      cases List.mem_cons.mp ha with
      | inl he => exact absurd (he ▸ hau) hu
      | inr ha => exact ⟨a, ha, hau, hane⟩

/-- One operation taken back. -/
theorem Performed.back (h : Performed info p id base k₀ (op :: done) k)
    (hu₀ : EntOk info (entriesOf p k₀.undo)) (hne : op.semOp ≠ 0) :
    Performed info p id base k₀ done
      (opAoe info p id op (-op.semOp) (k.addVal (base + op.semNum) (-op.semOp))).1 := by
  have hlt := info.semvmx_lt
  have hsame := opAoe_sameSem info p id op (-op.semOp) (k.addVal (base + op.semNum) (-op.semOp))
  have hwithin : Within info base k₀.val done :=
    fun s hs => h.within s (hs.trans (List.suffix_cons op done))
  have hvals : ∀ j, (k.addVal (base + op.semNum) (-op.semOp)).val j =
      applied base k₀.val done j := by
    intro j
    have hin := hwithin done List.suffix_rfl (base + op.semNum)
    rw [Tables.addVal, Tables.val_setVal]
    by_cases hj : j = base + op.semNum
    · have hat := h.vals (base + op.semNum)
      rw [applied, Function.update_self] at hat
      rw [if_pos hj, hj]
      show u16 (k.val _ + -op.semOp) = _
      rw [hat, add_neg_cancel_right]
      exact u16_eq hin.1 (by omega)
    · rw [if_neg hj, h.vals, applied, Function.update_of_ne hj]
  have hentries : ∃ t, (opAoe info p id op (-op.semOp)
        (k.addVal (base + op.semNum) (-op.semOp))).1.undo = t ∧ UndoOk info t ∧
      Undoes info id (entriesOf p k₀.undo) done (entriesOf p t) ∧
      (∀ q, q ≠ p → entriesOf q t = entriesOf q k₀.undo) ∧
      ∀ u, k.undo.semUndo p = some u → t.semUndo p = some u := by
    simp only [opAoe]
    have hund := h.undoes
    cases hund with
    | skip hd hop =>
      have hu : op.undo = false := hop.resolve_right hne
      simp only [hu, if_neg Bool.false_ne_true]
      exact ⟨k.undo, rfl, h.undoOk, hd, h.others, fun _ hu => hu⟩
    | adjust hd hu _ hadj hb =>
      simp only [hu, if_true]
      have hown := h.has ⟨op, List.mem_cons_self, hu, hne⟩
      obtain ⟨hs, he⟩ := @semaoe_back _ _ _ h.undoOk _ op.semOp id op.semNum
        (hd.ok hu₀) (by rw [op.i16_op]; exact hadj) (by rw [op.i16_op]; exact hb) (fun _ => hown)
      exact ⟨_, rfl, hs.ok, he.symm ▸ hd, fun q hq => (hs.others q hq).trans (h.others q hq),
        hs.owns p⟩
  obtain ⟨t, ht, hok, hd, hothers, howns⟩ := hentries
  refine ⟨hsame.sema.trans h.sema, hsame.semmap.trans h.semmap, fun j => (hsame.val j).trans
    (hvals j), hwithin, ht ▸ hok, ht ▸ hd, ht ▸ hothers, fun hex => ?_⟩
  obtain ⟨a, ha, hex⟩ := hex
  obtain ⟨u, hu⟩ := h.has ⟨a, List.mem_cons_of_mem op ha, hex⟩
  exact ⟨u, ht ▸ howns u hu⟩

/-- semundo takes back all operations behind it; it wakes nobody. -/
theorem semundo_spec (h : Performed info p id base k₀ done k)
    (hu₀ : EntOk info (entriesOf p k₀.undo)) :
    Restored info k₀ (semundo info p id base done k) ∧
      ∀ c, Kept c k (semundo info p id base done k) := by
  induction done generalizing k with
  | nil => exact ⟨h.restored, fun c => Kept.refl c k⟩
  | cons op done ih =>
    simp only [semundo]
    by_cases h0 : op.semOp = 0
    · rw [if_pos h0]
      apply ih
      have hund := h.undoes
      refine { h with
        vals := fun i => by rw [h.vals, applied_zero h0]
        within := fun s hs => h.within s (hs.trans (List.suffix_cons op done))
        undoes := ?_
        has := fun hex => h.has ?_ }
      · cases hund with
        | skip hd _ => exact hd
        | adjust _ _ hne _ _ => exact absurd h0 hne
      · obtain ⟨a, ha, hex⟩ := hex
        exact ⟨a, List.mem_cons_of_mem op ha, hex⟩
    · rw [if_neg h0]
      obtain ⟨hr, hc⟩ := ih (h.back hu₀ h0)
      refine ⟨hr, fun c => Kept.trans (Kept.trans ?_ ((opAoe_sameSem ..).kept c)) (hc c)⟩
      exact ⟨by rw [Tables.addVal, Tables.cnt_setVal], fun _ => Iff.rfl⟩

end Svr32.Semaphore

/-! One pass of semop: it performs all operations, or leaves the semvals and the undo
entries as they were; and then, when it sleeps, over an operation that cannot be done. -/
namespace Svr32.Semaphore
open Svr32.Lib Svr32.Ipc
variable {info : Seminfo} {p : Nat} {id : Int} {base : Nat} {k₀ k : Tables} {op : Sembuf}
  {done ops all : List Sembuf}

/- On the channel `c` waits `op`, with `done` before it in its vector: what it waits for is
   not the case. -/
def Blocked (k : Tables) (c : Chan) (op : Sembuf) (done : List Sembuf) : Prop :=
  match c with
  | .ncnt i => op.semOp < 0 ∧ k.val i + netOn op.semNum done < -op.semOp
  | .zcnt i => op.semOp = 0 ∧ (k.val i ≠ 0 ∨ 0 < netOn op.semNum done)

theorem Blocked.congr {k' : Tables} {c : Chan} (h : Blocked k c op done)
    (hv : ∀ i, k'.val i = k.val i) : Blocked k' c op done := by
  cases c with
  | ncnt i => exact ⟨h.1, by rw [hv]; exact h.2⟩
  | zcnt i => exact ⟨h.1, by rw [hv]; exact h.2⟩

/- How the loop of semop ends that is to perform `all`, given last first. -/
structure Attempt (info : Seminfo) (p : Nat) (id : Int) (base : Nat) (k₀ : Tables)
    (all : List Sembuf) (r : Tables × Stop × List Sembuf) : Prop where
  seen : ∀ op ∈ r.2.2, op ∈ all
  quiet : Quiet k₀ r.1
  ok : r.2.1 = .ok → Performed info p id base k₀ all r.1 ∧ r.2.2 = all
  failed : r.2.1 ≠ .ok → Restored info k₀ r.1
  blocked : ∀ c, r.2.1 = .sleep c → ∃ op done, r.2.2 = op :: done ∧ Blocked k₀ c op done

theorem zero_told (hk : Attended k) (i : Int) (P : Prop) :
    Woken (.zcnt i) (k.wakeZero i) ∨ (k.val i = 0 → P) := by
  by_cases h : k.val i = 0
  · exact .inl (wakeZero_woken hk h)
  · exact .inr fun h0 => absurd h0 h

/-- A semval goes up: both counters are seen to. -/
theorem raise_quiet (hk : Attended k) (i d : Int) :
    Quiet k (((k.addVal i d).wake (.ncnt i)).wakeZero i) := by
  have h₁ : Attended (k.addVal i d) := attended_setVal hk i _
  have hw := wake_woken h₁ (.ncnt i)
  have h₂ := (wake_quiet h₁ (.ncnt i)).attended h₁
  have hm := wakeZero_moved h₂ i
  refine Quiet.setVal (i := i) (v := u16 (k.val i + d))
    (fun c => moved_trans (wake_moved h₁ _ c) (hm c)) (fun j => by simp [Tables.addVal_eq])
    (.inl ((hm (.ncnt i)).elim (fun h => h) hw.kept)) ?_
  have hz := zero_told h₂ i (k.val i = 0)
  simp only [Tables.val_wake, Tables.addVal_eq, Tables.val_setVal, if_true] at hz
  exact hz

/-- A semval goes down: whoever waits for more waits on. -/
theorem lower_quiet (hk : Attended k) {i d : Int} (h : u16 (k.val i + d) ≤ k.val i) :
    Quiet k ((k.addVal i d).wakeZero i) := by
  have h₁ : Attended (k.addVal i d) := attended_setVal hk i _
  refine Quiet.setVal (i := i) (v := u16 (k.val i + d)) (wakeZero_moved h₁ i)
    (fun j => by simp [Tables.addVal_eq]) (.inr h) ?_
  have hz := zero_told h₁ i (k.val i = 0)
  simp only [Tables.addVal_eq, Tables.val_setVal, if_true] at hz
  exact hz

theorem SameRest.addVal (i d : Int) (k : Tables) : SameRest k (k.addVal i d) := ⟨rfl, rfl, rfl⟩

/-- An ending that rolls back. -/
theorem Attempt.stop (h : Performed info p id base k₀ done k) (hq : Quiet k₀ k)
    (hu₀ : EntOk info (entriesOf p k₀.undo)) {s : Stop} (hs : s ≠ .ok)
    (hall : ∀ a ∈ op :: done, a ∈ all) (hb : ∀ c, s = .sleep c → Blocked k₀ c op done) :
    Attempt info p id base k₀ all (semundo info p id base done k, s, op :: done) := by
  obtain ⟨hr, hc⟩ := semundo_spec h hu₀
  exact ⟨hall, hq.restore hc hr.vals, fun he => absurd he hs, fun _ => hr,
    fun c hc => ⟨op, done, rfl, hb c hc⟩⟩

theorem blockedOn_sleep {c d : Chan} (h : blockedOn c op = .sleep d) : d = c := by
  simp only [blockedOn] at h
  split at h
  · cases h
  · exact (Stop.sleep.inj h).symm

theorem blockedOn_ne (c : Chan) (op : Sembuf) : blockedOn c op ≠ .ok := by
  simp only [blockedOn]
  split <;> exact nofun

/-- From any point of the vector on, by induction on the operations that are left. -/
theorem semopLoop_spec (h₀ : Attended k₀) (hu₀ : EntOk info (entriesOf p k₀.undo))
    (h : Performed info p id base k₀ done k) (hq : Quiet k₀ k) :
    Attempt info p id base k₀ (ops.reverse ++ done) (semopLoop info p id base done ops k) := by
  have hlt := info.semvmx_lt
  induction ops generalizing done k with
  | nil =>
    exact ⟨fun _ ha => ha, hq, fun _ => ⟨h, rfl⟩, fun hn => absurd rfl hn, nofun⟩
  | cons op ops ih =>
    have hlist : (op :: ops).reverse ++ done = ops.reverse ++ (op :: done) := by simp
    have hall : ∀ a ∈ op :: done, a ∈ ops.reverse ++ (op :: done) := fun a ha =>
      List.mem_append_right _ ha
    have hk := hq.attended h₀
    have hin : 0 ≤ k.val (base + op.semNum) ∧ k.val (base + op.semNum) ≤ info.semvmx := by
      rw [h.vals]
      exact h.within done List.suffix_rfl _
    have hnet : k.val (base + op.semNum) = k₀.val (base + op.semNum) + netOn op.semNum done := by
      rw [h.vals, applied_eq]
    rw [hlist]
    simp only [semopLoop]
    have hval : (k.sem (base + op.semNum)).semval = k.val (base + op.semNum) := rfl
    rw [hval]
    by_cases hpos : op.semOp > 0
    · rw [if_pos hpos]
      by_cases hbig : op.semOp + k.val (base + op.semNum) > info.semvmx
      · rw [if_pos hbig]
        exact Attempt.stop h hq hu₀ nofun hall nofun
      · rw [if_neg hbig]
        cases ha : opAoe info p id op op.semOp k with
        | mk k₁ e =>
          have hsame := opAoe_sameSem info p id op op.semOp k
          rw [ha] at hsame
          cases e with
          | some e =>
            exact Attempt.stop (h.refused ha) (hq.trans hsame.quiet) hu₀ nofun hall nofun
          | none =>
            have hrest := (SameRest.addVal (base + op.semNum) op.semOp k₁).trans
              ((SameRest.wake (.ncnt (base + op.semNum)) _).trans
                (SameRest.wakeZero (base + op.semNum) _))
            refine ih (h.cons ha hpos.ne' hrest rfl (by omega) fun j => ?_)
              (hq.trans (hsame.quiet.trans (raise_quiet (hsame.quiet.attended hk) _ _)))
            simp only [Tables.val_wakeZero, Tables.val_wake, Tables.addVal_eq, Tables.val_setVal,
              hsame.val]
            rw [u16_eq (by omega) (by omega)]
    · rw [if_neg hpos]
      by_cases hneg : op.semOp < 0
      · rw [if_pos hneg]
        by_cases hge : k.val (base + op.semNum) ≥ -op.semOp
        · rw [if_pos hge]
          cases ha : opAoe info p id op op.semOp k with
          | mk k₁ e =>
            have hsame := opAoe_sameSem info p id op op.semOp k
            rw [ha] at hsame
            cases e with
            | some e =>
              exact Attempt.stop (h.refused ha) (hq.trans hsame.quiet) hu₀ nofun hall nofun
            | none =>
              have hu : u16 (k₁.val (base + op.semNum) + op.semOp) =
                  k.val (base + op.semNum) + op.semOp := by
                rw [hsame.val]
                exact u16_eq (by omega) (by omega)
              have hrest := (SameRest.addVal (base + op.semNum) op.semOp k₁).trans
                (SameRest.wakeZero (base + op.semNum) _)
              refine ih (h.cons ha hneg.ne hrest rfl (by omega) fun j => ?_)
                (hq.trans (hsame.quiet.trans (lower_quiet (hsame.quiet.attended hk) ?_)))
              · simp only [Tables.val_wakeZero, Tables.addVal_eq, Tables.val_setVal, hsame.val]
                rw [u16_eq (by omega) (by omega)]
              · rw [hu, hsame.val]
                omega
        · rw [if_neg hge]
          refine Attempt.stop h hq hu₀ (blockedOn_ne _ op) hall fun c hc => ?_
          rw [blockedOn_sleep hc]
          exact ⟨hneg, by omega⟩
      · rw [if_neg hneg]
        by_cases hzero : k.val (base + op.semNum) ≠ 0
        · rw [if_pos hzero]
          refine Attempt.stop h hq hu₀ (blockedOn_ne _ op) hall fun c hc => ?_
          rw [blockedOn_sleep hc]
          exact ⟨by omega, by omega⟩
        · rw [if_neg hzero]
          exact ih (h.skip (by omega)) hq

end Svr32.Semaphore
