import Svr32.Fifo.Stored

/-! s5rdwri.c: whatever calls are made and in what order they get the inode, the FIFO is a queue of
bytes, as long as no copy fails, no block is unreadable for a writer, and a count and the size do not
pass the largest unsigned number. -/
namespace Svr32.Fifo
open Svr32.Lib
variable {mp : Mount} {s s' : State}

/- The pointers: those of a call in its loop are in u_offset. -/
def rd (s : State) : Nat :=
  match s.holder with
  | some (.reader r) => r.offset
  | _ => s.frptr

def wr (s : State) : Nat :=
  match s.holder with
  | some (.writer w) => w.offset
  | _ => s.fwptr

/-- The bytes that are in the FIFO, from `rd` to `wr`. -/
structure Queue (mp : Mount) (rd wr : Nat) (q : List Nat) (s : State) : Prop where
  taken : s.taken = s.handed ++ q
  size : s.size = q.length
  stored : Stored mp rd q s
  wr_eq : wr = wrap mp rd q

structure WriterOk (mp : Mount) (size : Nat) (w : Writer) : Prop where
  room : w.count + size ≤ mp.PIPSIZ
  src : w.count + w.usave ≤ w.src.length
  usave : w.usave + mp.PIPSIZ < 2 ^ 32

structure Inv (mp : Mount) (s : State) : Prop where
  queue : ∃ q, Queue mp (rd s) (wr s) q s
  writer : ∀ w, s.holder = some (.writer w) → WriterOk mp s.size w

/-- The conditions under which a step does what it should. -/
def Sound (op : Op) (s : State) : Prop :=
  match op with
  | .enter p => ∀ src ndelay fsync, s.procs p = .ready (.write src ndelay fsync) →
      src.length + s.size < 2 ^ 32
  | .block _ _ (.efault _) => False
  | .block _ _ .eio => ∀ w, s.holder ≠ some (.writer w)
  | _ => True

theorem Queue.congr {r w : Nat} {q : List Nat} (h : Queue mp r w q s) (hs : s'.size = s.size)
    (ha : s'.addr = s.addr) (hd : s'.disk = s.disk) (hc : s'.cache = s.cache)
    (hh : s'.handed = s.handed) (ht : s'.taken = s.taken) : Queue mp r w q s' :=
  ⟨by rw [ht, hh]; exact h.taken, hs.trans h.size, h.stored.congr ha hd hc, h.wr_eq⟩

/- The inode is not held, and its pointers are where the bytes are. -/
theorem inv_quiet {q : List Nat} (h : Queue mp s.frptr s.fwptr q s) (hh : s.holder = none) :
    Inv mp s := by
  have hr : rd s = s.frptr := by rw [rd, hh]
  have hw : wr s = s.fwptr := by rw [wr, hh]
  refine ⟨⟨q, by rw [hr, hw]; exact h⟩, fun w hw => ?_⟩
  rw [hh] at hw
  cases hw

theorem inv_reader {r : Reader} {q : List Nat} (h : Queue mp r.offset s.fwptr q s)
    (hh : s.holder = some (.reader r)) : Inv mp s := by
  have hr : rd s = r.offset := by rw [rd, hh]
  have hw : wr s = s.fwptr := by rw [wr, hh]
  refine ⟨⟨q, by rw [hr, hw]; exact h⟩, fun w hw => ?_⟩
  rw [hh] at hw
  cases hw

theorem inv_writer {w : Writer} {q : List Nat} (h : Queue mp s.frptr w.offset q s)
    (hok : WriterOk mp s.size w) (hh : s.holder = some (.writer w)) : Inv mp s := by
  have hr : rd s = s.frptr := by rw [rd, hh]
  have hw : wr s = w.offset := by rw [wr, hh]
  refine ⟨⟨q, by rw [hr, hw]; exact h⟩, fun w' hw' => ?_⟩
  rw [hh] at hw'
  cases hw'
  exact hok

/-- What changes neither the pointers nor the bytes. -/
theorem Inv.frame (h : Inv mp s) (hs : s'.size = s.size) (hr : s'.frptr = s.frptr)
    (hw : s'.fwptr = s.fwptr) (ha : s'.addr = s.addr) (hd : s'.disk = s.disk)
    (hc : s'.cache = s.cache) (hh : s'.handed = s.handed) (ht : s'.taken = s.taken)
    (hold : s'.holder = s.holder) : Inv mp s' := by
  obtain ⟨q, hq⟩ := h.queue
  have hr' : rd s' = rd s := by rw [rd, rd, hold, hr]
  have hw' : wr s' = wr s := by rw [wr, wr, hold, hw]
  refine ⟨⟨q, by rw [hr', hw']; exact hq.congr hs ha hd hc hh ht⟩, fun w hw => ?_⟩
  rw [hold] at hw
  rw [hs]
  exact h.writer w hw

theorem floop_inv {p count : Nat} {src q : List Nat} {ndelay fsync : Bool}
    (hq : Queue mp s.frptr s.fwptr q s) (hsum : count + s.size < 2 ^ 32) (hlen : count ≤ src.length) :
    Inv mp (floop mp p src count ndelay fsync s) := by
  have hP := mp.pipsiz_lt
  have hle : s.size ≤ mp.PIPSIZ := by
    rw [hq.size]
    exact hq.stored.le
  rw [floop, Nat.mod_eq_of_lt hsum]
  split
  · split
    · exact inv_quiet (hq.congr rfl rfl rfl rfl rfl rfl) rfl
    · split
      · refine inv_writer (w := ⟨p, ndelay, fsync, s.fwptr, _, src, 0, _, false, true⟩)
          (hq.congr rfl rfl rfl rfl rfl rfl) ⟨?_, ?_, ?_⟩ rfl
        · dsimp only
          omega
        · dsimp only
          omega
        · dsimp only
          omega
      · split
        · exact inv_quiet (hq.congr rfl rfl rfl rfl rfl rfl) rfl
        · exact inv_quiet (hq.congr rfl rfl rfl rfl rfl rfl) rfl
  · split
    · exact inv_quiet (hq.congr rfl rfl rfl rfl rfl rfl) rfl
    · refine inv_writer (w := ⟨p, ndelay, fsync, s.fwptr, count, src, 0, 0, false, true⟩)
        (hq.congr rfl rfl rfl rfl rfl rfl) ⟨?_, ?_, ?_⟩ rfl
      · dsimp only
        omega
      · exact hlen
      · dsimp only
        omega

theorem readi_inv {p count : Nat} {ndelay : Bool} {q : List Nat}
    (hq : Queue mp s.frptr s.fwptr q s) (hh : s.holder = none) :
    Inv mp (readi p count ndelay s) := by
  rw [readi]
  split
  · exact inv_quiet (hq.congr rfl rfl rfl rfl rfl rfl) hh
  · split
    · split
      · exact inv_quiet (hq.congr rfl rfl rfl rfl rfl rfl) hh
      · split
        · exact inv_quiet (hq.congr rfl rfl rfl rfl rfl rfl) hh
        · exact inv_quiet (hq.congr rfl rfl rfl rfl rfl rfl) hh
    · exact inv_reader (r := ⟨s.frptr, count, true⟩) (hq.congr rfl rfl rfl rfl rfl rfl) rfl

theorem readEnd_inv {r : Reader} {q : List Nat} (hq : Queue mp r.offset s.fwptr q s) :
    Inv mp (readEnd r s) := by
  by_cases hs : s.size = 0
  · have hnil : q = [] := List.length_eq_zero_iff.mp (hq.size ▸ hs)
    have hP : 0 < mp.PIPSIZ := Nat.zero_lt_of_lt hq.stored.rd_lt
    have hlive : ∀ pos, ¬ Live mp.PIPSIZ 0 ([] : List Nat).length pos := by
      rintro pos ⟨i, hi, -⟩
      simp at hi
    refine inv_quiet (q := []) ⟨?_, ?_, ⟨?_, ?_, Nat.zero_le _, ?_, ?_⟩, ?_⟩ rfl
    · rw [← hnil]
      exact hq.taken
    · exact hs
    · intro i hi
      simp at hi
    · simp [readEnd, hs, hP]
    · intro pos hp
      simp only [readEnd, hs] at hp
      exact absurd hp (hlive pos)
    · intro k b _ _ pos _ hp
      simp only [readEnd, hs] at hp
      exact absurd hp (hlive pos)
    · simp [readEnd, hs, wrap]
  · have hr : (readEnd r s).frptr = r.offset := by simp [readEnd, hs]
    have hw : (readEnd r s).fwptr = s.fwptr := by simp [readEnd, hs]
    refine inv_quiet (q := q) ?_ rfl
    rw [hr, hw]
    exact hq.congr rfl rfl rfl rfl rfl rfl

/- What copies out a block takes its bytes from the queue. -/
theorem copyOut_inv {r : Reader} {q : List Nat} (hq : Queue mp r.offset s.fwptr q s) :
    Inv mp (copyOut mp true r s) := by
  have hn : piece mp r s ≤ q.length := by
    rw [piece, ← hq.size]
    exact Nat.min_le_right _ _
  have hon : r.offset % mp.bsize + piece mp r s ≤ mp.bsize := by
    have := Nat.mod_lt r.offset mp.blocks.1
    rw [piece]
    omega
  have hend := mp.block_end hq.stored.rd_lt hon
  have hoff : (if mp.PIPSIZ ≤ r.offset + piece mp r s then 0 else r.offset + piece mp r s) =
      (r.offset + piece mp r s) % mp.PIPSIZ := by
    split
    · rw [show r.offset + piece mp r s = mp.PIPSIZ by omega, Nat.mod_self]
    · rw [Nat.mod_eq_of_lt (by omega)]
  refine inv_reader (q := q.drop (piece mp r s)) (r := ⟨_, _, _⟩) ⟨?_, ?_, ?_, ?_⟩ rfl
  · simp only [copyOut, if_true]
    rw [hq.stored.copied hn hon, List.append_assoc, List.take_append_drop]
    exact hq.taken
  · simp only [copyOut, List.length_drop, ← hq.size]
  · simp only [if_true]
    rw [hoff]
    refine hq.stored.read hn hon (fun b hb => ?_) rfl rfl rfl
    rw [hb]
    split
    · rename_i hdone
      rw [hq.size] at hdone
      exact .inr ⟨hdone.1, by omega⟩
    · exact .inl rfl
  · simp only [copyOut, if_true]
    rw [hoff, hq.wr_eq, wrap, wrap, List.length_drop, Nat.mod_add_mod]
    congr 1
    omega

theorem readBlock_inv {f : Fault} {r : Reader} {q : List Nat} (hf : ∀ m, f ≠ .efault m)
    (hq : Queue mp r.offset s.fwptr q s) : Inv mp (readBlock mp f r s) := by
  have hstop : Inv mp { s with holder := some (.reader { r with more := false }) } :=
    inv_reader (r := { r with more := false }) (hq.congr rfl rfl rfl rfl rfl rfl) rfl
  rw [readBlock.eq_def]
  dsimp only
  split
  · exact hstop
  · cases f with
    | ok => exact copyOut_inv hq
    | efault m => exact absurd rfl (hf m)
    | eio =>
      dsimp only
      split
      · exact hstop
      · exact copyOut_inv hq

theorem extend_queue {w : Writer} {q : List Nat} (hq : Queue mp s.frptr w.offset q s) :
    Queue mp (extend mp w s).frptr w.offset q (extend mp w s) ∧
      (extend mp w s).addr (w.offset / mp.bsize) = true := by
  rw [extend]
  split
  · rename_i ha
    exact ⟨⟨hq.taken, hq.size, hq.stored.alloc ha, hq.wr_eq⟩, change_self _ _ _⟩
  · rename_i ha
    exact ⟨hq, by simpa using ha⟩

/- What is not read of the block is not needed. -/
theorem base_live {w : Writer} {junk : Block} {q : List Nat} (hq : Queue mp s.frptr w.offset q s)
    (hok : WriterOk mp s.size w) {pos : Nat} (hpos : pos / mp.bsize = w.offset / mp.bsize)
    (hp : Live mp.PIPSIZ s.frptr q.length pos) :
    base mp junk w s (pos % mp.bsize) = s.byteAt mp pos := by
  have hroom := hok.room
  rw [hq.wr_eq] at hpos
  rw [base, State.byteAt, hpos, ← hq.wr_eq]
  split
  · rename_i hfresh
    have hfree : w.offset % mp.bsize = 0 ∧ q.length + mp.bsize ≤ mp.PIPSIZ := by
      rw [← hq.size]
      rcases hfresh with h | ⟨h, hs⟩
      · rw [room] at h
        have := mp.blocks.1
        omega
      · omega
    rw [hq.wr_eq] at hfree
    exact absurd hp (hq.stored.block_free hfree.1 hfree.2 hpos)
  · rfl

theorem copyIn_inv {w : Writer} {junk : Block} {q : List Nat}
    (hq : Queue mp s.frptr w.offset q s) (hok : WriterOk mp s.size w)
    (ha : s.addr (w.offset / mp.bsize) = true) :
    Inv mp (copyIn mp false w s (s.release (w.offset / mp.bsize)
      (put (w.offset % mp.bsize) (w.src.take (room mp w)) (base mp junk w s)) w.fsync)) := by
  obtain ⟨hroom, hsrc, husave⟩ := hok
  have hcount : room mp w ≤ w.count := Nat.min_le_right _ _
  have hlen : (w.src.take (room mp w)).length = room mp w := by
    rw [List.length_take]
    omega
  have hon : w.offset % mp.bsize + room mp w ≤ mp.bsize := by
    have := Nat.mod_lt w.offset mp.blocks.1
    rw [room]
    omega
  have hlt : w.offset < mp.PIPSIZ := by
    rw [hq.wr_eq]
    exact hq.stored.wrap_lt
  have hend := mp.block_end hlt hon
  have hoff : (if w.offset + room mp w = mp.PIPSIZ then 0 else w.offset + room mp w) =
      (w.offset + room mp w) % mp.PIPSIZ := by
    split
    · rename_i h
      rw [h, Nat.mod_self]
    · rw [Nat.mod_eq_of_lt (by omega)]
  refine inv_writer (q := q ++ w.src.take (room mp w)) (w := { w with
    offset := if w.offset + room mp w = mp.PIPSIZ then 0 else w.offset + room mp w
    count := w.count - room mp w, src := w.src.drop (room mp w), n := room mp w, error := false })
    ⟨?_, ?_, ?_, ?_⟩ ⟨?_, ?_, husave⟩ rfl
  · change s.taken ++ w.src.take (room mp w) = s.handed ++ (q ++ w.src.take (room mp w))
    rw [hq.taken, List.append_assoc]
  · rw [List.length_append, hlen, ← hq.size]
    rfl
  · have hs := @Stored.write mp s.frptr q s hq.stored (w.src.take (room mp w)) (base mp junk w s)
      w.fsync (by rw [hlen, ← hq.wr_eq]; exact hon) (by rw [hlen, ← hq.size]; omega)
      (by rw [← hq.wr_eq]; exact ha)
      (fun pos hpos hp => base_live hq ⟨hroom, hsrc, husave⟩ (by rw [hpos, hq.wr_eq]) hp)
    rw [← hq.wr_eq] at hs
    exact hs.congr rfl rfl rfl
  · change _ = (s.frptr + (q ++ w.src.take (room mp w)).length) % mp.PIPSIZ
    dsimp only
    rw [hoff, List.length_append, hlen, ← Nat.add_assoc, hq.wr_eq, wrap, Nat.mod_add_mod]
  · simp only [copyIn]
    omega
  · simp only [List.length_drop]
    omega

theorem writeBlock_inv {alloc : Bool} {junk : Block} {w : Writer} {q : List Nat}
    (hq : Queue mp s.frptr w.offset q s) (hok : WriterOk mp s.size w) :
    Inv mp (writeBlock mp alloc junk .ok w s) := by
  rw [writeBlock]
  dsimp only
  split
  · exact inv_writer (w := { w with error := _, more := false })
      (hq.congr rfl rfl rfl rfl rfl rfl) ⟨hok.room, hok.src, hok.usave⟩ rfl
  · obtain ⟨hq', ha⟩ := extend_queue hq
    have hsize : (extend mp w s).size = s.size := hq'.size.trans hq.size.symm
    exact copyIn_inv hq' (by rw [hsize]; exact hok) ha

theorem writeEnd_inv {w : Writer} {q : List Nat} (hq : Queue mp s.frptr w.offset q s)
    (hok : WriterOk mp s.size w) : Inv mp (writeEnd mp w s) := by
  have hle : s.size ≤ mp.PIPSIZ := by
    rw [hq.size]
    exact hq.stored.le
  obtain ⟨hroom, hsrc, husave⟩ := hok
  rw [writeEnd]
  dsimp only
  split
  · exact floop_inv (q := q) (hq.congr rfl rfl rfl rfl rfl rfl) (by dsimp only; omega) (by omega)
  · exact inv_quiet (q := q) (hq.congr rfl rfl rfl rfl rfl rfl) rfl

/-- What a step preserves. -/
theorem step_inv {op : Op} (hinv : Inv mp s) (hsound : Sound op s) (h : step mp op s = some s') :
    Inv mp s' := by
  cases op with
  | call p c =>
    rw [step] at h
    split at h
    · split at h
      · cases h
        exact hinv.frame rfl rfl rfl rfl rfl rfl rfl rfl rfl
      · cases h
    · cases h
  | enter p =>
    obtain ⟨q, hq⟩ := hinv.queue
    rw [step] at h
    split at h
    · rename_i hh hp
      cases h
      rw [rd, wr, hh] at hq
      exact readi_inv hq hh
    · rename_i src ndelay fsync hh hp
      cases h
      rw [rd, wr, hh] at hq
      exact floop_inv hq (hsound src ndelay fsync hp) (Nat.le_refl _)
    · cases h
  | block alloc junk f =>
    obtain ⟨q, hq⟩ := hinv.queue
    rw [step] at h
    split at h
    · rename_i r hh
      cases h
      rw [rd, wr, hh] at hq
      split
      · refine readBlock_inv (fun m hm => ?_) hq
        rw [hm] at hsound
        exact hsound
      · exact readEnd_inv hq
    · rename_i w hh
      cases h
      have hok := hinv.writer w hh
      rw [rd, wr, hh] at hq
      have hf : f = .ok := by
        cases f with
        | ok => rfl
        | efault m => exact absurd hsound id
        | eio => exact absurd hh (hsound w)
      split
      · rw [hf]
        exact writeBlock_inv hq hok
      · exact writeEnd_inv hq hok
    · cases h
  | interrupt p =>
    rw [step] at h
    split at h
    · cases h
      exact hinv.frame rfl rfl rfl rfl rfl rfl rfl rfl rfl
    · cases h
  | counts r w =>
    rw [step] at h
    cases h
    exact hinv.frame rfl rfl rfl rfl rfl rfl rfl rfl rfl
  | flush k =>
    obtain ⟨q, hq⟩ := hinv.queue
    rw [step] at h
    split at h
    · rename_i data hc
      cases h
      exact ⟨⟨q, hq.taken, hq.size, hq.stored.flush hc, hq.wr_eq⟩, hinv.writer⟩
    · cases h
  | evict k =>
    obtain ⟨q, hq⟩ := hinv.queue
    rw [step] at h
    split at h
    · rename_i data hc
      cases h
      exact ⟨⟨q, hq.taken, hq.size, hq.stored.evict hc, hq.wr_eq⟩, hinv.writer⟩
    · cases h

theorem start_inv (disk : Nat → Block) : Inv mp (start disk) := by
  have hlive : ∀ pos, ¬ Live mp.PIPSIZ 0 ([] : List Nat).length pos := by
    rintro pos ⟨i, hi, -⟩
    simp at hi
  have hP : 0 < mp.PIPSIZ := by
    obtain ⟨hb, -⟩ := mp.blocks
    obtain ⟨B, b, h⟩ := mp
    simp only [List.mem_cons, Prod.mk.injEq, List.not_mem_nil, or_false] at h
    simp only [Mount.PIPSIZ, NFADDR]
    omega
  refine inv_quiet (q := []) ⟨rfl, rfl, ⟨?_, hP, Nat.zero_le _, ?_, ?_⟩, ?_⟩ rfl
  · intro i hi
    simp at hi
  · intro pos hp
    exact absurd hp (hlive pos)
  · intro k b _ _ pos _ hp
    exact absurd hp (hlive pos)
  · simp [start, wrap]

/- Every step of the run is under its conditions. -/
def SoundRun (mp : Mount) : State → List Op → Prop
  | _, [] => True
  | s, op :: ops => Sound op s ∧ ∀ s', step mp op s = some s' → SoundRun mp s' ops

theorem run_inv {ops : List Op} (hinv : Inv mp s) (hsound : SoundRun mp s ops)
    (h : run mp s ops = some s') : Inv mp s' := by
  induction ops generalizing s with
  | nil =>
    cases h
    exact hinv
  | cons op ops ih =>
    obtain ⟨t, ht, h⟩ := Option.bind_eq_some_iff.mp h
    exact ih (step_inv hinv hsound.1 ht) (hsound.2 t ht) h

/- Two bytes are written. -/
def written : List Op :=
  [.call 0 (.write [65, 66] false false), .enter 0, .block true (fun _ => 0) .ok,
    .block true (fun _ => 0) .ok]

end Svr32.Fifo
