import Svr32.Term.Code
import Mathlib.Data.List.Induction

/-! The delimiter count of a terminal against the lines on its raw queue, in every run of
batches, breaks and reads. -/
namespace Svr32.Term
variable {m : Modes} {s t u : Tty} {c : Byte} {batch q : List Byte} {n : Nat} {nowait : Bool}

/- A character the second loop of `ttin` would count or take for a backslash. -/
def Modes.plainChar (m : Modes) (c : Byte) : Bool :=
  !m.stop false (m.seen c) && m.seen c != BSL

/- The batches both routines read alike, from the escape flag before them: no escape is
pending at a signal character or at a carriage return that is dropped, and what follows
a signal character that flushes has no line end and no backslash. -/
def tidy (m : Modes) : Bool → List Byte → Bool
  | _, [] => true
  | esc, c :: cs =>
    if m.kept c = none then !esc && tidy m false cs
    else if m.signal (m.seen c) then
      !esc && (m.noflsh || cs.all m.plainChar) && tidy m false cs
    else tidy m (m.seen c == BSL) cs

/-- When the flag `ttin` keeps stays true to the queue: an escape is not cut off by a
break or an overflow, a batch is tidy, and the queue does not come to hold 256 lines. -/
def Clean (m : Modes) (t : Tty) : Event → Prop
  | .brk => t.clesc = false
  | .input batch =>
    if (received m t batch).rawq.length > TTYHOG then t.clesc = false
    else tidy m t.clesc batch = true ∧ lines m (received m t batch).rawq < 256
  | _ => True

/- What the count and the flag tell of the raw queue, and whom the sleep holds. -/
structure Good (m : Modes) (t : Tty) : Prop where
  counted : t.delct = lines m t.rawq
  small : lines m t.rawq < 256
  esc : t.clesc = pending false t.rawq
  idle : t.iaslp = true → t.delct = 0
  parked : ∀ r ∈ t.readers, r.awake = false → t.iaslp = true

/- How a read leaves the terminal: the queues as they were but for the bytes it was
given, or one whole line taken off the raw queue. `none` is a sleep. -/
def Served (m : Modes) (t : Tty) (r : Tty × Option (List Byte)) : Prop :=
  (r.1.rawq = t.rawq ∧ r.2.getD [] ++ r.1.canq = t.canq ∧
      (lines m t.rawq = 0 ∨ t.canq ≠ [] ∧ r.2 ≠ none)) ∨
    ∃ line rest, t.rawq = line ++ rest ∧ Whole m line ∧ r.1.rawq = rest ∧ r.2 ≠ none ∧
      r.2.getD [] ++ r.1.canq = t.canq ++ (canonLoop m false [] line).1.reverse

theorem lines_nil (m : Modes) : lines m [] = 0 := rfl

@[simp] theorem wakeReaders_rawq (t : Tty) : (wakeReaders t).rawq = t.rawq := by
  unfold wakeReaders
  split <;> rfl

@[simp] theorem wakeReaders_delct (t : Tty) : (wakeReaders t).delct = t.delct := by
  unfold wakeReaders
  split <;> rfl

@[simp] theorem wakeReaders_clesc (t : Tty) : (wakeReaders t).clesc = t.clesc := by
  unfold wakeReaders
  split <;> rfl

theorem wakeReaders_iaslp (t : Tty) : (wakeReaders t).iaslp = false := by
  unfold wakeReaders
  split_ifs with h
  · rfl
  · simpa using h

theorem wakeReaders_parked (h : ∀ r ∈ t.readers, r.awake = false → t.iaslp = true) :
    ∀ r ∈ (wakeReaders t).readers, r.awake = false → (wakeReaders t).iaslp = true := by
  unfold wakeReaders
  split_ifs with hi
  · intro r hr ha
    obtain ⟨r', -, rfl⟩ := List.mem_map.1 hr
    exact absurd ha (by simp)
  · exact h

/-- A flush empties the queues; all that can go wrong is an escape left pending. -/
theorem Good.flush (hp : ∀ r ∈ t.readers, r.awake = false → t.iaslp = true)
    (he : t.clesc = false) : Good m (ttyflush t) where
  counted := by simp [ttyflush, lines_nil]
  small := by simp [ttyflush, lines_nil]
  esc := by simp [ttyflush, he, pending]
  idle := by simp [ttyflush]
  parked := wakeReaders_parked (t := { t with canq := [], rawq := [], delct := 0 }) hp

theorem good_opened (m : Modes) : Good m opened where
  counted := rfl
  small := Nat.zero_lt_succ _
  esc := rfl
  idle := fun _ => rfl
  parked := fun r hr => absurd hr (by simp [opened])

/-- An ordinary character moves the count by one line end and the flag to the backslash. -/
theorem ttinChar_plain (h : m.signal c = false) (t : Tty) :
    ttinChar m t c = { t with
      delct := if m.stop t.clesc c then (t.delct + 1) % 256 else t.delct
      clesc := c == BSL } := by
  have hb := m.ne.2.2.2.2.2
  obtain ⟨rawq, canq, delct, clesc, iaslp, readers⟩ := t
  by_cases hn : m.newline c = true
  · obtain ⟨h1, -, -, h4⟩ := newline_plain hn
    cases clesc <;> simp [ttinChar, h, Modes.stop, hn, h1, h4]
  · have hn : m.newline c = false := by simpa using hn
    by_cases hf : c = m.eof
    · cases clesc <;> simp [ttinChar, h, Modes.stop, ← hf, hn, hf ▸ hb.symm]
    · by_cases hc : c = BSL
      · subst hc
        cases clesc <;> simp [ttinChar, h, Modes.stop, hn, hb]
      · cases clesc <;> simp [ttinChar, h, Modes.stop, hn, hf, hc]

theorem dropped_plain (h : m.kept c = none) (esc : Bool) :
    m.signal (m.seen c) = false ∧ m.stop esc (m.seen c) = false ∧ m.seen c ≠ BSL := by
  have hc : m.seen c = CR := by
    rw [Modes.seen, h, Option.getD_none]
    by_contra hc
    rw [Modes.kept] at h
    split_ifs at h
  have hp := m.plain.1
  simp only [List.mem_cons, List.not_mem_nil, or_false, not_or] at hp
  have hn : (CR == NL) = false := by decide
  rw [hc]
  exact ⟨by simp [Modes.signal, hp], by simp [Modes.stop, Modes.newline, hp, hn], by decide⟩

/- The turns of the second loop of `ttin` over a batch. -/
def scanned (m : Modes) (batch : List Byte) (t : Tty) : Tty :=
  (batch.map m.seen).foldl (ttinChar m) t

theorem scanned_cons (c : Byte) (batch : List Byte) (t : Tty) :
    scanned m (c :: batch) t = scanned m batch (ttinChar m t (m.seen c)) := rfl

/- A queue just flushed, with the rest of the batch still to be looked at. -/
structure Emptied (t : Tty) : Prop where
  rawq : t.rawq = []
  delct : t.delct = 0
  clesc : t.clesc = false
  parked : ∀ r ∈ t.readers, r.awake = false → t.iaslp = true

theorem Emptied.flush (he : t.clesc = false)
    (hp : ∀ r ∈ t.readers, r.awake = false → t.iaslp = true) : Emptied (ttyflush t) where
  rawq := by simp [ttyflush]
  delct := by simp [ttyflush]
  clesc := by simp [ttyflush, he]
  parked := wakeReaders_parked (t := { t with canq := [], rawq := [], delct := 0 }) hp

/-- Characters with no line end and no backslash leave an emptied queue's count alone. -/
theorem Emptied.scanned (h : Emptied t) (hb : batch.all m.plainChar = true) :
    Emptied (scanned m batch t) := by
  induction batch generalizing t with
  | nil => exact h
  | cons c cs ih =>
    rw [List.all_cons, Bool.and_eq_true] at hb
    rw [scanned_cons]
    refine ih ?_ hb.2
    by_cases hs : m.signal (m.seen c) = true
    · rw [ttinChar, if_pos hs]
      split_ifs
      · exact h
      · exact .flush h.clesc h.parked
    · have hc := hb.1
      simp only [Modes.plainChar, Bool.and_eq_true, Bool.not_eq_true', bne_iff_ne] at hc
      rw [ttinChar_plain (by simpa using hs)]
      exact ⟨h.rawq, by simp [h.clesc, hc.1, h.delct], by simpa using hc.2, h.parked⟩

/- The loop's invariant: what the count and the flag tell of the part of the queue that
has been looked at. -/
structure Counted (m : Modes) (q : List Byte) (t : Tty) : Prop where
  delct : t.delct = lines m q % 256
  clesc : t.clesc = pending false q
  parked : ∀ r ∈ t.readers, r.awake = false → t.iaslp = true

theorem Counted.char (h : Counted m q t) (hs : m.signal c = false) :
    Counted m (q ++ [c]) (ttinChar m t c) := by
  rw [ttinChar_plain hs]
  refine ⟨?_, by simp [pending_append, pending], h.parked⟩
  simp only [lines_eq, ends_append, ends, Nat.add_zero, ← h.clesc]
  have hd := h.delct
  rw [lines_eq] at hd
  split_ifs <;> omega

theorem Counted.silent (h : Counted m q t) (hs : m.signal c = true) (he : t.clesc = false) :
    Counted m (q ++ [c]) t := by
  obtain ⟨hb, ht⟩ := signal_plain hs (pending false q)
  refine ⟨?_, by simp [pending_append, pending, he, hb], h.parked⟩
  simpa [lines_eq, ends_append, ends, ht] using h.delct

/-- Over a tidy batch the count and the flag follow the queue, or the queue is flushed. -/
theorem Counted.scanned (h : Counted m q t) (hq : t.rawq = q ++ batch.filterMap m.kept)
    (ht : tidy m t.clesc batch = true) :
    (scanned m batch t).rawq = t.rawq ∧ Counted m t.rawq (scanned m batch t) ∨
      Emptied (scanned m batch t) := by
  induction batch generalizing t q with
  | nil =>
    rw [List.filterMap_nil, List.append_nil] at hq
    exact Or.inl ⟨rfl, hq ▸ h⟩
  | cons c cs ih =>
    rw [scanned_cons]
    cases hk : m.kept c with
    | none =>
      -- dropped by the first loop, so the queue has not got it
      obtain ⟨h1, h2, h3⟩ := dropped_plain hk t.clesc
      simp only [tidy, hk, if_true, Bool.and_eq_true, Bool.not_eq_true'] at ht
      have hu : ttinChar m t (m.seen c) = t := by
        have hb : (m.seen c == BSL) = t.clesc := by simpa [ht.1] using h3
        simp only [ttinChar_plain h1, h2, hb, Bool.false_eq_true, if_false]
      rw [hu]
      exact ih h (by simpa [hk] using hq) (ht.1 ▸ ht.2)
    | some d =>
      have hd : m.seen c = d := by rw [Modes.seen, hk, Option.getD_some]
      rw [List.filterMap_cons_some hk, ← List.singleton_append, ← List.append_assoc] at hq
      rw [hd]
      by_cases hs : m.signal d = true
      · simp only [tidy, hk, hd, hs, if_true, reduceCtorEq, if_false, Bool.and_eq_true,
          Bool.not_eq_true', Bool.or_eq_true] at ht
        obtain ⟨⟨he, hf⟩, ht⟩ := ht
        rw [ttinChar, if_pos hs]
        split_ifs with hn
        · exact ih (h.silent hs he) hq (he ▸ ht)
        · exact Or.inr ((Emptied.flush he h.parked).scanned (hf.resolve_left hn))
      · have hs : m.signal d = false := by simpa using hs
        have hu := ttinChar_plain hs t
        simp only [tidy, hk, hd, hs, Bool.false_eq_true, reduceCtorEq, if_false] at ht
        have hr : (ttinChar m t d).rawq = t.rawq := by rw [hu]
        have := ih (h.char hs) (hr ▸ hq) (by rw [hu]; exact ht)
        rwa [hr] at this

theorem Good.of_counted (h : Counted m t.rawq t) (hl : lines m t.rawq < 256) :
    Good m (if t.delct ≠ 0 then wakeReaders t else t) := by
  have hd : t.delct = lines m t.rawq := by rw [h.delct, Nat.mod_eq_of_lt hl]
  split_ifs with h0
  · exact ⟨by simpa using hd, by simpa using hl, by simpa using h.clesc,
      fun hi => absurd hi (by simp [wakeReaders_iaslp]), wakeReaders_parked h.parked⟩
  · exact ⟨hd, hl, h.clesc, fun _ => by omega, h.parked⟩

theorem Emptied.counted (h : Emptied t) : Counted m t.rawq t :=
  ⟨by simp [h.delct, h.rawq, lines_nil], by simp [h.clesc, h.rawq, pending], h.parked⟩

theorem Good.ttin (h : Good m t) (hc : Clean m t (.input batch)) : Good m (ttin m batch t) := by
  rw [Term.ttin.eq_def]
  by_cases hb : batch = []
  · rw [if_pos hb]
    exact h
  · rw [if_neg hb]
    simp only [Clean] at hc
    by_cases ho : (received m t batch).rawq.length > TTYHOG
    · rw [if_pos ho] at hc ⊢
      exact .flush (t := received m t batch) h.parked hc
    · rw [if_neg ho] at hc ⊢
      have h0 : Counted m t.rawq (received m t batch) :=
        ⟨by rw [Nat.mod_eq_of_lt h.small]; exact h.counted, h.esc, h.parked⟩
      have hb : (received m t batch).rawq = t.rawq ++ batch.filterMap m.kept := rfl
      obtain ⟨hr, hq⟩ | he := h0.scanned hb hc.1
      · exact .of_counted (t := scanned m batch (received m t batch)) (hr ▸ hq) (hr ▸ hc.2)
      · refine .of_counted (t := scanned m batch (received m t batch)) he.counted ?_
        rw [he.rawq, lines_nil]
        exact Nat.zero_lt_succ _

/-- Sleepers come and go while the count is 0; nothing else of the terminal changes. -/
theorem Good.wait (h : Good m t) (h0 : t.delct = 0) (l : List Reader) :
    Good m { t with iaslp := true, readers := l } :=
  ⟨h.counted, h.small, h.esc, fun _ => h0, fun _ _ _ => rfl⟩

theorem Good.fewer (h : Good m t) {l : List Reader} (hl : ∀ r ∈ l, r ∈ t.readers) :
    Good m { t with readers := l } :=
  ⟨h.counted, h.small, h.esc, h.idle, fun r hr => h.parked r (hl r hr)⟩

theorem Good.leave (h : Good m t) (i : Nat) : Good m (t.leave i) :=
  h.fewer fun _ hr => List.mem_of_mem_eraseIdx hr

theorem Good.copyOut (h : Good m t) (n : Nat) : Good m (copyOut n t).1 :=
  ⟨h.counted, h.small, h.esc, h.idle, h.parked⟩

/-- With a line counted, `canon` takes the first line there is and counts one fewer. -/
theorem Good.take (h : Good m t) (h0 : t.delct ≠ 0) :
    Good m (canonTake m t) ∧ ∃ line rest, t.rawq = line ++ rest ∧ Whole m line ∧
      (canonTake m t).rawq = rest ∧
      (canonTake m t).canq = t.canq ++ (canonLoop m false [] line).1.reverse := by
  have hl : lines m t.rawq = (t.delct - 1) + 1 := by
    have := h.counted
    omega
  obtain ⟨line, rest, hq, hw, hr, hc⟩ := lines_some hl
  have hs := h.small
  have hd : (t.delct + 255) % 256 = lines m rest := by omega
  refine ⟨⟨?_, ?_, ?_, ?_, h.parked⟩, line, rest, hq, hw, ?_, ?_⟩
  · simp only [canonTake, hc]
    exact hd
  · simp only [canonTake, hc]
    omega
  · simp only [canonTake, hc]
    rw [h.esc, hq, pending_append, hw.pending]
  · exact fun hi => absurd (h.idle hi) h0
  · simp only [canonTake, hc]
  · simp only [canonTake, hc]

theorem Good.canonWait (h : Good m t) (n : Nat) (nowait : Bool) :
    Good m (canonWait m n nowait t).1 ∧ Served m t (canonWait m n nowait t) := by
  rw [Term.canonWait]
  by_cases h0 : t.delct = 0
  · have hl : lines m t.rawq = 0 := h.counted ▸ h0
    rw [if_pos h0]
    split_ifs
    · exact ⟨h.copyOut n, Or.inl ⟨rfl, List.take_append_drop n t.canq, Or.inl hl⟩⟩
    · exact ⟨h.wait h0 _, Or.inl ⟨rfl, rfl, Or.inl hl⟩⟩
  · rw [if_neg h0]
    obtain ⟨hg, line, rest, hq, hw, hr, hc⟩ := h.take h0
    refine ⟨hg.copyOut n, Or.inr ⟨line, rest, hq, hw, hr, Option.some_ne_none _, ?_⟩⟩
    rw [← hc]
    exact List.take_append_drop n _

theorem Good.ttread (h : Good m t) (n : Nat) (nowait : Bool) :
    Good m (ttread m n nowait t).1 ∧ Served m t (ttread m n nowait t) := by
  rw [Term.ttread]
  split_ifs with hc hq
  · exact ⟨h.copyOut n, Or.inl ⟨rfl, List.take_append_drop n t.canq,
      Or.inr ⟨hc, Option.some_ne_none _⟩⟩⟩
  · -- the queue is empty, so the count is 0 already
    have hd : t.delct = 0 := by rw [h.counted, hq, lines_nil]
    have ht : { t with delct := 0 } = t := by rw [← hd]
    rw [ht]
    exact h.canonWait n nowait
  · exact h.canonWait n nowait

theorem Good.step (h : Good m t) {e : Event} (hc : Clean m t e) : Good m (step m t e).1 := by
  cases e with
  | input batch => exact h.ttin hc
  | brk => exact .flush h.parked hc
  | read count nowait => exact (h.ttread count nowait).1
  | resume i nowait =>
    simp only [Term.step]
    split
    · split_ifs
      · exact ((h.leave i).canonWait _ nowait).1
      · exact h
    · exact h
  | intr i => exact h.leave i

theorem run_good (h : (runs m (Clean m)).Reachable t) : Good m t := by
  refine Lib.System.invariant (Good m) ?_ ?_ h
  · rintro s rfl
    exact good_opened m
  · rintro s t hg ⟨e, hc, rfl⟩
    exact hg.step hc

theorem Served.leave {i : Nat} {r : Tty × Option (List Byte)} (h : Served m (t.leave i) r) :
    Served m t r := h

/-- In every run of clean events the count is that of the lines on the raw queue, nobody
sleeps on while one is there, and a read, or a reader that was woken, takes one whole
line or leaves the raw queue alone. -/
theorem lines_counted (m : Modes) {t : Tty} (h : (runs m (Clean m)).Reachable t) :
    t.delct = lines m t.rawq ∧
      (∀ r ∈ t.readers, r.awake = false → lines m t.rawq = 0) ∧
      (∀ count nowait, Served m t (step m t (.read count nowait))) ∧
      ∀ i nowait r, t.readers[i]? = some r → r.awake = true →
        Served m t (step m t (.resume i nowait)) := by
  have hg := run_good h
  refine ⟨hg.counted, fun r hr ha => ?_, fun count nowait => ?_, fun i nowait r hr ha => ?_⟩
  · rw [← hg.counted]
    exact hg.idle (hg.parked r hr ha)
  · exact (hg.ttread count nowait).2
  · simp only [step, hr, ha, if_true]
    exact ((hg.leave i).canonWait r.count nowait).2.leave

/- A terminal with the usual characters: DEL, ^\, ^Z, #, @, ^D, NUL and 255. -/
def usual : Modes where
  intr := 127
  quit := 28
  swtch := 26
  erase := 35
  kill := 64
  eof := 4
  eol := 0
  eol2 := 255
  isig := true
  noflsh := false
  inlcr := false
  igncr := false
  icrnl := true
  distinct := by decide
  plain := by decide

def after (m : Modes) (es : List Event) : Tty := es.foldl (fun t e => (step m t e).1) opened

theorem after_reachable (m : Modes) (es : List Event) :
    (runs m fun _ _ => True).Reachable (after m es) := by
  induction es using List.reverseRecOn with
  | nil => exact Lib.System.reachable_init rfl
  | append_singleton es e ih =>
    refine Lib.System.reachable_step ih ⟨e, trivial, ?_⟩
    rw [after, after, List.foldl_append, List.foldl_cons, List.foldl_nil]

/- `ab`, newline, an escaped end-of-file, `c`. -/
def typed : Tty := after usual [.input [97, 98, NL, BSL, 4, 99]]

theorem typed_reachable : (runs usual (Clean usual)).Reachable typed := by
  refine Lib.System.reachable_step (Lib.System.reachable_init rfl)
    ⟨.input [97, 98, NL, BSL, 4, 99], ?_, rfl⟩
  rw [Clean, if_neg (by decide)]
  exact ⟨by decide, by decide⟩

theorem lines_counted_typed : typed.delct = lines usual typed.rawq :=
  (lines_counted usual typed_reachable).1

/-- A batch of an interrupt and a newline leaves a line counted on an empty queue, and the
next read returns a line that is not ended. A break after a backslash leaves its escape
behind, and a read sleeps over an end-of-file. -/
theorem count_astray :
    (runs usual fun _ _ => True).Reachable (after usual [.input [127, NL], .input [97]]) ∧
      (after usual [.input [127, NL], .input [97]]).delct = 1 ∧
      lines usual (after usual [.input [127, NL], .input [97]]).rawq = 0 ∧
      (step usual (after usual [.input [127, NL], .input [97]]) (.read 9 false)).2 = some [97] ∧
    (runs usual fun _ _ => True).Reachable
        (after usual [.input [BSL], .brk, .input [4], .read 9 false]) ∧
      lines usual (after usual [.input [BSL], .brk, .input [4], .read 9 false]).rawq = 1 ∧
      (after usual [.input [BSL], .brk, .input [4], .read 9 false]).readers = [⟨9, false⟩] := by
  refine ⟨after_reachable _ _, by decide, by decide, by decide,
    after_reachable _ _, by decide, by decide⟩

end Svr32.Term
