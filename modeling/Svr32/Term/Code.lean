import Svr32.Lib.System
import Mathlib.Data.List.Nodup

/-! A terminal's input in canonical mode: the interrupt routine that appends batches
to the raw queue and counts line delimiters, and the reads that turn one line of it
into the canonical queue. Echo and flow control go elsewhere and are left out. -/
namespace Svr32.Term

abbrev Byte := UInt8

def TTYHOG : Nat := 256
def CANBSIZ : Nat := 256
def NL : Byte := 10
def CR : Byte := 13
def BSL : Byte := 92

/- The characters of `t_cc` and the modes the two routines test; with `EXTPROC` set the
input modes are all off. `distinct` and `plain` say the special characters differ from
each other, from newline, from carriage return and from the backslash. -/
structure Modes where
  intr : Byte
  quit : Byte
  swtch : Byte
  erase : Byte
  kill : Byte
  eof : Byte
  eol : Byte
  eol2 : Byte
  isig : Bool
  noflsh : Bool
  inlcr : Bool
  igncr : Bool
  icrnl : Bool
  distinct : [NL, intr, quit, swtch, erase, kill, eof, eol, eol2].Nodup
  plain : CR ∉ [intr, quit, swtch, erase, kill, eof, eol, eol2] ∧
    BSL ∉ [intr, quit, swtch, erase, kill, eof, eol, eol2]

/- A process in the sleep of `canon`, with the bytes it asked for. -/
structure Reader where
  count : Nat
  awake : Bool
deriving DecidableEq, Repr

/- `delct` is a char: it counts modulo 256. `clesc` and `iaslp` are bits of `t_state`. -/
structure Tty where
  rawq : List Byte
  canq : List Byte
  delct : Nat
  clesc : Bool
  iaslp : Bool
  readers : List Reader
deriving DecidableEq, Repr

def opened : Tty := ⟨[], [], 0, false, false, []⟩

variable (m : Modes)

def Modes.signal (c : Byte) : Bool := m.isig && (c == m.intr || c == m.quit || c == m.swtch)

def Modes.newline (c : Byte) : Bool := c == NL || c == m.eol || c == m.eol2

/- What the first loop of `ttin` puts on the raw queue for a character. A carriage return
that `IGNCR` drops stays in the buffer, so the second loop still sees it. -/
def Modes.kept (c : Byte) : Option Byte :=
  if c = NL ∧ m.inlcr then some CR
  else if c = CR then
    if m.igncr then none else if m.icrnl then some NL else some c
  else some c

def Modes.seen (c : Byte) : Byte := (m.kept c).getD c

/- `wakeup(&tp->t_rawq)` with the test of `IASLP` before it. -/
def wakeReaders (t : Tty) : Tty :=
  if t.iaslp then
    { t with iaslp := false, readers := t.readers.map fun r => { r with awake := true } }
  else t

/- The `FREAD` half of `ttyflush`. -/
def ttyflush (t : Tty) : Tty :=
  wakeReaders { t with canq := [], rawq := [], delct := 0 }

/- One turn of the second loop of `ttin`; its erase and kill branches only echo. -/
def ttinChar (t : Tty) (c : Byte) : Tty :=
  if m.signal c then
    if m.noflsh then t else ttyflush t
  else
    let counted := if m.newline c then { t with delct := (t.delct + 1) % 256 } else t
    if !t.clesc then
      if c = m.eof then { counted with delct := (counted.delct + 1) % 256 }
      else if c = BSL then { counted with clesc := true }
      else counted
    else if c ≠ BSL then { counted with clesc := false }
    else counted

/- The raw queue with a batch behind it, as the first loop leaves it. -/
def received (t : Tty) (batch : List Byte) : Tty :=
  { t with rawq := t.rawq ++ batch.filterMap m.kept }

def ttin (batch : List Byte) (t : Tty) : Tty :=
  if batch = [] then t
  else if (received m t batch).rawq.length > TTYHOG then ttyflush (received m t batch)
  else
    let t := (batch.map m.seen).foldl (ttinChar m) (received m t batch)
    if t.delct ≠ 0 then wakeReaders t else t

/- What `canon` has after a character: `canonb` (last character first), its escape flag,
and whether the line is over. -/
structure Scan where
  bp : List Byte
  esc : Bool
  done : Bool
deriving DecidableEq, Repr

/- `*bp++ = c` and the tests after it. -/
def canonStore (esc : Bool) (bp : List Byte) (c : Byte) : Scan :=
  if m.newline c then ⟨c :: bp, esc, true⟩
  else if CANBSIZ ≤ (c :: bp).length then ⟨bp, esc, false⟩
  else ⟨c :: bp, esc, false⟩

def canonChar (esc : Bool) (bp : List Byte) (c : Byte) : Scan :=
  if !esc then
    if c = BSL then canonStore m true bp c
    else if c = m.erase then ⟨bp.tail, false, false⟩
    else if c = m.kill then ⟨[], false, false⟩
    else if c = m.eof then ⟨bp, false, true⟩
    else canonStore m false bp c
  else if c = m.erase ∨ c = m.kill ∨ c = m.eof then canonStore m false bp.tail c
  else if c = BSL then canonStore m true bp c
  else canonStore m false bp c

/- The loop of `canon` over the raw queue: the buffer, the queue left, and whether a
delimiter ended it rather than the queue's end. -/
def canonLoop : Bool → List Byte → List Byte → List Byte × List Byte × Bool
  | _, bp, [] => (bp, [], false)
  | esc, bp, c :: cs =>
    let s := canonChar m esc bp c
    if s.done then (s.bp, cs, true) else canonLoop s.esc s.bp cs

/- What `canon` does once there is something to do: a line of the raw queue goes to the
canonical queue. -/
def canonTake (t : Tty) : Tty :=
  let r := canonLoop m false [] t.rawq
  { t with rawq := r.2.1, delct := (t.delct + 255) % 256, canq := t.canq ++ r.1.reverse }

/- The copying loop of `ttread`. -/
def copyOut (count : Nat) (t : Tty) : Tty × Option (List Byte) :=
  ({ t with canq := t.canq.drop count }, some (t.canq.take count))

/- From the test of `t_delct` in `canon` to the end of the read; `none` is a sleep.
`nowait` is a lost carrier or `FNDELAY`. -/
def canonWait (count : Nat) (nowait : Bool) (t : Tty) : Tty × Option (List Byte) :=
  if t.delct = 0 then
    if nowait then copyOut count t
    else ({ t with iaslp := true, readers := t.readers ++ [⟨count, false⟩] }, none)
  else copyOut count (canonTake m t)

def ttread (count : Nat) (nowait : Bool) (t : Tty) : Tty × Option (List Byte) :=
  if t.canq ≠ [] then copyOut count t
  else if t.rawq = [] then canonWait m count nowait { t with delct := 0 }
  else canonWait m count nowait t

/- A batch or a break at interrupt level, a read, a woken reader running on, a reader
whose sleep a signal breaks. -/
inductive Event
  | input (batch : List Byte)
  | brk
  | read (count : Nat) (nowait : Bool)
  | resume (i : Nat) (nowait : Bool)
  | intr (i : Nat)
deriving DecidableEq, Repr

def Tty.leave (t : Tty) (i : Nat) : Tty := { t with readers := t.readers.eraseIdx i }

def step (t : Tty) : Event → Tty × Option (List Byte)
  | .input batch => (ttin m batch t, none)
  | .brk => (ttyflush t, none)
  | .read count nowait => ttread m count nowait t
  | .resume i nowait =>
    match t.readers[i]? with
    | some r => if r.awake then canonWait m r.count nowait (t.leave i) else (t, none)
    | none => (t, none)
  | .intr i => (t.leave i, none)

/- Every run from the opening of the terminal whose events meet `ok`. -/
def runs (ok : Tty → Event → Prop) : Lib.System Tty where
  init t := t = opened
  step s t := ∃ e, ok s e ∧ (step m s e).1 = t

/- The number of complete lines `canon` would find on a queue, one after the other. -/
def found : Nat → List Byte → Nat
  | 0, _ => 0
  | n + 1, q =>
    let r := canonLoop m false [] q
    if r.2.2 then found n r.2.1 + 1 else 0

def lines (q : List Byte) : Nat := found m q.length q

end Svr32.Term

/-! Both routines see an escape as the backslash just before a character. From that,
where a line ends depends on the queue alone. -/
namespace Svr32.Term
variable {m : Modes} {esc : Bool} {c : Byte} {q a b bp : List Byte} {n : Nat}

/- A character that ends a line, with `esc` telling of a backslash just before it. -/
def Modes.stop (m : Modes) (esc : Bool) (c : Byte) : Bool := m.newline c || (c == m.eof && !esc)

/- Whether an escape is pending behind the characters of `q`. -/
def pending : Bool → List Byte → Bool
  | esc, [] => esc
  | _, c :: cs => pending (c == BSL) cs

/- The line ends among the characters of `q`. -/
def ends (m : Modes) : Bool → List Byte → Nat
  | _, [] => 0
  | esc, c :: cs => (if m.stop esc c then 1 else 0) + ends m (c == BSL) cs

/- One line whole: its only end is its last character. -/
def Whole (m : Modes) (line : List Byte) : Prop :=
  ∃ body c, line = body ++ [c] ∧ ends m false body = 0 ∧ m.stop (pending false body) c = true

theorem pending_append (esc : Bool) (a b : List Byte) :
    pending esc (a ++ b) = pending (pending esc a) b := by
  induction a generalizing esc with
  | nil => rfl
  | cons c a ih => simp only [List.cons_append, pending, ih]

theorem ends_append (esc : Bool) (a b : List Byte) :
    ends m esc (a ++ b) = ends m esc a + ends m (pending esc a) b := by
  induction a generalizing esc with
  | nil => simp [ends, pending]
  | cons c a ih =>
    simp only [List.cons_append, ends, pending, ih]
    omega

theorem Modes.ne (m : Modes) :
    m.eof ≠ NL ∧ m.eof ≠ m.eol ∧ m.eof ≠ m.eol2 ∧ m.erase ≠ m.eof ∧ m.kill ≠ m.eof ∧
      BSL ≠ m.eof := by
  have h := m.distinct
  have hp := m.plain
  simp only [List.nodup_cons, List.mem_cons, List.not_mem_nil, or_false, not_or] at h hp
  refine ⟨?_, ?_, ?_, ?_, ?_, ?_⟩ <;> grind

theorem newline_plain (h : m.newline c = true) :
    c ≠ BSL ∧ c ≠ m.erase ∧ c ≠ m.kill ∧ c ≠ m.eof := by
  have hd := m.distinct
  have hp := m.plain
  simp only [List.nodup_cons, List.mem_cons, List.not_mem_nil, or_false, not_or] at hd hp
  simp only [Modes.newline, Bool.or_eq_true, beq_iff_eq] at h
  have hn : NL ≠ BSL := by decide
  refine ⟨?_, ?_, ?_, ?_⟩ <;> grind

theorem stop_plain (h : m.stop esc c = true) : c ≠ BSL := by
  simp only [Modes.stop, Bool.or_eq_true, Bool.and_eq_true, beq_iff_eq] at h
  rcases h with h | h
  · exact (newline_plain h).1
  · rw [h.1]
    exact m.ne.2.2.2.2.2.symm

theorem signal_plain (h : m.signal c = true) (esc : Bool) : c ≠ BSL ∧ m.stop esc c = false := by
  have hd := m.distinct
  have hp := m.plain
  simp only [List.nodup_cons, List.mem_cons, List.not_mem_nil, or_false, not_or] at hd hp
  simp only [Modes.signal, Bool.and_eq_true, Bool.or_eq_true, beq_iff_eq] at h
  constructor
  · grind
  · simp only [Modes.stop, Modes.newline, Bool.or_eq_false_iff, Bool.and_eq_false_iff,
      beq_eq_false_iff_ne]
    refine ⟨⟨⟨?_, ?_⟩, ?_⟩, Or.inl ?_⟩ <;> grind

theorem canonStore_done (esc : Bool) : (canonStore m esc bp c).done = m.newline c := by
  unfold canonStore
  split_ifs with h <;> simp [h]

theorem canonStore_esc (esc : Bool) : (canonStore m esc bp c).esc = esc := by
  unfold canonStore
  split_ifs <;> rfl

/-- `canon` ends a line where `stop` says, and its escape flag is the backslash before. -/
theorem canonChar_spec (m : Modes) (esc : Bool) (bp : List Byte) (c : Byte) :
    (canonChar m esc bp c).done = m.stop esc c ∧
      (m.stop esc c = false → (canonChar m esc bp c).esc = (c == BSL)) := by
  by_cases hn : m.newline c = true
  · obtain ⟨hb, he, hk, hf⟩ := newline_plain hn
    cases esc <;> simp [canonChar, Modes.stop, hn, hb, he, hk, hf, canonStore_done]
  · have hn : m.newline c = false := by simpa using hn
    by_cases hb : c = BSL
    · have hf : c ≠ m.eof := hb ▸ m.ne.2.2.2.2.2
      have hp := m.plain.2
      simp only [List.mem_cons, List.not_mem_nil, or_false, not_or, ← hb] at hp
      cases esc <;>
        simp [canonChar, Modes.stop, hn, hp, canonStore_done, canonStore_esc, ← hb]
    · cases esc
      · by_cases he : c = m.erase
        · simp [canonChar, Modes.stop, ← he, hb, hn, he ▸ m.ne.2.2.2.1]
        · by_cases hk : c = m.kill
          · simp [canonChar, Modes.stop, ← hk, hb, he, hn, hk ▸ m.ne.2.2.2.2.1]
          · by_cases hf : c = m.eof
            · simp [canonChar, Modes.stop, hf ▸ hb, hf ▸ he, hf ▸ hk, hf]
            · simp [canonChar, Modes.stop, hb, he, hk, hf, hn, canonStore_done, canonStore_esc]
      · by_cases hx : c = m.erase ∨ c = m.kill ∨ c = m.eof
        · simp [canonChar, Modes.stop, hx, hn, hb, canonStore_done, canonStore_esc]
        · simp [canonChar, Modes.stop, hx, hn, hb, canonStore_done, canonStore_esc]

/-- With no line end on the queue the loop runs to the queue's end. -/
theorem canonLoop_none (h : ends m esc q = 0) (bp : List Byte) :
    (canonLoop m esc bp q).2 = ([], false) := by
  induction q generalizing esc bp with
  | nil => rfl
  | cons c cs ih =>
    simp only [ends, Nat.add_eq_zero_iff] at h
    have hs : m.stop esc c = false := by
      by_contra hs
      simp [hs] at h
    obtain ⟨hd, he⟩ := canonChar_spec m esc bp c
    rw [hs] at hd
    simp only [canonLoop, hd, Bool.false_eq_true, if_false]
    rw [he hs]
    exact ih h.2 _

/-- Otherwise it takes the first line off the queue, and nothing of what is behind that
line matters to it. -/
theorem canonLoop_some (h : ends m esc q = n + 1) (bp : List Byte) :
    ∃ body c rest, q = body ++ c :: rest ∧ ends m esc body = 0 ∧
      m.stop (pending esc body) c = true ∧ ends m false rest = n ∧
      canonLoop m esc bp q = ((canonLoop m esc bp (body ++ [c])).1, rest, true) := by
  induction q generalizing esc bp with
  | nil => simp [ends] at h
  | cons c cs ih =>
    obtain ⟨hd, he⟩ := canonChar_spec m esc bp c
    by_cases hs : m.stop esc c = true
    · refine ⟨[], c, cs, rfl, rfl, hs, ?_, ?_⟩
      · have hb := stop_plain hs
        simp only [ends, hs, if_true, beq_eq_false_iff_ne.mpr hb] at h
        omega
      · simp [canonLoop, hd, hs]
    · have hs : m.stop esc c = false := by simpa using hs
      rw [hs] at hd
      simp only [ends, hs, Bool.false_eq_true, if_false, Nat.zero_add] at h
      obtain ⟨body, d, rest, hq, hz, ht, hr, hl⟩ := ih h (canonChar m esc bp c).bp
      refine ⟨c :: body, d, rest, by rw [hq, List.cons_append], ?_, ht, hr, ?_⟩
      · simp [ends, hs, hz]
      · simp only [canonLoop, List.cons_append, hd, Bool.false_eq_true, if_false, he hs]
        exact hl

theorem ends_le : ends m esc q ≤ q.length := by
  induction q generalizing esc with
  | nil => simp [ends]
  | cons c cs ih =>
    have hl : ends m (c == BSL) cs ≤ cs.length := ih
    simp only [ends, List.length_cons]
    split_ifs <;> omega

theorem found_eq (h : ends m false q ≤ n) : found m n q = ends m false q := by
  induction n generalizing q with
  | zero => simp [found]; omega
  | succ n ih =>
    cases he : ends m false q with
    | zero => simp [found, canonLoop_none he []]
    | succ k =>
      obtain ⟨body, c, rest, -, -, -, hr, hl⟩ := canonLoop_some he []
      simp only [found, hl, if_true]
      rw [ih (by omega), hr]

/-- The lines `canon` would find are the line ends on the queue. -/
theorem lines_eq (m : Modes) (q : List Byte) : lines m q = ends m false q := found_eq ends_le

theorem lines_some (h : lines m q = n + 1) :
    ∃ line rest, q = line ++ rest ∧ Whole m line ∧ lines m rest = n ∧
      canonLoop m false [] q = ((canonLoop m false [] line).1, rest, true) := by
  rw [lines_eq] at h
  obtain ⟨body, c, rest, hq, hz, hs, hr, hl⟩ := canonLoop_some h []
  refine ⟨body ++ [c], rest, by simpa using hq, ⟨body, c, rfl, hz, hs⟩, ?_, hl⟩
  rw [lines_eq, hr]

theorem Whole.pending (h : Whole m q) : pending false q = false := by
  obtain ⟨body, c, rfl, -, hs⟩ := h
  simp [pending_append, Term.pending, stop_plain hs]

end Svr32.Term
