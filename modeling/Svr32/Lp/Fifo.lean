import Svr32.Lp.Codec
import Svr32.Lib.System
import Svr32.Lib.Greedy

/-! lp/lib/msgs: write_fifo.c and read_fifo.c. Addresses are counted from the buffer. A call of
read_fifo is taken apart at the places where READ stands. -/
namespace Svr32.Lp
open Svr32.Lib

def SAVE_SIZE : Int := 2048
def HEAD_RESYNC_LEN : Int := 2

def Resync : List UInt8 := [0x01, 0xFE]
def Endsync : List UInt8 := [0x02, 0xFD]

def TAIL_ENDSYNC (n : Int) : Int := n - 2
def TAIL_CHKSUM (n : Int) : Int := TAIL_ENDSYNC n - 4

/- All of a memory. -/
def all (m : Mem UInt8) : View := fun i => some (m i)

/- RC += *p++, in `w` bits. -/
def addUp (w : Nat) (rc : Nat) (b : UInt8) : Nat := (rc + b.toNat) % 2 ^ w

/- CALC_CHKSUM, for a size that is large enough. -/
def calcChksum (w : Nat) (m : Mem UInt8) (p sz : Int) : Nat :=
  (Mem.read m p (sz - TAIL_LEN).toNat).foldl (addUp w) 0

/-- write_fifo, what it gives to write(). -/
def writeFifo (buf : Mem UInt8) (size : Int) : Option (List UInt8) :=
  let buf := Mem.write buf 0 Resync
  let buf := Mem.write buf (TAIL_ENDSYNC size) Endsync
  if CONTROL_LEN ≤ size then
    some (Mem.read (htos (TAIL_CHKSUM size) (calcChksum 16 buf 0 size) buf) 0 size.toNat)
  else none

/- Where in read_fifo: outside, or at one of the three READs. -/
inductive Pc
  | out
  | resync
  | head
  | body (realSize : Int)
deriving DecidableEq

/- The statics of read_fifo.c, the call that is running, the bytes in the fifo. -/
structure Fifo where
  save : Mem UInt8
  psave : Int
  psaveEnd : Int
  hadFullBuffer : Bool
  garbageBytes : Nat
  garbageMessages : Nat
  pc : Pc
  size : Int
  pipe : List UInt8
  /- What the calls have returned. -/
  out : List (List UInt8)

/- What read() does: it fails, or gives so many bytes at most. -/
inductive Ans
  | err
  | data (n : Nat)

/- while (ps < psave_end) *p++ = *ps++; -/
def copyDown : Nat → Int → Int → Mem UInt8 → Mem UInt8
  | 0, _, _, m => m
  | n + 1, p, ps, m => copyDown n (p + 1) (ps + 1) (Function.update m p (m ps))

/- The move to the front of the buffer. -/
def moveDown (s : Fifo) : Fifo :=
  if s.psaveEnd = s.psave then { s with psave := 0, psaveEnd := 0 }
  else if s.psave ≠ 0 then
    let n := (s.psaveEnd - s.psave).toNat
    { s with save := copyDown n 0 s.psave s.save, psave := 0, psaveEnd := n }
  else s

/- read(fifo, psave_end, nbytes) -/
def readPipe (a : Ans) (nbytes : Int) (s : Fifo) : Int × Fifo :=
  match a with
  | .err => (-1, s)
  | .data n =>
    let bs := s.pipe.take (min n nbytes.toNat)
    (bs.length, { s with
      save := Mem.write s.save s.psaveEnd bs, pipe := s.pipe.drop (min n nbytes.toNat) })

/-- _buffer -/
def buffer (a : Ans) (s : Fifo) : Int × Fifo :=
  let s := moveDown s
  let nbytes := SAVE_SIZE - s.psaveEnd
  let (n, s) := readPipe a nbytes s
  let s := if 0 < n then { s with psaveEnd := s.psaveEnd + n } else s
  (n, { s with hadFullBuffer := nbytes == n })

/- N of a READ. -/
def need : Pc → Int
  | .out => 0
  | .resync => HEAD_RESYNC_LEN
  | .head => HEAD_LEN
  | .body realSize => realSize

/- SYNC of a READ. -/
def syncd : Pc → Bool
  | .resync => false
  | _ => true

/- How a READ ends. -/
inductive Fetch
  | ready (s : Fifo)
  | syncUp (s : Fifo)
  | ret (s : Fifo)

/- The READ at which the call is. -/
def fetch (a : Ans) (s : Fifo) : Fetch :=
  if s.psaveEnd - s.psave < need s.pc then
    if syncd s.pc = true ∧ s.hadFullBuffer = false then .syncUp s
    else
      let (n, s) := buffer a s
      if n = -1 then .ret s
      else if n = 0 then if s.psave < s.psaveEnd then .syncUp s else .ret s
      else .ready s
  else .ready s

/- psave++; Garbage_Bytes++; and on to the first READ. -/
def syncUp (s : Fifo) : Fifo :=
  { s with psave := s.psave + 1, garbageBytes := s.garbageBytes + 1, pc := .resync }

/- stoh, where all can be read; as an unsigned int. -/
def ustoh (M : Machine) (m : Mem UInt8) (p : Int) : Int := (stoh M (all m) p).getD 0 % 2 ^ 32

/- What follows a READ, up to the next one. -/
def after (M : Machine) (s : Fifo) : Fifo :=
  match s.pc with
  | .out => s
  | .resync =>
    if Mem.read s.save s.psave 2 ≠ Resync then syncUp s else { s with pc := .head }
  | .head =>
    let realSize := ustoh M s.save (s.psave + HEAD_SIZE)
    if realSize < CONTROL_LEN ∨ SAVE_SIZE < realSize then syncUp s
    else { s with pc := .body realSize }
  | .body realSize =>
    if Mem.read s.save (s.psave + TAIL_ENDSYNC realSize) 2 ≠ Endsync then
      syncUp { s with garbageMessages := s.garbageMessages + 1 }
    else if (calcChksum 32 s.save s.psave realSize : Int) ≠
        ustoh M s.save (s.psave + TAIL_CHKSUM realSize) then
      syncUp { s with garbageMessages := s.garbageMessages + 1 }
    else if s.size < realSize then { s with pc := .out }
    else { s with
      psave := s.psave + realSize, pc := .out
      out := s.out ++ [Mem.read s.save s.psave realSize.toNat] }

/-- From one READ to the next. -/
def turn (M : Machine) (a : Ans) (s : Fifo) : Fifo :=
  match fetch a s with
  | .ready s => after M s
  | .syncUp s => syncUp s
  | .ret s => { s with pc := .out }

inductive Act
  | call (size : Int)
  | turn (a : Ans)

/-- Calls of read_fifo, one after the other. -/
inductive Step (M : Machine) : Act → Fifo → Fifo → Prop
  | call {s : Fifo} (size : Int) : s.pc = .out →
    Step M (.call size) s { s with pc := .resync, size := size }
  | turn {s : Fifo} (a : Ans) : s.pc ≠ .out → Step M (.turn a) s (turn M a s)

structure Boot (stream : List UInt8) (s : Fifo) : Prop where
  psave : s.psave = 0 ∧ s.psaveEnd = 0
  hadFullBuffer : s.hadFullBuffer = false
  pc : s.pc = .out
  pipe : s.pipe = stream
  out : s.out = []

end Svr32.Lp

/-! The tests of read_fifo as a property of a sequence of bytes, and its save window. -/
namespace Svr32.Lp
open Svr32.Lib
variable {M : Machine} {m : Mem UInt8} {p : Int} {n i k : Nat} {bs w msg rest : List UInt8}
  {s t : Fifo} {a : Ans}

/- What four bytes say, as an unsigned int. -/
def field (M : Machine) (bs : List UInt8) : Int :=
  (if M.signed then i16 (bs.foldl (shiftIn M 16) 0 : Nat) else (bs.foldl (shiftIn M 16) 0 : Nat))
    % 2 ^ 32

theorem ustoh_eq : ustoh M m p = field M (Mem.read m p 4) := rfl

/-- The size, end-sync and checksum tests. -/
structure Passes (M : Machine) (bs : List UInt8) : Prop where
  low : 22 ≤ bs.length
  high : bs.length ≤ 2048
  resync : bs.take 2 = Resync
  size : field M ((bs.drop 8).take 4) = bs.length
  endsync : (bs.drop (bs.length - 2)).take 2 = Endsync
  chksum : ((bs.take (bs.length - 6)).foldl (addUp 32) 0 : Nat) =
    field M ((bs.drop (bs.length - 6)).take 4)

/-- The tests on the bytes of a memory. -/
theorem passes_read (hn : 22 ≤ n) (hn' : n ≤ 2048) : Passes M (Mem.read m p n) ↔
    Mem.read m p 2 = Resync ∧ ustoh M m (p + 8) = n ∧
    Mem.read m (p + (n - 2 : Nat)) 2 = Endsync ∧
    (calcChksum 32 m p n : Int) = ustoh M m (p + (n - 6 : Nat)) := by
  have hlen := Mem.length_read m p n
  have hsync := @Mem.read_slice _ m p 0 2 n (by omega)
  have hsize := @Mem.read_slice _ m p 8 4 n (by omega)
  have hend := @Mem.read_slice _ m p (n - 2) 2 n (by omega)
  have hbody := @Mem.read_slice _ m p 0 (n - 6) n (by omega)
  have hchk := @Mem.read_slice _ m p (n - 6) 4 n (by omega)
  have hsz : ((n : Int) - TAIL_LEN).toNat = n - 6 := by
    simp only [TAIL_LEN]
    omega
  rw [List.drop_zero, Int.natCast_zero, Int.add_zero] at hsync hbody
  rw [calcChksum, hsz, ustoh_eq, ustoh_eq]
  constructor
  · intro h
    have hp := h.resync
    have hs := h.size
    have he := h.endsync
    have hc := h.chksum
    rw [hlen] at hs he hc
    rw [hsync] at hp
    rw [hsize] at hs
    rw [hend] at he
    rw [hbody, hchk] at hc
    exact ⟨hp, hs, he, hc⟩
  · rintro ⟨hp, hs, he, hc⟩
    refine ⟨by omega, by omega, hsync.trans hp, ?_, ?_, ?_⟩
    · rw [hlen, hsize]
      exact hs
    · rw [hlen, hend]
      exact he
    · rw [hlen, hbody, hchk]
      exact hc

theorem prefix_slice (h : msg <+: w ++ rest) (hm : i + k ≤ msg.length) (hw : i + k ≤ w.length) :
    (msg.drop i).take k = (w.drop i).take k := by
  obtain ⟨t, ht⟩ := h
  have hl : ((msg ++ t).drop i).take k = ((w ++ rest).drop i).take k := by rw [ht]
  rw [List.drop_append_of_le_length (by omega), List.drop_append_of_le_length (by omega),
    List.take_append_of_le_length (by rw [List.length_drop]; omega),
    List.take_append_of_le_length (by rw [List.length_drop]; omega)] at hl
  exact hl

/-- Of two messages that begin at one place both have the size that stands there. -/
theorem passes_unique {msg' : List UInt8} (h : Passes M msg) (h' : Passes M msg')
    (hp : msg <+: rest) (hp' : msg' <+: rest) : msg = msg' := by
  have hlow := h.low
  have hlow' := h'.low
  have hslice : (msg.drop 8).take 4 = (msg'.drop 8).take 4 := by
    obtain ⟨t, rfl⟩ := hp'
    exact prefix_slice hp (by omega) (by omega)
  have hlen : (msg.length : Int) = msg'.length := by rw [← h.size, hslice, h'.size]
  exact (List.prefix_of_prefix_length_le hp hp' (by omega)).eq_of_length (by omega)

/- The bytes that are saved. -/
def window (s : Fifo) : List UInt8 := Mem.read s.save s.psave (s.psaveEnd - s.psave).toNat

structure Sane (s : Fifo) : Prop where
  low : 0 ≤ s.psave
  mid : s.psave ≤ s.psaveEnd
  high : s.psaveEnd ≤ 2048

theorem Sane.length (h : Sane s) : ((window s).length : Int) = s.psaveEnd - s.psave := by
  have hmid := h.mid
  rw [window, Mem.length_read]
  omega

theorem copyDown_out {q : Int} {ps : Int} (hq : q < p) : copyDown n p ps m q = m q := by
  induction n generalizing p ps m with
  | zero => rfl
  | succ n ih => rw [copyDown, ih (by omega), Function.update_of_ne (by omega)]

/-- The move down keeps the bytes, though the two places may overlap. -/
theorem copyDown_read {ps : Int} (h : p < ps) :
    Mem.read (copyDown n p ps m) p n = Mem.read m ps n := by
  have hholds : Mem.Holds (copyDown n p ps m) p (Mem.read m ps n) := by
    induction n generalizing p ps m with
    | zero => trivial
    | succ n ih =>
      refine ⟨?_, ?_⟩
      · rw [copyDown, copyDown_out (by omega), Function.update_self]
      · have hsame : Mem.Same m (Function.update m p (m ps)) (ps + 1) (ps + 1 + n) :=
          fun i hi _ => Function.update_of_ne (by omega) _ _
        have hread : Mem.read (Function.update m p (m ps)) (ps + 1) n =
            Mem.read m (ps + 1) n := by
          have hlen := Mem.length_read m (ps + 1) n
          have hkeep := @Mem.Same.holds _ _ _ _ (Mem.read m (ps + 1) n)
            (by rw [hlen]; exact hsame) (Mem.holds_read m (ps + 1) n)
          have heq := hkeep.read
          rw [hlen] at heq
          exact heq
        rw [copyDown, ← hread]
        exact ih (by omega)
  have heq := hholds.read
  rw [Mem.length_read] at heq
  exact heq

theorem moveDown_spec (h : Sane s) : window (moveDown s) = window s ∧
    (moveDown s).psave = 0 ∧ (moveDown s).psaveEnd = (window s).length ∧
    (moveDown s).pipe = s.pipe ∧ (moveDown s).pc = s.pc ∧ (moveDown s).out = s.out ∧
    (moveDown s).size = s.size := by
  have hlen := h.length
  have hlow := h.low
  rw [moveDown]
  by_cases he : s.psaveEnd = s.psave
  · rw [if_pos he]
    have hwin : window s = [] := by
      rw [window, he, Int.sub_self]
      rfl
    exact ⟨by rw [hwin]; rfl, rfl, by rw [hwin]; rfl, rfl, rfl, rfl, rfl⟩
  · rw [if_neg he]
    by_cases h0 : s.psave = 0
    · rw [if_neg (not_not.mpr h0)]
      exact ⟨rfl, h0, by omega, rfl, rfl, rfl, rfl⟩
    · rw [if_pos h0]
      refine ⟨?_, rfl, ?_, rfl, rfl, rfl, rfl⟩
      · rw [window, window]
        simp only [Int.sub_zero, Int.toNat_natCast]
        exact copyDown_read (by omega)
      · rw [window, Mem.length_read]

/- What a call of _buffer does: it moves `bs` from the fifo behind the window. -/
structure Took (s t : Fifo) (bs : List UInt8) : Prop where
  pipe : s.pipe = bs ++ t.pipe
  window : window t = window s ++ bs
  sane : Sane t
  pc : t.pc = s.pc
  out : t.out = s.out
  size : t.size = s.size

/-- _buffer, when the window is not full. -/
theorem buffer_spec (h : Sane s) (hw : (window s).length < 2048) (a : Ans) :
    ∃ bs, Took s (buffer a s).2 bs ∧
      ((buffer a s).1 = -1 ∧ bs = [] ∧ (buffer a s).2.hadFullBuffer = false ∨
        (buffer a s).1 = bs.length ∧
        ((buffer a s).2.hadFullBuffer = true → (window (buffer a s).2).length = 2048)) := by
  obtain ⟨hwin, hsave, hend, hpipe, hpc, hout, hsize⟩ := moveDown_spec h
  cases a with
  | err =>
    refine ⟨[], ⟨?_, ?_, ⟨?_, ?_, ?_⟩, hpc, hout, hsize⟩, .inl ⟨rfl, rfl, ?_⟩⟩
    · exact hpipe.symm
    · rw [List.append_nil]
      exact hwin
    · exact hsave.ge
    · exact hsave.le.trans (hend ▸ Int.natCast_nonneg _)
    · exact hend.le.trans (by omega)
    · simp only [buffer, readPipe, SAVE_SIZE, hend, beq_eq_false_iff_ne]
      omega
  | data n =>
    obtain ⟨k, hk⟩ : ∃ k, k = min n (SAVE_SIZE - (moveDown s).psaveEnd).toNat := ⟨_, rfl⟩
    obtain ⟨bs, hbs⟩ : ∃ bs, bs = s.pipe.take k := ⟨_, rfl⟩
    have hkle : bs.length ≤ 2048 - (window s).length := by
      rw [hbs, List.length_take]
      simp only [SAVE_SIZE, hend] at hk
      omega
    have hpos : (if 0 < (bs.length : Int) then (moveDown s).psaveEnd + bs.length
        else (moveDown s).psaveEnd) = (window s).length + bs.length := by
      rw [hend]
      split <;> omega
    have hbuf : buffer (.data n) s = ((bs.length : Int), { moveDown s with
        save := Mem.write (moveDown s).save (moveDown s).psaveEnd bs
        pipe := s.pipe.drop k, psaveEnd := (window s).length + bs.length
        hadFullBuffer := SAVE_SIZE - (moveDown s).psaveEnd == bs.length }) := by
      rw [buffer, readPipe]
      simp only [hpipe, ← hk, ← hbs]
      rw [← hpos]
      split <;> rfl
    rw [hbuf]
    have hwrite : window { moveDown s with
        save := Mem.write (moveDown s).save (moveDown s).psaveEnd bs
        pipe := s.pipe.drop k, psaveEnd := (window s).length + bs.length
        hadFullBuffer := SAVE_SIZE - (moveDown s).psaveEnd == bs.length } = window s ++ bs := by
      rw [window]
      simp only [hsave, hend, Int.sub_zero]
      have hnat : ((window s).length + bs.length : Int).toNat = (window s).length + bs.length := by
        omega
      rw [hnat, Mem.read_add]
      have hold : Mem.Holds (moveDown s).save 0 (window s) := by
        rw [← hwin, window, hsave]
        exact Mem.holds_read _ _ _
      have hkeep := ((Mem.same_write_below (le_refl ((window s).length : Int))
        (moveDown s).save 0 bs).mono (le_refl 0) (by omega)).holds hold
      rw [hkeep.read, Int.zero_add, Mem.write_holds.read]
    refine ⟨bs, ⟨?_, hwrite, ⟨hsave.ge, ?_, ?_⟩, hpc, hout, hsize⟩, .inr ⟨rfl, fun hfull => ?_⟩⟩
    · rw [hbs]
      exact (List.take_append_drop k s.pipe).symm
    · simp only [hsave]
      omega
    · simp only
      omega
    · rw [hwrite, List.length_append]
      simp only [SAVE_SIZE, hend, beq_iff_eq] at hfull
      omega

end Svr32.Lp
