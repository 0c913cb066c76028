import Svr32.Lp.FifoRun

/-! What write_fifo writes passes the tests of read_fifo, if the sum of its bytes is small. -/
namespace Svr32.Lp
open Svr32.Lib
variable {M : Machine} {n w : Nat} {bs msg stream : List UInt8} {s : Fifo} {buf : Mem UInt8}

/- A whole message, with its size in the header. -/
def Written (msg : List UInt8) : Prop :=
  ∃ buf size, size ≤ MSGMAX ∧ Mem.Holds buf HEAD_SIZE (hdigits size) ∧
    writeFifo buf size = some msg

def byteSum (bs : List UInt8) : Nat := (bs.map UInt8.toNat).sum

/- What the sum of the bytes is that are checked. -/
def checked (msg : List UInt8) : Nat := byteSum (msg.take (msg.length - 6))

/- Where read_fifo and write_fifo agree about a sum. -/
def sumLimit (M : Machine) : Nat := if M.signed then 2 ^ 15 else 2 ^ 16

theorem foldl_addUp (w c : Nat) (bs : List UInt8) :
    bs.foldl (addUp w) (c % 2 ^ w) = (c + byteSum bs) % 2 ^ w := by
  induction bs generalizing c with
  | nil => rfl
  | cons b bs ih =>
    have hone : addUp w (c % 2 ^ w) b = (c + b.toNat) % 2 ^ w := by
      rw [addUp, Nat.mod_add_mod]
    rw [List.foldl_cons, hone, ih, byteSum, byteSum, List.map_cons, List.sum_cons, add_assoc]

theorem calcChksum_eq (w : Nat) (m : Mem UInt8) (p sz : Int) :
    calcChksum w m p sz = byteSum (Mem.read m p (sz - TAIL_LEN).toNat) % 2 ^ w := by
  have hfold := foldl_addUp w 0 (Mem.read m p (sz - TAIL_LEN).toNat)
  rw [Nat.zero_mod, Nat.zero_add] at hfold
  exact hfold

theorem byteSum_le (bs : List UInt8) : byteSum bs ≤ 255 * bs.length := by
  induction bs with
  | nil => exact le_refl 0
  | cons b bs ih =>
    have hb := b.toNat_lt
    rw [byteSum] at ih ⊢
    rw [List.map_cons, List.sum_cons, List.length_cons]
    omega

theorem field_hdigits (x : Int) :
    field M (hdigits x) = (if M.signed then i16 x else x % 2 ^ 16) % 2 ^ 32 := by
  have hmod : (((x % 2 ^ 16).toNat % 16 ^ 4 % 2 ^ 16 : Nat) : Int) = x % 2 ^ 16 := by omega
  rw [field, foldl_digits, hmod, i16_emod]

/-- A checksum of 16 bits is read as the sum only below a limit. -/
theorem field_sum {x : Nat} (hx : x < 2 ^ 20) :
    ((x % 2 ^ 32 : Nat) : Int) = field M (hdigits (x % 2 ^ 16 : Nat)) ↔ x < sumLimit M := by
  rw [field_hdigits, sumLimit]
  by_cases hs : M.signed = true
  · rw [if_pos hs, if_pos hs, i16, Int.bmod_def]
    split <;> omega
  · rw [if_neg hs, if_neg hs]
    omega

/-- A message that is written passes if and only if its sum is below the limit. -/
theorem written_passes (h : Written msg) : Passes M msg ↔ checked msg < sumLimit M := by
  obtain ⟨buf, size, hmax, hsize, hwrite⟩ := h
  rw [writeFifo] at hwrite
  by_cases hmin : CONTROL_LEN ≤ size
  · rw [if_pos hmin] at hwrite
    simp only [CONTROL_LEN, HEAD_LEN, TAIL_LEN, MSGMAX, HEAD_SIZE] at hmin hmax hsize
    obtain ⟨n, rfl⟩ : ∃ n : Nat, size = n := ⟨size.toNat, by omega⟩
    obtain ⟨b₁, hb₁⟩ : ∃ b, b = Mem.write buf 0 Resync := ⟨_, rfl⟩
    obtain ⟨b₂, hb₂⟩ : ∃ b, b = Mem.write b₁ (TAIL_ENDSYNC n) Endsync := ⟨_, rfl⟩
    obtain ⟨c, hc⟩ : ∃ c, c = calcChksum 16 b₂ 0 n := ⟨_, rfl⟩
    obtain ⟨b₃, hb₃⟩ : ∃ b, b = htos (TAIL_CHKSUM n) c b₂ := ⟨_, rfl⟩
    rw [← hb₁, ← hb₂, ← hc, ← hb₃, Int.toNat_natCast] at hwrite
    cases hwrite
    have hend : (0 : Int) + (n - 2 : Nat) = TAIL_ENDSYNC n := by
      simp only [TAIL_ENDSYNC]
      omega
    have hchk : (0 : Int) + (n - 6 : Nat) = TAIL_CHKSUM n := by
      simp only [TAIL_CHKSUM, TAIL_ENDSYNC]
      omega
    have h₁ : Mem.Same buf b₁ 2 n := by
      rw [hb₁]
      exact Mem.same_write_above (le_refl _) _ _
    have h₂ : Mem.Same b₁ b₂ 0 (n - 2) := by
      rw [hb₂]
      exact Mem.same_write_below (by simp only [TAIL_ENDSYNC]; omega) _ _ _
    have h₃ : Mem.Same b₂ b₃ 0 (n - 6) := by
      rw [hb₃]
      exact htos_same (by simp only [TAIL_CHKSUM, TAIL_ENDSYNC]; omega) _ _
    have h₄ : Mem.Same b₂ b₃ (n - 2) n := by
      rw [hb₃]
      exact htos_same_above (by simp only [TAIL_CHKSUM, TAIL_ENDSYNC]; omega) _ _
    have hresync : Mem.read b₃ 0 2 = Resync := by
      have hw : Mem.Holds b₁ 0 Resync := hb₁ ▸ Mem.write_holds
      have hkeep : Mem.Same b₁ b₃ 0 (0 + Resync.length) := by
        simp only [Resync, List.length_cons, List.length_nil]
        exact (h₂.mono (le_refl 0) (by omega)).trans (h₃.mono (le_refl 0) (by omega))
      exact (hkeep.holds hw).read
    have hfield : Mem.read b₃ (0 + 8) 4 = hdigits n := by
      have hl := length_hdigits n
      have hkeep : Mem.Same buf b₃ 8 (8 + (hdigits n).length) := by
        rw [hl]
        exact ((h₁.mono (by omega) (by omega)).trans (h₂.mono (by omega) (by omega))).trans
          (h₃.mono (by omega) (by omega))
      have hr := (hkeep.holds hsize).read
      rw [length_digits] at hr
      exact hr
    have hendsync : Mem.read b₃ (0 + (n - 2 : Nat)) 2 = Endsync := by
      have hw : Mem.Holds b₂ (TAIL_ENDSYNC n) Endsync := hb₂ ▸ Mem.write_holds
      have hkeep : Mem.Same b₂ b₃ (TAIL_ENDSYNC n) (TAIL_ENDSYNC n + Endsync.length) :=
        h₄.mono (by simp only [TAIL_ENDSYNC]; omega)
          (by simp only [TAIL_ENDSYNC, Endsync, List.length_cons, List.length_nil]; omega)
      rw [hend]
      exact (hkeep.holds hw).read
    have hsum : Mem.read b₃ (0 + (n - 6 : Nat)) 4 = hdigits c := by
      rw [hchk, hb₃]
      have hr := (@tos_holds b₂ (TAIL_CHKSUM n) ((c : Int) % 2 ^ 16).toNat 4).read
      rw [length_digits] at hr
      exact hr
    have hsz : ((n : Int) - TAIL_LEN).toNat = n - 6 := by
      simp only [TAIL_LEN]
      omega
    have hbody : Mem.read b₃ 0 (n - 6) = Mem.read b₂ 0 (n - 6) := by
      have hl := Mem.length_read b₂ 0 (n - 6)
      have hkeep : Mem.Same b₂ b₃ 0 (0 + (Mem.read b₂ 0 (n - 6)).length) := by
        rw [hl]
        exact h₃.mono (le_refl 0) (by omega)
      have hr := (hkeep.holds (Mem.holds_read b₂ 0 (n - 6))).read
      rw [hl] at hr
      exact hr
    have hchecked : checked (Mem.read b₃ 0 n) = byteSum (Mem.read b₃ 0 (n - 6)) := by
      have hslice := @Mem.read_slice _ b₃ 0 0 (n - 6) n (by omega)
      rw [List.drop_zero, Int.natCast_zero, Int.add_zero] at hslice
      rw [checked, Mem.length_read, hslice]
    have hsmall : byteSum (Mem.read b₃ 0 (n - 6)) < 2 ^ 20 := by
      have hle := byteSum_le (Mem.read b₃ 0 (n - 6))
      rw [Mem.length_read] at hle
      omega
    have hc' : c = byteSum (Mem.read b₃ 0 (n - 6)) % 2 ^ 16 := by
      rw [hc, calcChksum_eq, hsz, hbody]
    rw [passes_read (by omega) (by omega), ustoh_eq, ustoh_eq, hfield, hsum, hchecked,
      calcChksum_eq, hsz, field_hdigits, hc', field_sum hsmall]
    constructor
    · exact fun h => h.2.2.2
    · refine fun h => ⟨hresync, ?_, hendsync, h⟩
      by_cases hs : M.signed = true
      · rw [if_pos hs, i16_eq (by omega) (by omega)]
        omega
      · rw [if_neg hs]
        omega
  · rw [if_neg hmin] at hwrite
    cases hwrite

/- A complete valid message: written by write_fifo, or one that passes the tests. -/
def Valid (M : Machine) (msg : List UInt8) : Prop := Passes M msg ∨ Written msg

/- The sums of the messages that are written stay below the limit. -/
def Light (M : Machine) (stream : List UInt8) : Prop :=
  ∀ m, Written m → m <:+: stream → checked m < sumLimit M

structure Served (M : Machine) (stream : List UInt8) (s : Fifo) : Prop where
  sane : 0 ≤ s.psave ∧ s.psave ≤ s.psaveEnd ∧ s.psaveEnd ≤ SAVE_SIZE
  read : ∃ done, stream = done ++ (window s ++ s.pipe)
  looks : ∀ a t, s.pc ≠ .out → Met M (.turn a) s → fetch a s = .ready t →
    need t.pc ≤ t.psaveEnd - t.psave
  passed : ∀ m ∈ s.out, Passes M m
  order : Picks (Valid M) stream s.out (window s ++ s.pipe)
  complete : ∀ pre m post, stream = pre ++ (m ++ post) → Valid M m →
    (∀ pre' m' post', stream = pre' ++ (m' ++ post') → Valid M m' →
      ¬ (pre'.length < pre.length ∧ pre.length < pre'.length + m'.length)) →
    pre.length + (window s ++ s.pipe).length < stream.length →
    ∃ out₁ out₂, s.out = out₁ ++ m :: out₂ ∧ Picks (Valid M) stream out₁ (m ++ post)
  progress : ∀ a, s.pc ≠ .out → ¬ Reads s → (turn M a s).pc = .out ∨
    4 * (window (turn M a s)).length + left (turn M a s).pc <
      4 * (window s).length + left s.pc

/-- read_fifo returns the valid messages of the bytes that it has read. -/
theorem fifo_served (hl : Light M stream) (hr : (reading M stream (Met M)).Reachable s) :
    Served M stream s := by
  have h := inv_reachable hr
  have hpass : ∀ m, Valid M m → m <:+: stream → Passes M m := fun m hm hin =>
    hm.elim id fun hw => (written_passes hw).mpr (hl m hw hin)
  have horder : Picks (Valid M) stream s.out (window s ++ s.pipe) :=
    h.picks.mono (fun m hm => .inl hm) hpass
  obtain ⟨done, hdone⟩ := h.picks.suffix
  refine ⟨⟨h.sane.low, h.sane.mid, h.sane.high⟩, ⟨done, hdone.symm⟩,
    fun a t hpc hm hf => (h.turn hpc hm).2 t hf, fun m hm => h.picks.mem hm, horder,
    fun pre m post hs hm hin hlt => ?_, fun a hpc hno => turn_left h hpc hno⟩
  have hword : ∀ pre m post, stream = pre ++ (m ++ post) → Valid M m → Passes M m :=
    fun pre m post hs hm => hpass m hm ⟨pre, post, by rw [hs, List.append_assoc]⟩
  obtain ⟨out₁, out₂, hout, hpicks⟩ := h.picks.complete
    (fun m m' r hm hm' => passes_unique hm hm') hs (hword pre m post hs hm)
    (fun pre' m' post' hs' hm' => hin pre' m' post' hs' (.inl hm')) hlt
  exact ⟨out₁, out₂, hout, hpicks.mono (fun m hm => .inl hm) hpass⟩

/- read_fifo before its first call, with some bytes in the fifo. -/
def fresh (stream : List UInt8) : Fifo where
  save _ := 0
  psave := 0
  psaveEnd := 0
  hadFullBuffer := false
  garbageBytes := 0
  garbageMessages := 0
  pc := .out
  size := 0
  pipe := stream
  out := []

theorem fresh_boot (stream : List UInt8) : Boot stream (fresh stream) :=
  ⟨⟨rfl, rfl⟩, rfl, rfl, rfl, rfl⟩

/- A message of type 0 without a body. -/
def bare : List UInt8 :=
  [1, 254, 0, 0, 0, 0, 0, 0, 48, 48, 49, 54, 48, 48, 48, 48, 48, 50, 56, 54, 2, 253]

theorem bare_passes : Passes ⟨0, false⟩ bare :=
  ⟨by decide, by decide, by decide, by decide, by decide, by decide⟩

/-- All of a message is read at once. -/
theorem fifo_served_bare : Served ⟨0, false⟩ bare
    (turn ⟨0, false⟩ (.data 22) { fresh bare with pc := .resync, size := 2048 }) := by
  have hl : Light ⟨0, false⟩ bare := fun m _ hin => by
    have hlen := hin.length_le
    have hsum := byteSum_le (m.take (m.length - 6))
    rw [List.length_take] at hsum
    simp only [bare, List.length_cons, List.length_nil] at hlen
    have hlim : sumLimit ⟨0, false⟩ = 65536 := rfl
    rw [checked, hlim]
    omega
  have hr := System.reachable_init (S := reading ⟨0, false⟩ bare (Met ⟨0, false⟩))
    (fresh_boot bare)
  have hr := System.reachable_step hr ⟨_, .call 2048 rfl, trivial⟩
  refine fifo_served hl (System.reachable_step hr ⟨_, .turn (.data 22) nofun, fun _ => .inr ⟨?_, ?_⟩⟩)
  · intro _
    decide
  · intro b _ _ m _ hp
    have hp' : m <+: b ++ [] := hp
    rw [List.append_nil] at hp'
    exact hp'.length_le

/- 300 bytes of ones with the size in the header. -/
def ones : Mem UInt8 := Mem.write (fun _ => 255) HEAD_SIZE (hdigits 300)

/-- A message of which ten bytes are read first is passed over, and a message with large bytes
does not pass at all. -/
theorem fifo_not_served :
    (¬ ∀ stream s, (reading ⟨0, false⟩ stream fun _ _ => True).Reachable s →
      Picks (Valid ⟨0, false⟩) stream s.out (window s ++ s.pipe)) ∧
    ¬ ∀ m, Written m → Passes ⟨0, false⟩ m := by
  constructor
  · intro h
    have hr := System.reachable_init (S := reading ⟨0, false⟩ bare fun _ _ => True)
      (fresh_boot bare)
    have hr := System.reachable_step hr ⟨_, .call 2048 rfl, trivial⟩
    have hr := System.reachable_step hr ⟨_, .turn (.data 10) nofun, trivial⟩
    have hr := System.reachable_step hr ⟨_, .turn .err (by decide), trivial⟩
    exact (h _ _ hr).first rfl (by decide) (.inl bare_passes) List.prefix_rfl
  · intro h
    have hw : Written ((writeFifo ones 300).getD []) :=
      ⟨ones, 300, by decide, Mem.write_holds, rfl⟩
    have hsum : 65536 ≤ checked ((writeFifo ones 300).getD []) := by decide +kernel
    have hlt := (written_passes hw).mp (h _ hw)
    have hlim : sumLimit ⟨0, false⟩ = 65536 := rfl
    omega

end Svr32.Lp
