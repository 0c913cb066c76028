import Svr32.Lp.Fifo
import Svr32.Lp.Message
import Mathlib.Algebra.BigOperators.Group.List.Basic

/-! Runs of read_fifo: what is returned are the messages of the bytes that were read. -/
namespace Svr32.Lp
open Svr32.Lib
variable {M : Machine} {n : Nat} {w bs msg rest stream : List UInt8} {s t : Fifo} {a : Ans}
  {pc : Pc}

/- No message that begins in the window goes on in the fifo. -/
def Whole (M : Machine) (s : Fifo) : Prop :=
  ∀ b, b <:+ window s → b ≠ [] → ∀ m, Passes M m → m <+: b ++ s.pipe → m.length ≤ b.length

/- What has been seen of the message at the front of the window. -/
def At (M : Machine) (w : List UInt8) : Pc → Prop
  | .out => True
  | .resync => True
  | .head => 2 ≤ w.length ∧ w.take 2 = Resync
  | .body n => 16 ≤ w.length ∧ w.take 2 = Resync ∧ field M ((w.drop 8).take 4) = n ∧
    22 ≤ n ∧ n ≤ 2048

theorem At.append (h : At M w pc) (bs : List UInt8) : At M (w ++ bs) pc := by
  cases pc with
  | out => trivial
  | resync => trivial
  | head =>
    obtain ⟨hlen, hsync⟩ := h
    exact ⟨by rw [List.length_append]; omega, by rw [List.take_append_of_le_length hlen, hsync]⟩
  | body n =>
    obtain ⟨hlen, hsync, hsize, hn⟩ := h
    have hkeep : ((w ++ bs).drop 8).take 4 = (w.drop 8).take 4 :=
      (@prefix_slice _ _ _ _ bs List.prefix_rfl (by rw [List.length_append]; omega)
        (by omega)).trans rfl
    exact ⟨by rw [List.length_append]; omega,
      by rw [List.take_append_of_le_length (by omega), hsync], by rw [hkeep, hsize], hn⟩

/-- A message at the front of the window has the size that was read. -/
theorem body_length {x : Int} (h : At M w (.body x)) (hm : Passes M msg)
    (hp : msg <+: w ++ rest) : (msg.length : Int) = x := by
  obtain ⟨hlen, -, hsize, -⟩ := h
  have hlow := hm.low
  rw [← hm.size, prefix_slice hp (by omega) (by omega), hsize]

/-- There is no message at the front if the window is too short for the next READ. -/
theorem Whole.none (h : Whole M s) (hne : window s ≠ []) (hat : At M (window s) pc)
    (hpc : pc ≠ .out) (hlen : ((window s).length : Int) < need pc) (hm : Passes M msg) :
    ¬ msg <+: window s ++ s.pipe := fun hp => by
  have hle := h (window s) List.suffix_rfl hne msg hm hp
  have hlow := hm.low
  cases pc with
  | out => exact hpc rfl
  | resync =>
    simp only [need, HEAD_RESYNC_LEN] at hlen
    omega
  | head =>
    simp only [need, HEAD_LEN] at hlen
    omega
  | body x =>
    have hx := body_length hat hm hp
    simp only [need] at hlen
    omega

structure Inv (M : Machine) (stream : List UInt8) (s : Fifo) : Prop where
  sane : Sane s
  picks : Picks (Passes M) stream s.out (window s ++ s.pipe)
  whole : s.hadFullBuffer = false → Whole M s
  seen : At M (window s) s.pc

theorem window_drop (h : Sane s) (hn : n ≤ (window s).length) {g : Nat} {o : List (List UInt8)}
    {q : Pc} : window { s with psave := s.psave + n, garbageBytes := g, pc := q, out := o } =
    (window s).drop n := by
  have hlen := h.length
  obtain ⟨k, hk⟩ := Nat.exists_eq_add_of_le hn
  have hk' : (s.psaveEnd - (s.psave + n)).toNat = k := by omega
  have hall : (s.psaveEnd - s.psave).toNat = n + k := by omega
  rw [window, window, hall, Mem.read_add, List.drop_left' (Mem.length_read _ _ _)]
  simp only [hk']

/-- SyncUp passes over a byte at which no message begins. -/
theorem Inv.syncUp {g : Nat} (h : Inv M stream s) (hne : window s ≠ [])
    (hno : ∀ m, Passes M m → ¬ m <+: window s ++ s.pipe) :
    Inv M stream (syncUp { s with garbageMessages := g }) := by
  have hpos : 1 ≤ (window s).length := List.length_pos_iff.mpr hne
  have hlen := h.sane.length
  have hwin : window (Lp.syncUp { s with garbageMessages := g }) = (window s).drop 1 :=
    @window_drop 1 { s with garbageMessages := g } ⟨h.sane.low, h.sane.mid, h.sane.high⟩ hpos
      _ _ _
  obtain ⟨x, xs, hx⟩ := List.exists_cons_of_ne_nil hne
  refine ⟨⟨?_, ?_, h.sane.high⟩, ?_, fun hfull b hb hbne m hm hp => ?_, trivial⟩
  · have hlow := h.sane.low
    simp only [Lp.syncUp]
    omega
  · simp only [Lp.syncUp]
    omega
  · have hpicks := h.picks
    rw [hwin, hx, List.drop_one, List.tail_cons]
    rw [hx, List.cons_append] at hpicks hno
    exact .skip hpicks hno
  · rw [hwin] at hb
    exact h.whole hfull b (hb.trans (List.drop_suffix 1 _)) hbne m hm hp

theorem window_slice (s : Fifo) {i k : Nat} (h : i + k ≤ (window s).length) :
    Mem.read s.save (s.psave + i) k = ((window s).drop i).take k := by
  rw [window, Mem.length_read] at h
  rw [window, Mem.read_slice _ _ h]

theorem window_front (s : Fifo) (h : n ≤ (window s).length) :
    Mem.read s.save s.psave n = (window s).take n := by
  have h0 := @window_slice s 0 n (by omega)
  rw [Int.natCast_zero, Int.add_zero, List.drop_zero] at h0
  exact h0

theorem window_ne (h : 1 ≤ (window s).length) : window s ≠ [] :=
  List.length_pos_iff.mp h

/- SyncUp from where no message is counted. -/
theorem Inv.pass (h : Inv M stream s) (hne : window s ≠ [])
    (hno : ∀ m, Passes M m → ¬ m <+: window s ++ s.pipe) : Inv M stream (Lp.syncUp s) :=
  @Inv.syncUp M stream s s.garbageMessages h hne hno

/-- The state is kept, and more has been seen. -/
theorem Inv.goes (h : Inv M stream s) {q : Pc} (hat : At M (window s) q) :
    Inv M stream { s with pc := q } :=
  ⟨⟨h.sane.low, h.sane.mid, h.sane.high⟩, h.picks, h.whole, hat⟩

theorem Inv.after_resync (h : Inv M stream s) (hpc : s.pc = .resync)
    (hw : 2 ≤ (window s).length) : Inv M stream (after M s) := by
  simp only [Lp.after, hpc]
  rw [window_front s hw]
  by_cases hr : (window s).take 2 = Resync
  · rw [if_neg (not_not.mpr hr)]
    exact h.goes ⟨hw, hr⟩
  · rw [if_pos hr]
    refine h.pass (window_ne (by omega)) fun m hm hp => hr ?_
    have hlow := hm.low
    have hpre := @prefix_slice 0 2 _ _ _ hp (by omega) (by omega)
    rw [List.drop_zero, List.drop_zero] at hpre
    rw [← hpre, hm.resync]

theorem Inv.after_head (h : Inv M stream s) (hpc : s.pc = .head)
    (hw : 16 ≤ (window s).length) : Inv M stream (after M s) := by
  have hat := h.seen
  rw [hpc] at hat
  have hC : CONTROL_LEN = 22 := rfl
  have hS : SAVE_SIZE = 2048 := rfl
  have hsize : ustoh M s.save (s.psave + HEAD_SIZE) = field M (((window s).drop 8).take 4) := by
    rw [ustoh_eq, ← @window_slice s 8 4 (by omega)]
    rfl
  simp only [Lp.after, hpc]
  rw [hsize]
  by_cases hbad : field M (((window s).drop 8).take 4) < CONTROL_LEN ∨
      SAVE_SIZE < field M (((window s).drop 8).take 4)
  · rw [if_pos hbad]
    refine h.pass (window_ne (by omega)) fun m hm hp => ?_
    have hlow := hm.low
    have hhigh := hm.high
    have hms := hm.size
    rw [prefix_slice hp (by omega) (by omega)] at hms
    omega
  · rw [if_neg hbad]
    exact h.goes ⟨hw, hat.2, rfl, by omega, by omega⟩

/-- The message is returned. -/
theorem Inv.take (h : Inv M stream s) (hn : n ≤ (window s).length)
    (hpass : Passes M (Mem.read s.save s.psave n)) :
    Inv M stream { s with
      psave := s.psave + n, pc := .out, out := s.out ++ [Mem.read s.save s.psave n] } := by
  have hlen := h.sane.length
  have hlow := h.sane.low
  have hdrop := @window_drop n s h.sane hn s.garbageBytes
    (s.out ++ [Mem.read s.save s.psave n]) .out
  have hsplit : window s = Mem.read s.save s.psave n ++ (window s).drop n := by
    rw [window_front s hn, List.take_append_drop]
  refine ⟨⟨?_, ?_, h.sane.high⟩, ?_, fun hfull b hb hbne m hm hp => ?_, trivial⟩
  · simp only
    omega
  · simp only
    omega
  · rw [hdrop]
    refine .take ?_ hpass
    rw [← List.append_assoc, ← hsplit]
    exact h.picks
  · rw [hdrop] at hb
    exact h.whole hfull b (hb.trans (List.drop_suffix n _)) hbne m hm hp

theorem Inv.after_body {x : Int} (h : Inv M stream s) (hpc : s.pc = .body x)
    (hw : x ≤ (window s).length) : Inv M stream (after M s) := by
  have hat := h.seen
  rw [hpc] at hat
  obtain ⟨hlen16, htake, hfield, hx, hx'⟩ := id hat
  obtain ⟨n, rfl⟩ : ∃ n : Nat, x = n := ⟨x.toNat, by omega⟩
  have hmsg : ∀ m, Passes M m → m <+: window s ++ s.pipe →
      Passes M (Mem.read s.save s.psave n) := fun m hm hp => by
    have hml := body_length hat hm hp
    have hpre := @prefix_slice 0 n _ _ _ hp (by omega) (by omega)
    rw [List.drop_zero, List.drop_zero, List.take_of_length_le (by omega),
      ← window_front s (by omega)] at hpre
    exact hpre ▸ hm
  have hiff := @passes_read M s.save s.psave n (by omega) (by omega)
  have hend : s.psave + TAIL_ENDSYNC n = s.psave + (n - 2 : Nat) := by
    simp only [TAIL_ENDSYNC]
    omega
  have hchk : s.psave + TAIL_CHKSUM n = s.psave + (n - 6 : Nat) := by
    simp only [TAIL_CHKSUM, TAIL_ENDSYNC]
    omega
  simp only [Lp.after, hpc, hend, hchk]
  by_cases h1 : Mem.read s.save (s.psave + (n - 2 : Nat)) 2 = Endsync
  · rw [if_neg (not_not.mpr h1)]
    by_cases h2 : (calcChksum 32 s.save s.psave n : Int) =
        ustoh M s.save (s.psave + (n - 6 : Nat))
    · rw [if_neg (not_not.mpr h2)]
      have hpass : Passes M (Mem.read s.save s.psave n) := by
        refine hiff.mpr ⟨?_, ?_, h1, h2⟩
        · rw [window_front s (by omega), htake]
        · rw [ustoh_eq, ← hfield]
          exact congrArg (field M) (@window_slice s 8 4 (by omega))
      by_cases h3 : s.size < n
      · rw [if_pos h3]
        exact h.goes trivial
      · rw [if_neg h3, Int.toNat_natCast]
        exact h.take (by omega) hpass
    · rw [if_pos h2]
      exact h.syncUp (window_ne (by omega)) fun m hm hp => h2 (hiff.mp (hmsg m hm hp)).2.2.2
  · rw [if_pos h1]
    exact h.syncUp (window_ne (by omega)) fun m hm hp => h1 (hiff.mp (hmsg m hm hp)).2.2.1

/-- What follows a READ that has got its bytes. -/
theorem Inv.after (h : Inv M stream s) (hneed : need s.pc ≤ (window s).length) :
    Inv M stream (after M s) := by
  cases hpc : s.pc with
  | out =>
    simp only [Lp.after, hpc]
    exact h
  | resync =>
    simp only [hpc, need, HEAD_RESYNC_LEN] at hneed
    exact h.after_resync hpc (by omega)
  | head =>
    simp only [hpc, need, HEAD_LEN] at hneed
    exact h.after_head hpc (by omega)
  | body x =>
    rw [hpc] at hneed
    exact h.after_body hpc hneed

end Svr32.Lp

/-! read_fifo and write_fifo together. -/
namespace Svr32.Lp
open Svr32.Lib
variable {M : Machine} {n : Nat} {bs msg rest stream : List UInt8} {s t : Fifo} {a : Ans}

/- The READ calls _buffer. -/
def Reads (s : Fifo) : Prop :=
  s.psaveEnd - s.psave < need s.pc ∧ ¬ (syncd s.pc = true ∧ s.hadFullBuffer = false)

/- A read that does not fill the buffer gives what was asked for, and ends where no message
is left half read. -/
def Met (M : Machine) : Act → Fifo → Prop
  | .call _, _ => True
  | .turn a, s => Reads s → (buffer a s).2.hadFullBuffer = true ∨
    (0 < (buffer a s).1 → need s.pc ≤ (window (buffer a s).2).length) ∧ Whole M (buffer a s).2

theorem Took.inv (ht : Took s t bs) (h : Inv M stream s)
    (hw : t.hadFullBuffer = false → Whole M t) : Inv M stream t := by
  refine ⟨ht.sane, ?_, hw, ?_⟩
  · have hpicks := h.picks
    rw [ht.out, ht.window, List.append_assoc, ← ht.pipe]
    exact hpicks
  · rw [ht.window, ht.pc]
    exact h.seen.append bs

theorem Inv.need_le (h : Inv M stream s) : need s.pc ≤ 2048 := by
  have hat := h.seen
  cases hpc : s.pc with
  | out => decide
  | resync => decide
  | head => decide
  | body x =>
    rw [hpc] at hat
    exact hat.2.2.2.2

/-- One turn keeps the invariant, and looks only at bytes that were read. -/
theorem Inv.turn (h : Inv M stream s) (hpc : s.pc ≠ .out) (hm : Met M (.turn a) s) :
    Inv M stream (turn M a s) ∧
      ∀ t, fetch a s = .ready t → need t.pc ≤ t.psaveEnd - t.psave := by
  have hlen := h.sane.length
  by_cases hlt : s.psaveEnd - s.psave < need s.pc
  · by_cases hsync : syncd s.pc = true ∧ s.hadFullBuffer = false
    · have hfetch : fetch a s = .syncUp s := by rw [fetch, if_pos hlt, if_pos hsync]
      rw [Lp.turn, hfetch]
      have hne : window s ≠ [] := by
        have hat := h.seen
        cases hp : s.pc with
        | out => exact absurd hp hpc
        | resync => rw [hp] at hsync; exact absurd hsync.1 nofun
        | head => rw [hp] at hat; exact window_ne (by have := hat.1; omega)
        | body x => rw [hp] at hat; exact window_ne (by have := hat.1; omega)
      exact ⟨h.pass hne fun m hm =>
        (h.whole hsync.2).none hne h.seen hpc (by omega) hm, nofun⟩
    · have hneed := h.need_le
      obtain ⟨bs, ht, hres⟩ := buffer_spec h.sane (by omega) a
      have hmet := hm ⟨hlt, hsync⟩
      rcases hb : buffer a s with ⟨r, t⟩
      rw [hb] at ht hres hmet
      simp only at ht hres hmet
      have hinv : Inv M stream t := ht.inv h fun hf => by
        rcases hmet with hfull | ⟨-, hw⟩
        · exact absurd (hf.symm.trans hfull) nofun
        · exact hw
      have hpct : t.pc ≠ .out := by
        rw [ht.pc]
        exact hpc
      have hlent := hinv.sane.length
      have hwt := congrArg List.length ht.window
      rw [List.length_append] at hwt
      have hfetch : fetch a s = if r = -1 then .ret t
          else if r = 0 then if t.psave < t.psaveEnd then .syncUp t else .ret t
          else .ready t := by
        rw [fetch, if_pos hlt, if_neg hsync, hb]
      rcases hres with ⟨hr, -, -⟩ | ⟨hr, hfull⟩
      · rw [if_pos hr] at hfetch
        rw [Lp.turn, hfetch]
        exact ⟨hinv.goes trivial, nofun⟩
      · rw [if_neg (by omega)] at hfetch
        by_cases h0 : r = 0
        · rw [if_pos h0] at hfetch
          by_cases hwin : t.psave < t.psaveEnd
          · rw [if_pos hwin] at hfetch
            rw [Lp.turn, hfetch]
            have hw : Whole M t := by
              rcases hmet with hf | ⟨-, hw⟩
              · have hfl := hfull hf
                omega
              · exact hw
            have hne : window t ≠ [] := window_ne (by omega)
            refine ⟨hinv.pass hne fun m hm => hw.none hne hinv.seen hpct ?_ hm, nofun⟩
            rw [ht.pc]
            omega
          · rw [if_neg hwin] at hfetch
            rw [Lp.turn, hfetch]
            exact ⟨hinv.goes trivial, nofun⟩
        · rw [if_neg h0] at hfetch
          have hgot : need t.pc ≤ (window t).length := by
            rw [ht.pc]
            rcases hmet with hf | ⟨hgot, -⟩
            · have hfl := hfull hf
              omega
            · exact hgot (by omega)
          rw [Lp.turn, hfetch]
          refine ⟨hinv.after hgot, fun u hu => ?_⟩
          cases hu
          omega
  · have hfetch : fetch a s = .ready s := by rw [fetch, if_neg hlt]
    rw [Lp.turn, hfetch]
    refine ⟨h.after (by omega), fun u hu => ?_⟩
    cases hu
    omega

/-- The runs whose steps meet a condition. -/
def reading (M : Machine) (stream : List UInt8) (C : Act → Fifo → Prop) : System Fifo where
  init := Boot stream
  step s t := ∃ a, Step M a s t ∧ C a s

theorem inv_boot (h : Boot stream s) : Inv M stream s := by
  obtain ⟨⟨h0, h1⟩, -, hpc, hpipe, hout⟩ := h
  have hwin : window s = [] := by
    rw [window, h0, h1]
    rfl
  refine ⟨⟨h0.ge, by rw [h0, h1], by rw [h1]; decide⟩, ?_, fun _ b hb hne => ?_, ?_⟩
  · rw [hout, hwin, hpipe]
    exact .start
  · rw [hwin] at hb
    exact absurd (List.suffix_nil.mp hb) hne
  · rw [hpc]
    trivial

theorem inv_step {act : Act} (h : Inv M stream s) (hst : Step M act s t) (hm : Met M act s) :
    Inv M stream t := by
  cases hst with
  | call size hpc =>
    exact ⟨⟨h.sane.low, h.sane.mid, h.sane.high⟩, h.picks, h.whole, trivial⟩
  | turn a hpc => exact (h.turn hpc hm).1

theorem inv_reachable (hr : (reading M stream (Met M)).Reachable s) : Inv M stream s :=
  (reading M stream (Met M)).invariant (Inv M stream) (fun _ => inv_boot)
    (fun _ _ h hst => hst.elim fun _ ha => inv_step h ha.1 ha.2) hr

/- The READs that are left for a message. -/
def left : Pc → Nat
  | .out => 0
  | .resync => 3
  | .head => 2
  | .body _ => 1

theorem syncUp_left (h : Sane s) (hne : window s ≠ []) {g : Nat} :
    4 * (window (syncUp { s with garbageMessages := g })).length +
      left (syncUp { s with garbageMessages := g }).pc < 4 * (window s).length + 1 := by
  have hpos : 1 ≤ (window s).length := List.length_pos_iff.mpr hne
  have hwin : window (syncUp { s with garbageMessages := g }) = (window s).drop 1 :=
    @window_drop 1 { s with garbageMessages := g } ⟨h.low, h.mid, h.high⟩ hpos _ _ _
  rw [hwin, List.length_drop]
  simp only [syncUp, left]
  omega

/-- A turn that does not read returns, or gets on. -/
theorem turn_left (h : Inv M stream s) (hpc : s.pc ≠ .out) (hno : ¬ Reads s) :
    (turn M a s).pc = .out ∨ 4 * (window (turn M a s)).length + left (turn M a s).pc <
      4 * (window s).length + left s.pc := by
  have hlen := h.sane.length
  have hat := h.seen
  by_cases hlt : s.psaveEnd - s.psave < need s.pc
  · have hsync : syncd s.pc = true ∧ s.hadFullBuffer = false := by
      by_contra hs
      exact hno ⟨hlt, hs⟩
    have hfetch : fetch a s = .syncUp s := by rw [fetch, if_pos hlt, if_pos hsync]
    rw [turn, hfetch]
    right
    cases hp : s.pc with
    | out => exact absurd hp hpc
    | resync => rw [hp] at hsync; exact absurd hsync.1 nofun
    | head =>
      rw [hp] at hat
      have hup := @syncUp_left s h.sane (window_ne (by have := hat.1; omega)) s.garbageMessages
      simp only [left]
      exact hup.trans (by omega)
    | body x =>
      rw [hp] at hat
      exact @syncUp_left s h.sane (window_ne (by have := hat.1; omega)) s.garbageMessages
  · have hfetch : fetch a s = .ready s := by rw [fetch, if_neg hlt]
    rw [turn, hfetch]
    simp only [after]
    cases hp : s.pc with
    | out => exact absurd hp hpc
    | resync =>
      simp only [hp, need, HEAD_RESYNC_LEN] at hlt
      simp only
      split
      · have hup := @syncUp_left s h.sane (window_ne (by omega)) s.garbageMessages
        right
        simp only [left]
        exact hup.trans (by omega)
      · exact .inr (Nat.lt_succ_self _)
    | head =>
      simp only [hp, need, HEAD_LEN] at hlt
      simp only
      split
      · have hup := @syncUp_left s h.sane (window_ne (by omega)) s.garbageMessages
        right
        simp only [left]
        exact hup.trans (by omega)
      · exact .inr (Nat.lt_succ_self _)
    | body x =>
      rw [hp] at hat
      obtain ⟨h16, -⟩ := hat
      simp only
      split
      · exact .inr (syncUp_left h.sane (window_ne (by omega)))
      · split
        · exact .inr (syncUp_left h.sane (window_ne (by omega)))
        · split
          · exact .inl rfl
          · exact .inl rfl

end Svr32.Lp
