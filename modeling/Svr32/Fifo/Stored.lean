import Svr32.Fifo.Code

/-! s5rdwri.c: the bytes that have been written and not read, in the blocks of the FIFO and the
buffers over them. A buffer whose writing has been cancelled holds none of them. -/
namespace Svr32.Fifo
open Svr32.Lib
variable {mp : Mount} {rd : Nat} {q : List Nat} {s s' : State}

theorem Mount.blocks (mp : Mount) : 0 < mp.bsize ∧ ∃ c, mp.PIPSIZ = c * mp.bsize := by
  obtain ⟨B, b, h⟩ := mp
  simp only [List.mem_cons, Prod.mk.injEq, List.not_mem_nil, or_false] at h
  obtain ⟨rfl, rfl⟩ | ⟨rfl, rfl⟩ | ⟨rfl, rfl⟩ | ⟨rfl, rfl⟩ := h
  · exact ⟨by simp, 10, rfl⟩
  · exact ⟨by simp, 10, rfl⟩
  · exact ⟨by simp, 5, rfl⟩
  · exact ⟨by simp, 10, rfl⟩

theorem Mount.pipsiz_lt (mp : Mount) : 2 * mp.PIPSIZ < 2 ^ 32 := by
  obtain ⟨B, b, h⟩ := mp
  simp only [List.mem_cons, Prod.mk.injEq, List.not_mem_nil, or_false] at h
  obtain ⟨rfl, rfl⟩ | ⟨rfl, rfl⟩ | ⟨rfl, rfl⟩ | ⟨rfl, rfl⟩ := h <;> simp [Mount.PIPSIZ, NFADDR]

/-- A block does not go past the end of the FIFO. -/
theorem Mount.block_end (mp : Mount) {offset n : Nat} (h : offset < mp.PIPSIZ)
    (hn : offset % mp.bsize + n ≤ mp.bsize) : offset + n ≤ mp.PIPSIZ := by
  obtain ⟨hb, c, hc⟩ := mp.blocks
  rw [hc] at h ⊢
  have hdiv : offset / mp.bsize + 1 ≤ c := by
    rw [Nat.succ_le_iff, Nat.div_lt_iff_lt_mul hb]
    exact h
  have hmul := Nat.mul_le_mul_right mp.bsize hdiv
  have hmod := Nat.div_add_mod offset mp.bsize
  rw [Nat.add_mul, Nat.one_mul, Nat.mul_comm] at hmul
  omega

def State.byteAt (mp : Mount) (s : State) (pos : Nat) : Nat :=
  s.bread (pos / mp.bsize) (pos % mp.bsize)

/-- The queue `q` begins at `rd` and is in the blocks. -/
structure Stored (mp : Mount) (rd : Nat) (q : List Nat) (s : State) : Prop where
  ring : Ring mp.PIPSIZ (s.byteAt mp) rd q
  rd_lt : rd < mp.PIPSIZ
  le : q.length ≤ mp.PIPSIZ
  addr : ∀ pos, Live mp.PIPSIZ rd q.length pos → s.addr (pos / mp.bsize) = true
  clean : ∀ k b, s.cache k = some b → b.delwri = false → ∀ pos, pos / mp.bsize = k →
    Live mp.PIPSIZ rd q.length pos → b.data (pos % mp.bsize) = s.disk k (pos % mp.bsize)

theorem Stored.congr (h : Stored mp rd q s) (ha : s'.addr = s.addr) (hd : s'.disk = s.disk)
    (hc : s'.cache = s.cache) : Stored mp rd q s' := by
  refine ⟨h.ring.congr fun pos _ => ?_, h.rd_lt, h.le, by rw [ha]; exact h.addr, ?_⟩
  · rw [State.byteAt, State.byteAt, State.bread, State.bread, hd, hc]
  · rw [hd, hc]
    exact h.clean

theorem change_self {α : Type} (f : Nat → α) (k : Nat) (x : α) : change f k x k = x := if_pos rfl

theorem change_ne {α : Type} {f : Nat → α} {k i : Nat} {x : α} (h : i ≠ k) :
    change f k x i = f i := if_neg h

/- Where the blocks hold the same at the places that are taken, and clean buffers agree with the
disk there, the queue is the same. -/
theorem Stored.keep {rd' : Nat} {q' : List Nat} (h : Stored mp rd q s)
    (hring : Ring mp.PIPSIZ (s.byteAt mp) rd' q') (hrd : rd' < mp.PIPSIZ)
    (hle : q'.length ≤ mp.PIPSIZ)
    (hlive : ∀ pos, Live mp.PIPSIZ rd' q'.length pos → Live mp.PIPSIZ rd q.length pos)
    (ha : s'.addr = s.addr)
    (hbread : ∀ pos, Live mp.PIPSIZ rd' q'.length pos → s'.byteAt mp pos = s.byteAt mp pos)
    (hclean : ∀ k b, s'.cache k = some b → b.delwri = false → ∀ pos, pos / mp.bsize = k →
      Live mp.PIPSIZ rd' q'.length pos → b.data (pos % mp.bsize) = s'.disk k (pos % mp.bsize)) :
    Stored mp rd' q' s' :=
  ⟨hring.congr hbread, hrd, hle, fun pos hp => by rw [ha]; exact h.addr pos (hlive pos hp), hclean⟩

/-- A buffer is written out. -/
theorem Stored.flush (h : Stored mp rd q s) {k : Nat} {data : Block}
    (hc : s.cache k = some ⟨data, true⟩) :
    Stored mp rd q { s with
      disk := change s.disk k data, cache := change s.cache k (some ⟨data, false⟩) } := by
  have hbread : ∀ i, State.bread { s with
      disk := change s.disk k data, cache := change s.cache k (some ⟨data, false⟩) } i =
      s.bread i := by
    intro i
    rw [State.bread, State.bread]
    by_cases hi : i = k
    · rw [hi, hc]
      simp only [change_self]
    · simp only [change_ne hi]
  refine h.keep h.ring h.rd_lt h.le (fun _ => id) rfl (fun pos _ => by rw [State.byteAt, hbread]; rfl)
    fun i b hb hd pos hi hp => ?_
  by_cases hik : i = k
  · simp only [hik, change_self, Option.some.injEq] at hb ⊢
    rw [← hb]
  · simp only [change_ne hik] at hb ⊢
    exact h.clean i b hb hd pos hi hp

/-- A clean buffer is reused for something else. -/
theorem Stored.evict (h : Stored mp rd q s) {k : Nat} {data : Block}
    (hc : s.cache k = some ⟨data, false⟩) :
    Stored mp rd q { s with cache := change s.cache k none } := by
  refine h.keep h.ring h.rd_lt h.le (fun _ => id) rfl (fun pos hp => ?_)
    fun i b hb hd pos hi hp => ?_
  · rw [State.byteAt, State.byteAt, State.bread, State.bread]
    by_cases hi : pos / mp.bsize = k
    · have := h.clean k _ hc rfl pos hi hp
      simp only [hi, change_self, hc]
      exact this.symm
    · simp only [change_ne hi]
  · by_cases hik : i = k
    · simp only [hik, change_self] at hb
      cases hb
    · simp only [change_ne hik] at hb
      exact h.clean i b hb hd pos hi hp

theorem block_pos {offset bsize j : Nat} (hb : 0 < bsize) (hj : offset % bsize + j < bsize) :
    (offset + j) / bsize = offset / bsize ∧ (offset + j) % bsize = offset % bsize + j := by
  have hsplit : offset + j = offset % bsize + j + bsize * (offset / bsize) := by
    have := Nat.mod_add_div offset bsize
    omega
  rw [hsplit, Nat.add_mul_div_left _ _ hb, Nat.add_mul_mod_self_left, Nat.div_eq_of_lt hj,
    Nat.mod_eq_of_lt hj, Nat.zero_add]
  exact ⟨rfl, rfl⟩

/-- What the reader finds. -/
theorem Stored.copied (h : Stored mp rd q s) {n : Nat} (hn : n ≤ q.length)
    (hon : rd % mp.bsize + n ≤ mp.bsize) :
    (List.range n).map (fun j => s.bread (rd / mp.bsize) (rd % mp.bsize + j)) = q.take n := by
  rw [← h.ring.take hn (mp.block_end h.rd_lt hon)]
  apply List.map_congr_left
  intro j hj
  rw [List.mem_range] at hj
  obtain ⟨h1, h2⟩ := block_pos mp.blocks.1 (show rd % mp.bsize + j < mp.bsize by omega)
  rw [State.byteAt, h1, h2]

/-- The reader goes on: the block is in its buffer, and if it need not be written any more nothing in
it is still to be read. -/
theorem Stored.read (h : Stored mp rd q s) {n : Nat} {delwri : Bool} (hn : n ≤ q.length)
    (hon : rd % mp.bsize + n ≤ mp.bsize) (hsame : ∀ b, s.cache (rd / mp.bsize) = some b →
      delwri = b.delwri ∨ rd % mp.bsize + n = mp.bsize ∧ q.length - n + mp.bsize ≤ mp.PIPSIZ)
    (ha : s'.addr = s.addr) (hd : s'.disk = s.disk) (hc : s'.cache = change s.cache (rd / mp.bsize)
      (some ⟨s.bread (rd / mp.bsize), delwri⟩)) :
    Stored mp ((rd + n) % mp.PIPSIZ) (q.drop n) s' := by
  have hP : 0 < mp.PIPSIZ := Nat.zero_lt_of_lt h.rd_lt
  have hlive : ∀ pos, Live mp.PIPSIZ ((rd + n) % mp.PIPSIZ) (q.drop n).length pos →
      Live mp.PIPSIZ rd q.length pos := by
    intro pos hp
    rw [List.length_drop] at hp
    exact hp.drop hn
  refine h.keep (h.ring.drop n) (Nat.mod_lt _ hP) ?_ hlive ha (fun pos _ => ?_)
    fun i b hb hdel pos hi hp => ?_
  · rw [List.length_drop]
    have := h.le
    omega
  · rw [State.byteAt, State.byteAt, State.bread, hd, hc]
    by_cases hk : pos / mp.bsize = rd / mp.bsize
    · simp only [hk, change_self]
    · simp only [change_ne hk]
      rfl
  · rw [hc] at hb
    rw [hd]
    by_cases hk : i = rd / mp.bsize
    · simp only [hk, change_self, Option.some.injEq] at hb
      subst hb
      simp only at hdel ⊢
      rw [hk]
      cases hcache : s.cache (rd / mp.bsize) with
      | none => rw [State.bread, hcache]
      | some b =>
        rcases hsame b hcache with hdel' | ⟨hend, hfree⟩
        · have := h.clean _ b hcache (by rw [← hdel', hdel]) pos (by rw [hi, hk]) (hlive pos hp)
          rw [State.bread, hcache]
          exact this
        · -- the whole block has been left behind
          exfalso
          obtain ⟨hb, -⟩ := mp.blocks
          have hblock : rd + n = mp.bsize * (rd / mp.bsize) + mp.bsize := by
            have := Nat.div_add_mod rd mp.bsize
            omega
          have hposk : pos = mp.bsize * (rd / mp.bsize) + pos % mp.bsize := by
            have := Nat.div_add_mod pos mp.bsize
            rw [hi, hk] at this
            omega
          have hmod := Nat.mod_lt pos hb
          obtain ⟨t, ht⟩ : ∃ t, pos = rd + n - t ∧ 0 < t ∧ t ≤ mp.bsize :=
            ⟨rd + n - pos, by omega, by omega, by omega⟩
          rw [List.length_drop, ht.1] at hp
          exact not_live_behind (by omega) ht.2.1 (by omega) (mp.block_end h.rd_lt hon) hp
    · simp only [change_ne hk] at hb
      exact h.clean i b hb hdel pos hi (hlive pos hp)

/-- Where the next byte goes. -/
def wrap (mp : Mount) (rd : Nat) (q : List Nat) : Nat := (rd + q.length) % mp.PIPSIZ

theorem Stored.wrap_lt (h : Stored mp rd q s) : wrap mp rd q < mp.PIPSIZ :=
  Nat.mod_lt _ (Nat.zero_lt_of_lt h.rd_lt)

theorem Stored.ahead (h : Stored mp rd q s) {j n : Nat} (hj : j < n)
    (hn : wrap mp rd q % mp.bsize + n ≤ mp.bsize) :
    (rd + q.length + j) % mp.PIPSIZ = wrap mp rd q + j := by
  have hend := mp.block_end h.wrap_lt hn
  rw [← Nat.mod_add_mod]
  exact Nat.mod_eq_of_lt (by rw [wrap] at hend; rw [wrap] at *; omega)

/- A block that is written from its beginning has nothing that is still to be read. -/
theorem Stored.block_free (h : Stored mp rd q s) (hon : wrap mp rd q % mp.bsize = 0)
    (hfree : q.length + mp.bsize ≤ mp.PIPSIZ) {pos : Nat}
    (hpos : pos / mp.bsize = wrap mp rd q / mp.bsize) : ¬ Live mp.PIPSIZ rd q.length pos := by
  have hmod := Nat.mod_lt pos mp.blocks.1
  have h1 := Nat.div_add_mod pos mp.bsize
  have h2 := Nat.div_add_mod (wrap mp rd q) mp.bsize
  rw [hpos] at h1
  have hp : pos = wrap mp rd q + pos % mp.bsize := by omega
  rw [hp, ← h.ahead hmod (by omega)]
  exact not_live_ahead h.rd_lt (by omega)

/-- The writer puts its bytes in the block, whose other bytes are kept where they are still to be
read. -/
theorem Stored.write (h : Stored mp rd q s) {bs : List Nat} {base : Block} {fsync : Bool}
    (hon : wrap mp rd q % mp.bsize + bs.length ≤ mp.bsize) (hle : q.length + bs.length ≤ mp.PIPSIZ)
    (haddr : s.addr (wrap mp rd q / mp.bsize) = true)
    (hbase : ∀ pos, pos / mp.bsize = wrap mp rd q / mp.bsize → Live mp.PIPSIZ rd q.length pos →
      base (pos % mp.bsize) = s.byteAt mp pos) :
    Stored mp rd (q ++ bs) (s.release (wrap mp rd q / mp.bsize)
      (put (wrap mp rd q % mp.bsize) bs base) fsync) := by
  obtain ⟨hb, -⟩ := mp.blocks
  have hother : ∀ pos, pos / mp.bsize ≠ wrap mp rd q / mp.bsize →
      (s.release (wrap mp rd q / mp.bsize) (put (wrap mp rd q % mp.bsize) bs base) fsync).byteAt mp
        pos = s.byteAt mp pos := by
    intro pos hpos
    rw [State.byteAt, State.byteAt, State.bread, State.bread, State.release]
    cases fsync <;> simp [change_ne hpos]
  have hthis : ∀ pos, pos / mp.bsize = wrap mp rd q / mp.bsize →
      (s.release (wrap mp rd q / mp.bsize) (put (wrap mp rd q % mp.bsize) bs base) fsync).byteAt mp
        pos = put (wrap mp rd q % mp.bsize) bs base (pos % mp.bsize) := by
    intro pos hpos
    rw [State.byteAt, State.bread, State.release, hpos]
    simp only [change_self]
  have hnewpos : ∀ j, j < bs.length → (wrap mp rd q + j) / mp.bsize = wrap mp rd q / mp.bsize ∧
      (wrap mp rd q + j) % mp.bsize = wrap mp rd q % mp.bsize + j := fun j hj =>
    block_pos hb (by omega)
  have hlive : ∀ pos, Live mp.PIPSIZ rd (q ++ bs).length pos → Live mp.PIPSIZ rd q.length pos ∨
      ∃ j, j < bs.length ∧ pos = wrap mp rd q + j := by
    rintro pos ⟨i, hi, rfl⟩
    rw [List.length_append] at hi
    by_cases hq : i < q.length
    · exact .inl ⟨i, hq, rfl⟩
    · refine .inr ⟨i - q.length, by omega, ?_⟩
      rw [← h.ahead (show i - q.length < bs.length by omega) hon]
      congr 1
      omega
  refine ⟨h.ring.append ?_ ?_, h.rd_lt, by rwa [List.length_append], ?_, ?_⟩
  · intro pos hp
    by_cases hk : pos / mp.bsize = wrap mp rd q / mp.bsize
    · have hout : ¬ (wrap mp rd q % mp.bsize ≤ pos % mp.bsize ∧
          pos % mp.bsize < wrap mp rd q % mp.bsize + bs.length) := by
        rintro ⟨h1, h2⟩
        have hp1 := Nat.div_add_mod pos mp.bsize
        have hp2 := Nat.div_add_mod (wrap mp rd q) mp.bsize
        rw [hk] at hp1
        obtain ⟨j, hj, hlt⟩ : ∃ j, pos = wrap mp rd q + j ∧ j < bs.length :=
          ⟨pos - wrap mp rd q, by omega, by omega⟩
        rw [hj, ← h.ahead hlt hon] at hp
        exact not_live_ahead h.rd_lt (by omega) hp
      rw [hthis pos hk, put, if_neg hout]
      exact hbase pos hk hp
    · exact hother pos hk
  · intro j hj
    obtain ⟨h1, h2⟩ := hnewpos j hj
    rw [h.ahead hj hon, hthis _ h1, h2, put, if_pos (by omega), Nat.add_sub_cancel_left]
    simp [hj]
  · intro pos hp
    rcases hlive pos hp with hp | ⟨j, hj, rfl⟩
    · exact h.addr pos hp
    · rw [(hnewpos j hj).1]
      exact haddr
  · intro k b hc hd pos hk hp
    by_cases hkk : k = wrap mp rd q / mp.bsize
    · rw [State.release, hkk] at hc
      simp only [change_self, Option.some.injEq] at hc
      subst hc
      simp only [Bool.not_eq_false'] at hd
      rw [State.release, hkk, hd]
      simp only [if_true, change_self]
    · have hold : Live mp.PIPSIZ rd q.length pos := by
        rcases hlive pos hp with hp | ⟨j, hj, rfl⟩
        · exact hp
        · exact absurd (hk.symm.trans (hnewpos j hj).1) hkk
      have hdisk : (s.release (wrap mp rd q / mp.bsize)
          (put (wrap mp rd q % mp.bsize) bs base) fsync).disk k = s.disk k := by
        rw [State.release]
        cases fsync <;> simp [change_ne hkk]
      rw [State.release] at hc
      simp only [change_ne hkk] at hc
      rw [hdisk]
      exact h.clean k b hc hd pos hk hold

/-- A new block comes in. -/
theorem Stored.alloc (h : Stored mp rd q s) {k : Nat} (hk : s.addr k = false) :
    Stored mp rd q ({ s with addr := change s.addr k true }.release k (fun _ => 0) false) := by
  have hno : ∀ pos, Live mp.PIPSIZ rd q.length pos → pos / mp.bsize ≠ k := by
    intro pos hp hpk
    have := h.addr pos hp
    rw [hpk, hk] at this
    cases this
  refine ⟨h.ring.congr fun pos hp => ?_, h.rd_lt, h.le, fun pos hp => ?_, fun i b hb hd pos hi hp => ?_⟩
  · rw [State.byteAt, State.byteAt, State.bread, State.bread, State.release]
    simp [change_ne (hno pos hp)]
  · rw [State.release]
    simp only [change_ne (hno pos hp)]
    exact h.addr pos hp
  · have hik : i ≠ k := fun hik => hno pos hp (hi.trans hik)
    rw [State.release] at hb ⊢
    simp only [change_ne hik] at hb
    exact h.clean i b hb hd pos hi hp

end Svr32.Fifo
