import Svr32.S5.Alloc
import Svr32.Lib.System
import Mathlib.Data.Set.Card

/-! Runs of s5alloc and s5free: the free list is a stack of blocks. -/
namespace Svr32.S5
open Svr32.Lib
variable {fp : Filsys} {s s' s₀ : Fs} {l l' : List Int} {b m : Int} {n : Nat} {v : Vector Int NICFREE}

theorem toShort_count (h : 0 < m) (h' : m ≤ NICFREE) : toShort m = m := by
  have hle : m ≤ 50 := h'
  rw [toShort, BitVec.toInt_ofInt, Int.bmod_eq_of_le (by omega) (by omega)]

theorem takeFree_some (hv : fp.sFree[n]? = some b) (hb : b ≠ 0) (hok : s5badblock fp b = false) :
    takeFree (n + 1) fp = some (some b, { fp with sNfree := n }) := by
  have hok' : s5badblock { fp with sNfree := n } b = false := hok
  simp [takeFree, hv, hb, hok']

theorem takeFree_zero (hv : fp.sFree[n]? = some 0) :
    takeFree (n + 1) fp = some (none, { fp with sNfree := n }) := by
  simp [takeFree, hv]

/- The super block after a block has been taken. -/
def taken (fp : Filsys) : Filsys :=
  { (if fp.sTfree ≠ 0 then { fp with sTfree := fp.sTfree - 1 } else fp) with sFmod := true }

@[simp] theorem taken_sNfree (fp : Filsys) : (taken fp).sNfree = fp.sNfree := by
  unfold taken
  split <;> rfl

@[simp] theorem taken_sFree (fp : Filsys) : (taken fp).sFree = fp.sFree := by
  unfold taken
  split <;> rfl

@[simp] theorem taken_size (fp : Filsys) :
    (taken fp).sIsize = fp.sIsize ∧ (taken fp).sFsize = fp.sFsize := by
  unfold taken
  split <;> exact ⟨rfl, rfl⟩

theorem taken_sTfree (fp : Filsys) :
    (taken fp).sTfree = if fp.sTfree ≠ 0 then fp.sTfree - 1 else fp.sTfree := by
  unfold taken
  split <;> rfl

theorem s5alloc_some {fp' : Filsys} (ht : takeFree s.fp.sNfree.toNat s.fp = some (some b, fp'))
    (hc : 0 < (refill b fp' s).sNfree ∧ (refill b fp' s).sNfree ≤ NICFREE) :
    s5alloc s = some (some b, { s with
      fp := taken (refill b fp' s), blk := Function.update s.blk b clrbuf }) := by
  have hno : ¬ ((refill b fp' s).sNfree ≤ 0 ∨ NICFREE < (refill b fp' s).sNfree) := by omega
  simp only [s5alloc, ht, Option.bind_eq_bind, Option.bind_some, if_neg hno, Option.pure_def]
  rfl

theorem badblock_congr {fp' : Filsys} (h : fp'.sIsize = fp.sIsize ∧ fp'.sFsize = fp.sFsize) :
    s5badblock fp' b = s5badblock fp b := by
  rw [s5badblock, s5badblock, h.1, h.2]

/-- Taking a block from the list leaves the rest. -/
theorem FreeList.take {fp' : Filsys} (h : FreeList s (b :: l))
    (hc : Chunk s.blk fp'.sNfree fp'.sFree l)
    (hsize : fp'.sIsize = s.fp.sIsize ∧ fp'.sFsize = s.fp.sFsize) :
    FreeList ⟨taken fp', Function.update s.blk b clrbuf⟩ l := by
  have hnd := List.nodup_cons.mp h.nodup
  have hsize' : (taken fp').sIsize = s.fp.sIsize ∧ (taken fp').sFsize = s.fp.sFsize := by
    rw [(taken_size fp').1, (taken_size fp').2]
    exact hsize
  refine ⟨.inr ?_, hnd.2, fun x hx => ?_, hsize'.1 ▸ h.isize⟩
  · rw [taken_sNfree, taken_sFree]
    exact hc.congr fun x hx => Function.update_of_ne (fun he : x = b => hnd.1 (he ▸ hx)) _ _
  · rw [badblock_congr hsize']
    exact h.range x (List.mem_cons_of_mem b hx)

/-- The first block of the list is the last of the array, or its lowest entry, and then the next
part of the list is read. -/
theorem takeFree_head (h : FreeList s (b :: l)) :
    ∃ fp', takeFree s.fp.sNfree.toNat s.fp = some (some b, fp') ∧
      Chunk s.blk (refill b fp' s).sNfree (refill b fp' s).sFree l ∧
      ((refill b fp' s).sIsize = s.fp.sIsize ∧ (refill b fp' s).sFsize = s.fp.sFsize) ∧
      (refill b fp' s).sTfree = s.fp.sTfree := by
  have hb := h.ne_zero b (by simp)
  have hok := h.range b (by simp)
  obtain ⟨n, hn, hm, hrest⟩ := (h.array.resolve_left fun he => by cases he.2).inv
  have hnat : s.fp.sNfree.toNat = n + 1 := by omega
  cases n with
  | zero =>
    obtain ⟨-, hl⟩ | ⟨c, l', h0, -, hc, hl⟩ := hrest
    · cases hl
    · cases hl
      have hcount := hc.count
      have hre : refill b { s.fp with sNfree := (0 : Nat) } s =
          { s.fp with sNfree := (s.blk b).dfNfree, sFree := (s.blk b).dfFree } := by
        simp [refill, toShort_count hcount.1 hcount.2]
      refine ⟨{ s.fp with sNfree := (0 : Nat) }, by rw [hnat, takeFree_some h0 hb hok], ?_⟩
      rw [hre]
      exact ⟨hc, ⟨rfl, rfl⟩, rfl⟩
  | succ k =>
    obtain ⟨x, hx⟩ : ∃ x, s.fp.sFree[k + 1]? = some x := ⟨_, Vector.getElem?_eq_getElem hn⟩
    have hre : refill b { s.fp with sNfree := (k + 1 : Nat) } s =
        { s.fp with sNfree := (k + 1 : Nat) } := by
      have hpos : ¬ ((k + 1 : Nat) : Int) ≤ 0 := by omega
      simp only [refill, if_neg hpos]
    have hk : k < NICFREE := Nat.lt_of_succ_lt hn
    rw [above_succ hx] at hrest
    obtain ⟨h0, hl⟩ | ⟨c, l', h0, hc, hch, hl⟩ := hrest
    · cases hl
      refine ⟨_, by rw [hnat, takeFree_some hx hb hok], ?_⟩
      rw [hre]
      exact ⟨by simpa using Chunk.last hk h0, ⟨rfl, rfl⟩, rfl⟩
    · cases hl
      refine ⟨_, by rw [hnat, takeFree_some hx hb hok], ?_⟩
      rw [hre]
      exact ⟨by simpa using Chunk.more hk h0 hc hch, ⟨rfl, rfl⟩, rfl⟩

/-- s5alloc takes the first block of the list. -/
theorem s5alloc_spec (h : FreeList s (b :: l)) : ∃ s', s5alloc s = some (some b, s') ∧
    FreeList s' l ∧ s'.fp.sTfree = if s.fp.sTfree ≠ 0 then s.fp.sTfree - 1 else s.fp.sTfree := by
  obtain ⟨fp', ht, hchunk, hsize, htf⟩ := takeFree_head h
  refine ⟨_, s5alloc_some ht hchunk.count, h.take hchunk hsize, ?_⟩
  rw [taken_sTfree, htf]

/-- s5alloc fails when the list is empty. -/
theorem s5alloc_empty (h : FreeList s []) :
    ∃ s', s5alloc s = some (none, s') ∧ FreeList s' [] ∧ s'.fp.sTfree = 0 := by
  obtain ⟨fp', ht, hsize⟩ : ∃ fp', takeFree s.fp.sNfree.toNat s.fp = some (none, fp') ∧
      fp'.sIsize = s.fp.sIsize := by
    rcases h.array with ⟨hn, -⟩ | hc
    · exact ⟨s.fp, by rw [hn]; rfl, rfl⟩
    · obtain ⟨n, hn, hm, hrest⟩ := hc.inv
      have hnat : s.fp.sNfree.toNat = n + 1 := by omega
      obtain ⟨h0, hl⟩ | ⟨c, l', -, -, -, hl⟩ := hrest
      · cases n with
        | zero => exact ⟨{ s.fp with sNfree := (0 : Nat) }, by rw [hnat, takeFree_zero h0], rfl⟩
        | succ k =>
          rw [above_succ (Vector.getElem?_eq_getElem hn)] at hl
          cases hl
      · simp at hl
  refine ⟨_, by simp only [s5alloc, ht, Option.bind_eq_bind, Option.bind_some]; rfl,
    ⟨.inl ⟨rfl, rfl⟩, List.nodup_nil, nofun, ?_⟩, rfl⟩
  exact hsize ▸ h.isize

/- The end of s5free. -/
def pushFree (b : Int) (s : Fs) : Fs :=
  { s with fp := { s.fp with
    sFree := s.fp.sFree.setIfInBounds s.fp.sNfree.toNat b
    sNfree := s.fp.sNfree + 1
    sTfree := s.fp.sTfree + 1
    sFmod := true } }

theorem s5free_eq (hok : s5badblock s.fp b = false) :
    s5free b s = pushFree b (spill b { s with fp := startFree s.fp }) := by
  simp only [s5free, hok]
  rfl

theorem getElem?_set (v : Vector Int NICFREE) {n i : Nat} (hn : n < NICFREE) :
    (v.setIfInBounds n b)[i]? = if n = i then some b else v[i]? := by
  rw [Vector.getElem?_setIfInBounds]
  by_cases h : n = i
  · rw [if_pos h, if_pos h, if_pos hn]
  · rw [if_neg h, if_neg h]

/-- A block is put on an array that is not full. -/
theorem Chunk.push {blk : Int → Fblk} (h : Chunk blk (n + 1) v l) (hn : n + 1 < NICFREE) :
    Chunk blk (n + 1 + 1) (v.setIfInBounds (n + 1) b) (b :: l) := by
  have hset : ∀ i, (v.setIfInBounds (n + 1) b)[i]? = if n + 1 = i then some b else v[i]? :=
    fun i => getElem?_set v hn
  have htop : (v.setIfInBounds (n + 1) b)[n + 1]? = some b := by rw [hset, if_pos rfl]
  have habove : above (v.setIfInBounds (n + 1) b) (n + 1) = b :: above v n := by
    rw [above_succ htop]
    exact congrArg (b :: ·) (above_congr fun i hi => by rw [hset, if_neg (by omega)])
  have hbot : (v.setIfInBounds (n + 1) b)[0]? = v[0]? := by rw [hset, if_neg (by omega)]
  obtain ⟨k, hk, hm, hrest⟩ := h.inv
  have hkn : k = n := by omega
  subst hkn
  obtain ⟨h0, rfl⟩ | ⟨c, l', h0, hc, hch, rfl⟩ := hrest
  · have hnew := @Chunk.last blk _ _ hn (hbot.trans h0)
    rw [habove] at hnew
    simpa using hnew
  · have hnew := Chunk.more hn (hbot.trans h0) hc hch
    rw [habove] at hnew
    simpa using hnew

/-- s5free puts a block in front of the list. -/
theorem s5free_array (h : FreeList s l) (hb : b ∉ l) (hz : b ≠ 0) :
    Chunk (pushFree b (spill b { s with fp := startFree s.fp })).blk
      (pushFree b (spill b { s with fp := startFree s.fp })).fp.sNfree
      (pushFree b (spill b { s with fp := startFree s.fp })).fp.sFree (b :: l) := by
  rcases h.array with ⟨hn, rfl⟩ | hc
  · have hstart : startFree s.fp =
        { s.fp with sNfree := 1, sFree := s.fp.sFree.setIfInBounds 0 0 } := by
      simp [startFree, hn]
    have hspill : spill b { s with fp := startFree s.fp } = { s with fp := startFree s.fp } := by
      have hno : ¬ (NICFREE : Int) ≤ (startFree s.fp).sNfree := by
        rw [hstart]
        exact (by decide : ¬ (NICFREE : Int) ≤ 1)
      rw [spill]
      exact if_neg hno
    have h0 : (s.fp.sFree.setIfInBounds 0 0)[0]? = some 0 := getElem?_set _ (by decide)
    have hone := @Chunk.last s.blk _ 0 (by decide) h0
    have hpush := hone.push (b := b) (by decide)
    rw [hspill, hstart]
    exact hpush
  · obtain ⟨n, hn, hm, -⟩ := hc.inv
    have hstart : startFree s.fp = s.fp := by
      rw [startFree, if_neg (by omega)]
    rw [hm] at hc
    by_cases hfull : n + 1 < NICFREE
    · have hspill : spill b { s with fp := startFree s.fp } = s := by
        have hno : ¬ (NICFREE : Int) ≤ s.fp.sNfree := by omega
        rw [spill, hstart]
        exact if_neg hno
      have hnat : s.fp.sNfree.toNat = n + 1 := by omega
      rw [hspill, pushFree, hnat, hm]
      exact hc.push hfull
    · have hspill : spill b { s with fp := startFree s.fp } = { s with
          fp := { s.fp with sNfree := 0 }
          blk := Function.update s.blk b ⟨s.fp.sNfree, s.fp.sFree⟩ } := by
        have hyes : (NICFREE : Int) ≤ s.fp.sNfree := by omega
        rw [spill, hstart]
        exact if_pos hyes
      have h0 : (s.fp.sFree.setIfInBounds 0 b)[0]? = some b := getElem?_set _ (by decide)
      have hold : Chunk (Function.update s.blk b ⟨s.fp.sNfree, s.fp.sFree⟩)
          (Function.update s.blk b ⟨s.fp.sNfree, s.fp.sFree⟩ b).dfNfree
          (Function.update s.blk b ⟨s.fp.sNfree, s.fp.sFree⟩ b).dfFree l := by
        rw [Function.update_self, hm]
        exact hc.congr fun x hx => Function.update_of_ne (fun he : x = b => hb (he ▸ hx)) _ _
      rw [hspill]
      exact Chunk.more (n := 0) (by decide) h0 hz hold

theorem s5free_spec (h : FreeList s l) (hb : b ∉ l) (hok : s5badblock s.fp b = false) :
    FreeList (s5free b s) (b :: l) ∧ (s5free b s).fp.sTfree = s.fp.sTfree + 1 := by
  have hz : b ≠ 0 := by
    have hle := range_pos hok
    have hpos := h.isize
    omega
  have hsize : ((s5free b s).fp.sIsize = s.fp.sIsize ∧ (s5free b s).fp.sFsize = s.fp.sFsize) ∧
      (s5free b s).fp.sTfree = s.fp.sTfree + 1 := by
    rw [s5free_eq hok]
    unfold pushFree spill startFree
    split <;> split <;> exact ⟨⟨rfl, rfl⟩, rfl⟩
  refine ⟨⟨.inr ?_, List.nodup_cons.mpr ⟨hb, h.nodup⟩, fun x hx => ?_, hsize.1.1 ▸ h.isize⟩,
    hsize.2⟩
  · rw [s5free_eq hok]
    exact s5free_array h hb hz
  · rw [badblock_congr hsize.1]
    rcases List.mem_cons.mp hx with rfl | hx
    · exact hok
    · exact h.range x hx

/- The set of free blocks. -/
def Fs.F (s : Fs) : Set Int := {b | s.OnList b}

theorem FreeList.F_eq (h : FreeList s l) : s.F = {b | b ∈ l} := Set.ext fun _ => h.onList

theorem FreeList.ncard (h : FreeList s l) : s.F.ncard = l.length := by
  have hset : s.F = (l.toFinset : Set Int) := by
    rw [h.F_eq]
    ext b
    simp
  rw [hset, Set.ncard_coe_finset, List.toFinset_card_of_nodup h.nodup]

/- s5alloc, s5free of a block that is in range and not free, and writes to blocks in use. -/
inductive FreeStep : Fs → Fs → Prop
  | s5alloc {s s' : Fs} {r : Option Int} : s5alloc s = some (r, s') → FreeStep s s'
  | s5free {s : Fs} {b : Int} : ¬ s.OnList b → s5badblock s.fp b = false → FreeStep s (s5free b s)
  | write {s : Fs} {b : Int} (d : Fblk) : ¬ s.OnList b →
    FreeStep s { s with blk := Function.update s.blk b d }

/-- What a step does to the list, and to s_tfree. -/
theorem free_step (h : FreeList s l) (hst : FreeStep s s') :
    ∃ l', FreeList s' l' ∧ (s.fp.sTfree = l.length → s'.fp.sTfree = l'.length) := by
  cases hst with
  | @s5alloc _ r heq =>
    cases l with
    | nil =>
      obtain ⟨t, ht, hl, htf⟩ := s5alloc_empty h
      cases heq.symm.trans ht
      exact ⟨[], hl, fun _ => htf⟩
    | cons b l =>
      obtain ⟨t, ht, hl, htf⟩ := s5alloc_spec h
      cases heq.symm.trans ht
      refine ⟨l, hl, fun hlen => ?_⟩
      rw [List.length_cons] at hlen
      rw [htf, hlen, if_pos (by omega)]
      omega
  | @s5free b hb hok =>
    obtain ⟨hl, htf⟩ := s5free_spec h (fun hm => hb (h.onList.mpr hm)) hok
    refine ⟨b :: l, hl, fun hlen => ?_⟩
    rw [htf, hlen, List.length_cons]
    omega
  | @write b d hb =>
    have hne : ∀ x ∈ l, x ≠ b := fun x hx he => hb (he ▸ h.onList.mpr hx)
    refine ⟨l, ⟨?_, h.nodup, h.range, h.isize⟩, id⟩
    rcases h.array with he | hc
    · exact .inl he
    · exact .inr (hc.congr fun x hx => Function.update_of_ne (hne x hx) _ _)

/- s5alloc takes one block of the free list, or there is none; s5free adds one. -/
structure FreeSet (s : Fs) : Prop where
  list : ∃ l, FreeList s l
  count : 0 ≤ s.fp.sNfree ∧ s.fp.sNfree ≤ NICFREE
  alloc : ∃ r s', s5alloc s = some (r, s') ∧
    ((∃ b ∈ s.F, r = some b ∧ s'.F = s.F \ {b}) ∨ (r = none ∧ s.F = ∅ ∧ s'.F = ∅))
  free : ∀ b, b ∉ s.F → s5badblock s.fp b = false → (s5free b s).F = s.F ∪ {b}

theorem FreeList.freeSet (h : FreeList s l) : FreeSet s := by
  refine ⟨⟨l, h⟩, h.count, ?_, fun b hb hok => ?_⟩
  · cases l with
    | nil =>
      obtain ⟨s', heq, hl, -⟩ := s5alloc_empty h
      refine ⟨none, s', heq, .inr ⟨rfl, ?_, ?_⟩⟩
      · rw [h.F_eq]
        simp
      · rw [hl.F_eq]
        simp
    | cons b l =>
      obtain ⟨s', heq, hl, -⟩ := s5alloc_spec h
      refine ⟨some b, s', heq, .inl ⟨b, h.onList.mpr (by simp), rfl, ?_⟩⟩
      have hnd := (List.nodup_cons.mp h.nodup).1
      rw [h.F_eq, hl.F_eq]
      ext x
      simp only [Set.mem_ofPred_eq, Set.mem_sdiff, List.mem_cons, Set.mem_singleton_iff]
      constructor
      · exact fun hx => ⟨.inr hx, fun he => hnd (he ▸ hx)⟩
      · exact fun hx => hx.1.resolve_left hx.2
  · obtain ⟨hl, -⟩ := s5free_spec h (fun hm => hb (h.onList.mpr hm)) hok
    rw [h.F_eq, hl.F_eq]
    ext x
    simp

/-- In every run the free list is a list of different blocks, and s_tfree is their number. -/
theorem freelist_run (h₀ : ∃ l, FreeList s₀ l) (hr : Relation.ReflTransGen FreeStep s₀ s) :
    FreeSet s ∧ (s₀.fp.sTfree = s₀.F.ncard → s.fp.sTfree = s.F.ncard) := by
  obtain ⟨l₀, h₀⟩ := h₀
  have hrun : ∃ l, FreeList s l ∧ (s₀.fp.sTfree = l₀.length → s.fp.sTfree = l.length) := by
    induction hr with
    | refl => exact ⟨l₀, h₀, id⟩
    | tail _ hst ih =>
      obtain ⟨l, hl, htf⟩ := ih
      obtain ⟨l', hl', htf'⟩ := free_step hl hst
      exact ⟨l', hl', fun h => htf' (htf h)⟩
  obtain ⟨l, hl, htf⟩ := hrun
  rw [h₀.ncard, hl.ncard]
  exact ⟨hl.freeSet, htf⟩

/- A file system without free blocks. -/
def fullFs : Fs where
  fp := { sIsize := 10, sFsize := 100, sNfree := 0, sFree := Vector.replicate NICFREE 0
          sNinode := 0, sInode := Vector.replicate NICINOD 0, sFmod := false, sTfree := 0
          sTinode := 0 }
  blk := fun _ => clrbuf

theorem fullFs_list : FreeList fullFs [] := ⟨.inl ⟨rfl, rfl⟩, List.nodup_nil, nofun, by decide⟩

theorem freelist_run_free : FreeSet (s5free 20 fullFs) ∧
    (fullFs.fp.sTfree = fullFs.F.ncard → (s5free 20 fullFs).fp.sTfree = (s5free 20 fullFs).F.ncard) :=
  freelist_run ⟨[], fullFs_list⟩
    (.single (.s5free (fun hb => by simpa using fullFs_list.onList.mp hb) (by decide)))

end Svr32.S5
