import Svr32.S5.Alloc
import Mathlib.Data.List.Perm.Basic
import Mathlib.Data.List.Flatten
import Mathlib.Data.List.Nodup

/-! s5itrunc of fs/s5/s5iget.c: the inode is written with no blocks, then its blocks are freed. A
volume keeps what was written and freed in the order of time. The inode list is apart from the
blocks of the files. -/
namespace Svr32.S5.Itrunc

def NADDR : Nat := 13
def IFMT : Nat := 0xf000
def IFDIR : Nat := 0x4000
def IFREG : Nat := 0x8000

/- The disk copy of an inode. -/
structure Dinode where
  diMode : Nat
  diNlink : Int
  diUid : Nat
  diGid : Nat
  diSize : Int
  diGen : Nat
  diAddr : Nat → Int
  diAtime : Int
  diMtime : Int
  diCtime : Int

structure Inode where
  iNumber : Nat
  iNlink : Int
  iUid : Nat
  iGid : Nat
  iSize : Int
  s5iMode : Nat
  s5iGen : Nat
  s5iAddr : Nat → Int
  /- The block number list of a text file. -/
  s5iMap : Bool
  iacc : Bool
  iupd : Bool
  ichg : Bool
  isyn : Bool

/- The flags of the mount, and whether the caller is a server of a read only resource. -/
structure Mount where
  mBsize : Nat
  mRdonly : Bool
  server : Bool
  srRdonly : Bool

def rdonlyfs (mp : Mount) : Bool := mp.mRdonly || (mp.server && mp.srRdonly)

inductive Ev
  | bwrite (d : Dinode)
  | bdwrite (d : Dinode)
  | free (bno : Int)

structure Vol where
  fp : Filsys
  /- The blocks, as arrays of block numbers. -/
  words : Int → Nat → Int
  dinode : Dinode
  log : List Ev

/- A block as a part of the free list. -/
def asFblk (w : Nat → Int) : Fblk := ⟨w 0, Vector.ofFn fun i : Fin NICFREE => w (i + 1)⟩

def withFblk (b : Fblk) (w : Nat → Int) : Nat → Int := fun i =>
  if i = 0 then b.dfNfree else if h : i - 1 < NICFREE then b.dfFree.get ⟨i - 1, h⟩ else w i

/- s5free(mp, bno) -/
def sfree (bno : Int) (s : Vol) : Vol :=
  let t := s5free bno ⟨s.fp, fun b => asFblk (s.words b)⟩
  { s with
    fp := t.fp
    words := Function.update s.words bno (withFblk (t.blk bno) (s.words bno))
    log := s.log ++ [.free bno] }

/- for (i = FsNINDIR(mp->m_bsize) - 1; i >= 0; i--), `i` entries to go; bp is the buffer when
it is held, and `child` what is done to an entry. -/
def sweep (bad : Int → Bool) (child : Int → Vol → Vol) (bn : Int) :
    Nat → Option (Nat → Int) → Vol → Vol
  | 0, _, s => sfree bn s
  | i + 1, bp, s =>
    match bp.or (if bad bn then none else some (s.words bn)) with
    | none => s
    | some bap =>
      if bap i = 0 then sweep bad child bn i (some bap) s
      else sweep bad child bn i none (child (bap i) s)

/-- s5tloop; `bad` are the blocks whose reads fail. -/
def s5tloop (bad : Int → Bool) (mp : Mount) (f1 f2 : Bool) (bn : Int) (s : Vol) : Vol :=
  if f1 then sweep bad (s5tloop bad mp f2 false) bn (FsNINDIR mp.mBsize) none s
  else sweep bad sfree bn (FsNINDIR mp.mBsize) none s
termination_by f1.toNat + f2.toNat
decreasing_by
  rename_i h
  simp [h]

/- The disk copy that s5iupdat makes. -/
def toDinode (ip : Inode) (time : Int) (d : Dinode) : Dinode where
  diMode := ip.s5iMode
  diNlink := ip.iNlink
  diUid := ip.iUid
  diGid := ip.iGid
  diSize := ip.iSize
  diGen := ip.s5iGen
  diAddr := ip.s5iAddr
  diAtime := if ip.iacc then time else d.diAtime
  diMtime := if ip.iupd then time else d.diMtime
  diCtime := if ip.ichg then time else d.diCtime

/-- s5iupdat(ip, &time, &time) of a regular file or a directory whose addresses have 24 bits. -/
def s5iupdat (bad : Int → Bool) (mp : Mount) (time : Int) (ip : Inode) (s : Vol) : Inode × Vol :=
  if rdonlyfs mp then (ip, s)
  else if bad (FsITOD mp.mBsize ip.iNumber) then (ip, s)
  else
    let d := toDinode ip time s.dinode
    ({ ip with iacc := false, iupd := false, ichg := false, isyn := false },
      { s with dinode := d, log := s.log ++ [if ip.isyn then .bwrite d else .bdwrite d] })

/- What the last loop does with one of the saved addresses. -/
def truncAddr (bad : Int → Bool) (mp : Mount) (save : Nat → Int) (i : Nat) (s : Vol) : Vol :=
  if save i = 0 then s
  else if i = NADDR - 3 then s5tloop bad mp false false (save i) s
  else if i = NADDR - 2 then s5tloop bad mp true false (save i) s
  else if i = NADDR - 1 then s5tloop bad mp true true (save i) s
  else sfree (save i) s

/- for (i = NADDR - 1; i >= 0; i--), `i` addresses to go. -/
def truncLoop (bad : Int → Bool) (mp : Mount) (save : Nat → Int) : Nat → Vol → Vol
  | 0, s => s
  | i + 1, s => truncLoop bad mp save i (truncAddr bad mp save i s)

/- The inode before it is written. -/
def cleared (ip : Inode) : Inode :=
  { ip with
    s5iMap := ip.s5iMap && !(ip.s5iMode &&& IFMT = IFREG)
    iSize := 0
    s5iAddr := fun _ => 0
    iupd := true
    ichg := true
    isyn := true }

/-- s5itrunc -/
def s5itrunc (bad : Int → Bool) (mp : Mount) (time : Int) (ip : Inode) (s : Vol) : Inode × Vol :=
  if ip.s5iMode &&& IFMT ≠ IFREG ∧ ip.s5iMode &&& IFMT ≠ IFDIR then (ip, s)
  else
    let (ip', s) := s5iupdat bad mp time (cleared ip) s
    (ip', truncLoop bad mp ip.s5iAddr NADDR s)

end Svr32.S5.Itrunc

/-! The blocks of a file as a tree, and what s5itrunc frees of it. A block is read again after each
child that is freed; the children have other blocks, so its words are the same. -/
namespace Svr32.S5.Itrunc
variable {bad : Int → Bool} {mp : Mount} {s t u : Vol} {F G : List Int} {w w' : Int → Nat → Int}
  {n d : Nat} {bn : Int}

/- The entries of a block that are in use. -/
def kids (w : Nat → Int) (n : Nat) : List Int := ((List.range n).map w).filter (· ≠ 0)

/- The blocks below `bn`, `d` levels deep, and `bn`. -/
def blocks (w : Int → Nat → Int) (n : Nat) : Nat → Int → List Int
  | 0, bn => [bn]
  | d + 1, bn => (kids (w bn) n).flatMap (blocks w n d) ++ [bn]

/- Those of them that are read. -/
def indirects (w : Int → Nat → Int) (n : Nat) : Nat → Int → List Int
  | 0, _ => []
  | d + 1, bn => (kids (w bn) n).flatMap (indirects w n d) ++ [bn]

/- The levels of indirect blocks under an address. -/
def levels (i : Nat) : Nat := i + 4 - NADDR

/- The blocks under the first `i` addresses of a file. -/
def fileBlocks (w : Int → Nat → Int) (n : Nat) (addr : Nat → Int) (i : Nat) : List Int :=
  (List.range i).flatMap fun j => if addr j = 0 then [] else blocks w n (levels j) (addr j)

def fileIndirects (w : Int → Nat → Int) (n : Nat) (addr : Nat → Int) (i : Nat) : List Int :=
  (List.range i).flatMap fun j => if addr j = 0 then [] else indirects w n (levels j) (addr j)

/- The blocks `F` have been freed, and no other block has been written. -/
structure Freed (s t : Vol) (F : List Int) : Prop where
  log : t.log = s.log ++ F.map .free
  dinode : t.dinode = s.dinode
  words : ∀ b ∉ F, t.words b = s.words b

theorem Freed.refl (s : Vol) : Freed s s [] := ⟨(List.append_nil _).symm, rfl, fun _ _ => rfl⟩

theorem Freed.trans (h : Freed s t F) (h' : Freed t u G) : Freed s u (F ++ G) := by
  refine ⟨?_, h'.dinode.trans h.dinode, fun b hb => ?_⟩
  · rw [h'.log, h.log, List.map_append, List.append_assoc]
  · rw [List.mem_append, not_or] at hb
    rw [h'.words b hb.2, h.words b hb.1]

theorem sfree_freed (bn : Int) (s : Vol) : Freed s (sfree bn s) [bn] :=
  ⟨rfl, rfl, fun _ hb => Function.update_of_ne (fun he => hb (List.mem_singleton.mpr he)) _ _⟩

theorem mem_blocks (w : Int → Nat → Int) (n d : Nat) (bn : Int) : bn ∈ blocks w n d bn := by
  cases d with
  | zero => exact List.mem_singleton.mpr rfl
  | succ d => exact List.mem_append_right _ (List.mem_singleton.mpr rfl)

/-- The tree depends on its own blocks only. -/
theorem blocks_congr (h : ∀ b ∈ blocks w n d bn, w' b = w b) :
    blocks w' n d bn = blocks w n d bn := by
  induction d generalizing bn with
  | zero => rfl
  | succ d ih =>
    have hbn : w' bn = w bn := h bn (mem_blocks w n (d + 1) bn)
    rw [blocks, blocks, hbn]
    congr 1
    refine List.flatMap_congr fun k hk => ih fun b hb => h b ?_
    exact List.mem_append_left _ (List.mem_flatMap.mpr ⟨k, hk, hb⟩)

theorem indirects_congr (h : ∀ b ∈ blocks w n d bn, w' b = w b) :
    indirects w' n d bn = indirects w n d bn := by
  induction d generalizing bn with
  | zero => rfl
  | succ d ih =>
    have hbn : w' bn = w bn := h bn (mem_blocks w n (d + 1) bn)
    rw [indirects, indirects, hbn]
    congr 1
    refine List.flatMap_congr fun k hk => ih fun b hb => h b ?_
    exact List.mem_append_left _ (List.mem_flatMap.mpr ⟨k, hk, hb⟩)

/- A step that frees the tree under a block, `d` levels deep. -/
def Frees (bad : Int → Bool) (n d : Nat) (child : Int → Vol → Vol) : Prop :=
  ∀ s bn, (blocks s.words n d bn).Nodup → (∀ b ∈ indirects s.words n d bn, bad b = false) →
    ∃ F, Freed s (child bn s) F ∧ F.Perm (blocks s.words n d bn)

theorem sfree_frees : Frees bad n 0 sfree := fun s bn _ _ =>
  ⟨[bn], sfree_freed bn s, List.Perm.refl _⟩

theorem kids_succ (w : Nat → Int) (i : Nat) :
    kids w (i + 1) = kids w i ++ if w i = 0 then [] else [w i] := by
  rw [kids, List.range_succ, List.map_append, List.filter_append]
  by_cases h : w i = 0 <;> simp [kids, h]

/-- The loop over the entries of a block frees the trees under them, and then the block. -/
theorem sweep_frees {child : Int → Vol → Vol} (hc : Frees bad n d child) (i : Nat)
    (bp : Option (Nat → Int)) (s : Vol) (hbp : bp = none ∨ bp = some (s.words bn))
    (hnd : ((kids (s.words bn) i).flatMap (blocks s.words n d) ++ [bn]).Nodup)
    (hgood : ∀ b ∈ (kids (s.words bn) i).flatMap (indirects s.words n d) ++ [bn], bad b = false) :
    ∃ F, Freed s (sweep bad child bn i bp s) F ∧
      F.Perm ((kids (s.words bn) i).flatMap (blocks s.words n d) ++ [bn]) := by
  induction i generalizing bp s with
  | zero => exact ⟨[bn], sfree_freed bn s, List.Perm.refl _⟩
  | succ i ih =>
    have hread : bp.or (if bad bn then none else some (s.words bn)) = some (s.words bn) := by
      have hbn : bad bn = false := hgood bn (by simp)
      rcases hbp with hbp | hbp <;> simp [hbp, hbn]
    rw [sweep, hread]
    simp only
    have hk := kids_succ (s.words bn) i
    by_cases hz : s.words bn i = 0
    · rw [if_pos hz, List.append_nil] at hk
      rw [hk] at hnd hgood ⊢
      rw [if_pos hz]
      exact ih (some (s.words bn)) s (.inr rfl) hnd hgood
    · rw [if_neg hz] at hk
      rw [hk, List.flatMap_append, List.flatMap_singleton] at hnd hgood ⊢
      rw [if_neg hz]
      have hsame : ∀ {F : List Int} {t : Vol}, Freed s t F →
          F.Perm (blocks s.words n d (s.words bn i)) → ∀ k ∈ kids (s.words bn) i,
          ∀ b ∈ blocks s.words n d k, t.words b = s.words b := fun hF hperm k hk b hb => by
        have hdisjc := (List.nodup_append'.mp (List.nodup_append'.mp hnd).1).2.2
        exact hF.words b fun hm =>
          hdisjc (List.mem_flatMap.mpr ⟨k, hk, hb⟩) (hperm.mem_iff.mp hm)
      obtain ⟨hndk, -, hdisj⟩ := List.nodup_append'.mp hnd
      have hndc := (List.nodup_append'.mp hndk).2.1
      obtain ⟨F, hF, hperm⟩ := hc s (s.words bn i) hndc fun b hb => hgood b (by simp [hb])
      have hbn : bn ∉ F := fun hm => hdisj (List.mem_append_right _ (hperm.mem_iff.mp hm)) (by simp)
      have hwbn := hF.words bn hbn
      have hkids := hsame hF hperm
      have htrees : (kids ((child (s.words bn i) s).words bn) i).flatMap
          (blocks (child (s.words bn i) s).words n d) =
          (kids (s.words bn) i).flatMap (blocks s.words n d) := by
        rw [hwbn]
        exact List.flatMap_congr fun k hk => blocks_congr (hkids k hk)
      have hreads : (kids ((child (s.words bn i) s).words bn) i).flatMap
          (indirects (child (s.words bn i) s).words n d) =
          (kids (s.words bn) i).flatMap (indirects s.words n d) := by
        rw [hwbn]
        exact List.flatMap_congr fun k hk => indirects_congr (hkids k hk)
      obtain ⟨G, hG, hperm'⟩ := ih none (child (s.words bn i) s) (.inl rfl)
        (by
          rw [htrees]
          exact hnd.sublist (List.Sublist.append_right (List.sublist_append_left _ _) _))
        (by
          rw [hreads]
          intro b hb
          refine hgood b ?_
          simp only [List.mem_append] at hb ⊢
          exact hb.elim (fun h => .inl (.inl h)) .inr)
      rw [htrees] at hperm'
      refine ⟨F ++ G, hF.trans hG, ?_⟩
      have hswap : (F ++ G).Perm (blocks s.words n d (s.words bn i) ++
          ((kids (s.words bn) i).flatMap (blocks s.words n d) ++ [bn])) := hperm.append hperm'
      refine hswap.trans ?_
      rw [← List.append_assoc]
      exact List.Perm.append_right _ List.perm_append_comm

/-- s5tloop, for each of the pairs of flags it is called with. -/
theorem s5tloop_frees (bad : Int → Bool) (mp : Mount) :
    Frees bad (FsNINDIR mp.mBsize) 1 (s5tloop bad mp false false) ∧
      Frees bad (FsNINDIR mp.mBsize) 2 (s5tloop bad mp true false) ∧
      Frees bad (FsNINDIR mp.mBsize) 3 (s5tloop bad mp true true) := by
  have hsweep : ∀ {d child}, Frees bad (FsNINDIR mp.mBsize) d child →
      Frees bad (FsNINDIR mp.mBsize) (d + 1)
        (fun bn s => sweep bad child bn (FsNINDIR mp.mBsize) none s) :=
    fun hc s bn hnd hgood => sweep_frees hc _ none s (.inl rfl) hnd hgood
  have h1 : Frees bad (FsNINDIR mp.mBsize) 1 (s5tloop bad mp false false) := by
    have he : s5tloop bad mp false false =
        fun bn s => sweep bad sfree bn (FsNINDIR mp.mBsize) none s := by
      funext bn s
      rw [s5tloop, if_neg nofun]
    rw [he]
    exact hsweep sfree_frees
  have h2 : Frees bad (FsNINDIR mp.mBsize) 2 (s5tloop bad mp true false) := by
    have he : s5tloop bad mp true false = fun bn s =>
        sweep bad (s5tloop bad mp false false) bn (FsNINDIR mp.mBsize) none s := by
      funext bn s
      rw [s5tloop, if_pos rfl]
    rw [he]
    exact hsweep h1
  refine ⟨h1, h2, ?_⟩
  have he : s5tloop bad mp true true = fun bn s =>
      sweep bad (s5tloop bad mp true false) bn (FsNINDIR mp.mBsize) none s := by
    funext bn s
    rw [s5tloop, if_pos rfl]
  rw [he]
  exact hsweep h2

/-- An address of the inode, with as many levels as its place has. -/
theorem truncAddr_frees {save : Nat → Int} {i : Nat} (hi : i < NADDR) (hz : save i ≠ 0)
    (hnd : (blocks s.words (FsNINDIR mp.mBsize) (levels i) (save i)).Nodup)
    (hgood : ∀ b ∈ indirects s.words (FsNINDIR mp.mBsize) (levels i) (save i), bad b = false) :
    ∃ F, Freed s (truncAddr bad mp save i s) F ∧
      F.Perm (blocks s.words (FsNINDIR mp.mBsize) (levels i) (save i)) := by
  obtain ⟨h1, h2, h3⟩ := s5tloop_frees bad mp
  have hN : NADDR = 13 := rfl
  rw [truncAddr, if_neg hz]
  by_cases h10 : i = NADDR - 3
  · rw [if_pos h10]
    rw [h10] at hnd hgood ⊢
    exact h1 s _ hnd hgood
  · by_cases h11 : i = NADDR - 2
    · rw [if_neg h10, if_pos h11]
      rw [h11] at hnd hgood ⊢
      exact h2 s _ hnd hgood
    · by_cases h12 : i = NADDR - 1
      · rw [if_neg h10, if_neg h11, if_pos h12]
        rw [h12] at hnd hgood ⊢
        exact h3 s _ hnd hgood
      · have hl : levels i = 0 := by
          rw [levels]
          omega
        rw [if_neg h10, if_neg h11, if_neg h12]
        rw [hl] at hnd hgood ⊢
        exact (sfree_frees : Frees bad (FsNINDIR mp.mBsize) 0 sfree) s _ hnd hgood

theorem fileIndirects_succ (w : Int → Nat → Int) (n : Nat) (addr : Nat → Int) (i : Nat) :
    fileIndirects w n addr (i + 1) = fileIndirects w n addr i ++
      if addr i = 0 then [] else indirects w n (levels i) (addr i) := by
  rw [fileIndirects, List.range_succ, List.flatMap_append, List.flatMap_singleton]
  rfl

theorem fileBlocks_succ (w : Int → Nat → Int) (n : Nat) (addr : Nat → Int) (i : Nat) :
    fileBlocks w n addr (i + 1) = fileBlocks w n addr i ++
      if addr i = 0 then [] else blocks w n (levels i) (addr i) := by
  rw [fileBlocks, List.range_succ, List.flatMap_append, List.flatMap_singleton]
  rfl

/-- The last loop frees the trees under all addresses. -/
theorem truncLoop_frees {save : Nat → Int} {i : Nat} (hi : i ≤ NADDR)
    (hnd : (fileBlocks s.words (FsNINDIR mp.mBsize) save i).Nodup)
    (hgood : ∀ b ∈ fileIndirects s.words (FsNINDIR mp.mBsize) save i, bad b = false) :
    ∃ F, Freed s (truncLoop bad mp save i s) F ∧
      F.Perm (fileBlocks s.words (FsNINDIR mp.mBsize) save i) := by
  induction i generalizing s with
  | zero => exact ⟨[], Freed.refl s, List.Perm.nil⟩
  | succ i ih =>
    rw [truncLoop]
    have hk := fileBlocks_succ s.words (FsNINDIR mp.mBsize) save i
    have hr := fileIndirects_succ s.words (FsNINDIR mp.mBsize) save i
    by_cases hz : save i = 0
    · rw [if_pos hz, List.append_nil] at hk hr
      rw [hk] at hnd ⊢
      rw [hr] at hgood
      rw [truncAddr, if_pos hz]
      exact ih (Nat.le_of_succ_le hi) hnd hgood
    · rw [if_neg hz] at hk hr
      rw [hk] at hnd ⊢
      rw [hr] at hgood
      obtain ⟨hndl, hndc, hdisj⟩ := List.nodup_append'.mp hnd
      obtain ⟨F, hF, hperm⟩ := truncAddr_frees hi hz hndc
        fun b hb => hgood b (List.mem_append_right _ hb)
      have hsame : ∀ j < i, save j ≠ 0 →
          ∀ b ∈ blocks s.words (FsNINDIR mp.mBsize) (levels j) (save j),
          (truncAddr bad mp save i s).words b = s.words b := fun j hj hzj b hb =>
        hF.words b fun hm => by
          refine hdisj (List.mem_flatMap.mpr ⟨j, List.mem_range.mpr hj, ?_⟩) (hperm.mem_iff.mp hm)
          rw [if_neg hzj]
          exact hb
      have htrees : fileBlocks (truncAddr bad mp save i s).words (FsNINDIR mp.mBsize) save i =
          fileBlocks s.words (FsNINDIR mp.mBsize) save i := by
        refine List.flatMap_congr fun j hj => ?_
        by_cases hzj : save j = 0
        · rw [if_pos hzj, if_pos hzj]
        · rw [if_neg hzj, if_neg hzj]
          exact blocks_congr (hsame j (List.mem_range.mp hj) hzj)
      have hreads : fileIndirects (truncAddr bad mp save i s).words (FsNINDIR mp.mBsize) save i =
          fileIndirects s.words (FsNINDIR mp.mBsize) save i := by
        refine List.flatMap_congr fun j hj => ?_
        by_cases hzj : save j = 0
        · rw [if_pos hzj, if_pos hzj]
        · rw [if_neg hzj, if_neg hzj]
          exact indirects_congr (hsame j (List.mem_range.mp hj) hzj)
      obtain ⟨G, hG, hperm'⟩ := @ih (truncAddr bad mp save i s) (Nat.le_of_succ_le hi)
        (htrees ▸ hndl) (fun b hb => hgood b (List.mem_append_left _ (hreads ▸ hb)))
      rw [htrees] at hperm'
      exact ⟨F ++ G, hF.trans hG, (hperm.append hperm').trans List.perm_append_comm⟩

/- s5itrunc does what it should: the disk copy without size and addresses is written, and then
each block of the file is freed, once, and no other. -/
def Truncates (bad : Int → Bool) (mp : Mount) (time : Int) (ip : Inode) (s : Vol) : Prop :=
  let r := s5itrunc bad mp time ip s
  (r.1.iSize = 0 ∧ ∀ i < NADDR, r.1.s5iAddr i = 0) ∧
    ∃ (d : Dinode) (F : List Int), r.2.log = s.log ++ .bwrite d :: F.map .free ∧ r.2.dinode = d ∧
      d.diSize = 0 ∧ (∀ i < NADDR, d.diAddr i = 0) ∧
      F.Perm (fileBlocks s.words (FsNINDIR mp.mBsize) ip.s5iAddr NADDR)

variable {time : Int} {ip : Inode}

/- The blocks of a file whose reads do not fail, with the inode's own block. -/
structure Reads (bad : Int → Bool) (mp : Mount) (ip : Inode) (s : Vol) : Prop where
  inode : bad (FsITOD mp.mBsize ip.iNumber) = false
  indirect : ∀ b ∈ fileIndirects s.words (FsNINDIR mp.mBsize) ip.s5iAddr NADDR, bad b = false

theorem itrunc_eq (h : ip.s5iMode &&& IFMT = IFREG ∨ ip.s5iMode &&& IFMT = IFDIR) :
    s5itrunc bad mp time ip s = ((s5iupdat bad mp time (cleared ip) s).1,
      truncLoop bad mp ip.s5iAddr NADDR (s5iupdat bad mp time (cleared ip) s).2) := by
  rw [s5itrunc, if_neg fun hno => h.elim hno.1 hno.2]

/-- Where nothing may be written, the blocks are freed and the disk copy keeps them. -/
theorem itrunc_rdonly (h : ip.s5iMode &&& IFMT = IFREG ∨ ip.s5iMode &&& IFMT = IFDIR)
    (hnd : (fileBlocks s.words (FsNINDIR mp.mBsize) ip.s5iAddr NADDR).Nodup)
    (hgood : Reads bad mp ip s) (hro : rdonlyfs mp = true) : ¬ Truncates bad mp time ip s := by
  have hupdat : s5iupdat bad mp time (cleared ip) s = (cleared ip, s) := if_pos hro
  obtain ⟨F, hF, -⟩ := truncLoop_frees (Nat.le_refl NADDR) hnd hgood.indirect
  rintro ⟨-, d, G, hlog, -⟩
  rw [itrunc_eq h, hupdat] at hlog
  simp only at hlog
  rw [hF.log, List.append_cancel_left_eq] at hlog
  cases F with
  | nil => cases hlog
  | cons b F => cases (List.cons.inj hlog).1

/-- s5itrunc writes the inode and frees the blocks, on a file system that may be written. -/
theorem itrunc_iff (h : ip.s5iMode &&& IFMT = IFREG ∨ ip.s5iMode &&& IFMT = IFDIR)
    (hnd : (fileBlocks s.words (FsNINDIR mp.mBsize) ip.s5iAddr NADDR).Nodup)
    (hgood : Reads bad mp ip s) : Truncates bad mp time ip s ↔ rdonlyfs mp = false := by
  constructor
  · intro ht
    cases hro : rdonlyfs mp with
    | false => rfl
    | true => exact absurd ht (itrunc_rdonly h hnd hgood hro)
  · intro hro
    have hd : s5iupdat bad mp time (cleared ip) s =
        ({ cleared ip with iacc := false, iupd := false, ichg := false, isyn := false },
          { s with
            dinode := toDinode (cleared ip) time s.dinode
            log := s.log ++ [.bwrite (toDinode (cleared ip) time s.dinode)] }) := by
      have hbad : bad (FsITOD mp.mBsize (cleared ip).iNumber) = false := hgood.inode
      simp only [s5iupdat, hro, hbad]
      rfl
    obtain ⟨F, hF, hperm⟩ := @truncLoop_frees bad mp { s with
      dinode := toDinode (cleared ip) time s.dinode
      log := s.log ++ [.bwrite (toDinode (cleared ip) time s.dinode)] } ip.s5iAddr NADDR
      (Nat.le_refl NADDR) hnd hgood.indirect
    rw [Truncates, itrunc_eq h, hd]
    refine ⟨⟨rfl, fun _ _ => rfl⟩, toDinode (cleared ip) time s.dinode, F, ?_, ?_, rfl,
      fun _ _ => rfl, hperm⟩
    · rw [hF.log, List.append_assoc]
      rfl
    · exact hF.dinode

/- A regular file of two blocks, the second below an indirect block. -/
def twoFile : Inode where
  iNumber := 2
  iNlink := 1
  iUid := 0
  iGid := 0
  iSize := 5200
  s5iMode := IFREG
  s5iGen := 0
  s5iAddr i := if i = 0 then 100 else if i = 10 then 101 else 0
  s5iMap := false
  iacc := false
  iupd := false
  ichg := false
  isyn := false

def twoVol : Vol where
  fp := ⟨10, 1000, 0, Vector.replicate NICFREE 0, 0, Vector.replicate NICINOD 0, false, 0, 0⟩
  words b i := if b = 101 ∧ i = 0 then 102 else 0
  dinode := toDinode twoFile 0 ⟨0, 0, 0, 0, 0, 0, fun _ => 0, 0, 0, 0⟩
  log := []

/- A server, whose resource is read only. -/
def roMount : Mount := ⟨512, false, true, true⟩

theorem twoFile_blocks :
    fileBlocks twoVol.words (FsNINDIR 512) twoFile.s5iAddr NADDR = [100, 102, 101] := by
  decide +kernel

theorem twoFile_nodup {mp : Mount} (h : mp.mBsize = 512) :
    (fileBlocks twoVol.words (FsNINDIR mp.mBsize) twoFile.s5iAddr NADDR).Nodup := by
  rw [h, twoFile_blocks]
  decide

theorem twoFile_reads (mp : Mount) : Reads (fun _ => false) mp twoFile twoVol :=
  ⟨rfl, fun _ _ => rfl⟩

theorem itrunc_iff_two : Truncates (fun _ => false) ⟨512, false, false, false⟩ 0 twoFile twoVol ↔
    rdonlyfs ⟨512, false, false, false⟩ = false :=
  itrunc_iff (.inl rfl) (twoFile_nodup rfl) (twoFile_reads _)

/-- The last close of a removed file by a server with a read only resource. -/
theorem itrunc_unwritten : ¬ ∀ bad mp time ip s,
    (ip.s5iMode &&& IFMT = IFREG ∨ ip.s5iMode &&& IFMT = IFDIR) →
    (fileBlocks s.words (FsNINDIR mp.mBsize) ip.s5iAddr NADDR).Nodup → Reads bad mp ip s →
    Truncates bad mp time ip s := by
  intro h
  have hnd := @twoFile_nodup roMount rfl
  have hreads := twoFile_reads roMount
  have ht := h (fun _ => false) roMount 0 twoFile twoVol (.inl rfl) hnd hreads
  have hno := @itrunc_rdonly (fun _ => false) roMount twoVol 0 twoFile (.inl rfl) hnd hreads rfl
  exact hno ht

end Svr32.S5.Itrunc
