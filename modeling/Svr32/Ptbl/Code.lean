import Mathlib.Data.Finset.Basic
import Mathlib.Order.Interval.Finset.Nat
import Mathlib.Data.Finset.Card
import Svr32.Lib.Count
import Mathlib.Algebra.BigOperators.Group.Finset.Basic
import Mathlib.Data.Finset.Dedup
import Mathlib.Tactic.Ring

/-! ptalloc and uptfree of os/grow.c. A page table is known by its number: NPTPP tables make a page,
and the address of a table is its number times the size of a table. -/
namespace Svr32.Ptbl

def NPTPP : Nat := 8

def pttopgs (n : Nat) : Nat := (n + NPTPP - 1) / NPTPP

/- The mask with the low `n` bits on. -/
def setmask (n : Nat) : BitVec 16 := BitVec.ofNat 16 (2 ^ n - 1)

structure Tune where
  minasmem : Int
  minarmem : Int

/- `use` is pf_use, `ptfree` the list of pages with free tables from its head on, `tbl` what a page
table holds, 0 for one of zeroes, and `held` the pages that have been got from getcpages and not
been given to freepage. -/
structure State where
  availrmem : Int
  availsmem : Int
  nptalloced : Int
  nptfree : Int
  use : Nat → BitVec 16
  ptfree : List Nat
  tbl : Nat → Nat
  held : Finset Nat

def bzero (pt n : Nat) (tbl : Nat → Nat) : Nat → Nat := fun t =>
  if pt ≤ t ∧ t < pt + n then 0 else tbl t

/- The first position of the mask in a page. -/
def fit (npgtbls : Nat) (use : BitVec 16) : Option Nat :=
  (List.range (NPTPP - npgtbls + 1)).find? fun j =>
    use &&& (setmask npgtbls <<< j) == setmask npgtbls <<< j

/- The first page of the list that has room, and where. -/
def search (npgtbls : Nat) (s : State) : Option (Nat × Nat) :=
  s.ptfree.findSome? fun pf => (fit npgtbls (s.use pf)).map fun j => (pf, j)

/- Tables of a page that is in use for others. -/
def reuse (npgtbls pf j : Nat) (s : State) : State :=
  let use := s.use pf &&& ~~~(setmask npgtbls <<< j)
  { s with
    use := Function.update s.use pf use
    ptfree := if use = 0 then s.ptfree.erase pf else s.ptfree
    nptfree := s.nptfree - npgtbls
    tbl := bzero (pf * NPTPP + j) npgtbls s.tbl }

/- The pages from `page` on are got from getcpages, with whatever they hold. The tables of the last
one that are not needed are put on the list. -/
def fresh (npgtbls page : Nat) (junk : Nat → Nat) (s : State) : State :=
  let i := pttopgs npgtbls
  let j := npgtbls % NPTPP
  let new := Finset.Ico page (page + i)
  { s with
    availrmem := s.availrmem - i
    availsmem := s.availsmem - i
    nptalloced := s.nptalloced + i * NPTPP
    nptfree := s.nptfree + i * NPTPP - npgtbls
    use := fun p => if p ∈ new then
      (if 0 < j ∧ p = page + (i - 1) then setmask (NPTPP - j) <<< j else 0) else s.use p
    ptfree := if 0 < j then (page + (i - 1)) :: s.ptfree else s.ptfree
    tbl := bzero (page * NPTPP) npgtbls fun t => if t / NPTPP ∈ new then junk t else s.tbl t
    held := s.held ∪ new }

/- ptalloc: the number of the first table, or NULL. `place` is what getcpages returns if it is
called. -/
def ptalloc (tune : Tune) (npgtbls : Nat) (place : Option Nat) (junk : Nat → Nat) (s : State) :
    Option Nat × State :=
  if npgtbls = 0 then (none, s)
  else
    match if npgtbls < NPTPP then search npgtbls s else none with
    | some (pf, j) => (some (pf * NPTPP + j), reuse npgtbls pf j s)
    | none =>
      let i := pttopgs npgtbls
      if s.availrmem - i < tune.minarmem ∨ s.availsmem - i < tune.minasmem then (none, s)
      else match place with
        | none => (none, s)
        | some page => (some (page * NPTPP), fresh npgtbls page junk s)

/- The tables of the page of `pt` that are to be freed: those up to the next page boundary. -/
def inPage (pt npgtbls : Nat) : Nat :=
  let nfree := min npgtbls NPTPP
  if (pt / NPTPP + 1) * NPTPP - pt < nfree then (pt + NPTPP - 1) / NPTPP * NPTPP - pt else nfree

/- One turn of the loop of uptfree. -/
def freeIn (pt nfree : Nat) (s : State) : State :=
  let pf := pt / NPTPP
  let ndx := pt % NPTPP
  let ptfree := if s.use pf = 0 ∧ nfree < NPTPP then pf :: s.ptfree else s.ptfree
  let use := s.use pf ||| (setmask nfree <<< ndx)
  if use = setmask NPTPP then
    { s with
      ptfree := if nfree ≠ NPTPP then ptfree.erase pf else ptfree
      use := Function.update s.use pf 1
      held := s.held.erase pf
      availrmem := s.availrmem + 1
      availsmem := s.availsmem + 1
      nptalloced := s.nptalloced - NPTPP
      nptfree := s.nptfree - (NPTPP - nfree) }
  else
    { s with
      ptfree := ptfree
      use := Function.update s.use pf use
      nptfree := s.nptfree + nfree }

def freeLoop : Nat → Nat → Nat → State → State
  | 0, _, _, s => s
  | fuel + 1, pt, npgtbls, s =>
    if npgtbls = 0 then s
    else
      let nfree := inPage pt npgtbls
      freeLoop fuel (pt + nfree) (npgtbls - nfree) (freeIn pt nfree s)

def uptfree (pt npgtbls : Nat) (s : State) : State := freeLoop npgtbls pt npgtbls s

end Svr32.Ptbl

/-! The mask of a page of page tables. -/
namespace Svr32.Ptbl
variable {n j k : Nat} {use use' : BitVec 16}

/- The free tables of a page. -/
def free (use : BitVec 16) : Finset Nat := (Finset.range NPTPP).filter fun k => use.getLsbD k

/-- No bit of the mask is for more than the tables of the page. -/
def High (use : BitVec 16) : Prop := ∀ k, NPTPP ≤ k → use.getLsbD k = false

theorem mem_free : k ∈ free use ↔ k < NPTPP ∧ use.getLsbD k = true := by
  rw [free, Finset.mem_filter, Finset.mem_range]

theorem setmask_bit (n k : Nat) : (setmask n).getLsbD k = (decide (k < 16) && decide (k < n)) := by
  rw [setmask, BitVec.getLsbD_ofNat, Nat.testBit_two_pow_sub_one]

theorem shift_bit (h : j + n ≤ 16) :
    (setmask n <<< j).getLsbD k = decide (j ≤ k ∧ k < j + n) := by
  rw [BitVec.getLsbD_shiftLeft, setmask_bit, Bool.eq_iff_iff]
  simp only [Bool.and_eq_true, Bool.not_eq_true', decide_eq_true_eq, decide_eq_false_iff_not]
  omega

theorem use_eq_zero (h : High use) : use = 0 ↔ free use = ∅ := by
  constructor
  · intro h0
    rw [Finset.eq_empty_iff_forall_notMem]
    intro k hk
    have hb := (mem_free.1 hk).2
    rw [h0] at hb
    simp at hb
  · intro h0
    apply BitVec.eq_of_getLsbD_eq
    intro k hk
    by_cases hlt : k < NPTPP
    · have hno : k ∉ free use := by rw [h0]; exact Finset.notMem_empty k
      rw [mem_free, not_and, Bool.not_eq_true] at hno
      rw [hno hlt]
      simp
    · rw [h k (by omega)]
      simp

theorem use_eq_full (h : High use) : use = setmask NPTPP ↔ free use = Finset.range NPTPP := by
  constructor
  · intro h0
    ext k
    rw [mem_free, Finset.mem_range, h0, setmask_bit]
    rw [Bool.and_eq_true, decide_eq_true_eq, decide_eq_true_eq]
    simp only [NPTPP]
    omega
  · intro h0
    apply BitVec.eq_of_getLsbD_eq
    intro k hk
    rw [setmask_bit, Bool.eq_iff_iff, Bool.and_eq_true, decide_eq_true_eq, decide_eq_true_eq]
    have hm : k ∈ free use ↔ k < NPTPP := by rw [h0, Finset.mem_range]
    rw [mem_free] at hm
    by_cases hlt : k < NPTPP
    · simp [(hm.2 hlt).2, hlt, hk]
    · simp [h k (by omega), hlt]

/- Bits that are turned off. -/
theorem off_bit (h : j + n ≤ 16) (k : Nat) :
    (use &&& ~~~(setmask n <<< j)).getLsbD k
      = (use.getLsbD k && !decide (j ≤ k ∧ k < j + n)) := by
  rw [BitVec.getLsbD_and, BitVec.getLsbD_not, shift_bit h]
  by_cases hk : k < 16
  · simp [hk]
  · rw [BitVec.getLsbD_of_ge use k (by omega)]
    simp

theorem high_off (hu : High use) (h : j + n ≤ NPTPP) : High (use &&& ~~~(setmask n <<< j)) := by
  intro k hk
  rw [off_bit (by simp only [NPTPP] at h; omega), hu k hk, Bool.false_and]

theorem free_off (h : j + n ≤ NPTPP) :
    free (use &&& ~~~(setmask n <<< j)) = free use \ Finset.Ico j (j + n) := by
  ext k
  rw [Finset.mem_sdiff, mem_free, mem_free, off_bit (by simp only [NPTPP] at h; omega),
    Finset.mem_Ico, Bool.and_eq_true, Bool.not_eq_true', decide_eq_false_iff_not, and_assoc]

/- Bits that are turned on. -/
theorem on_bit (h : j + n ≤ 16) (k : Nat) :
    (use ||| (setmask n <<< j)).getLsbD k
      = (use.getLsbD k || decide (j ≤ k ∧ k < j + n)) := by
  rw [BitVec.getLsbD_or, shift_bit h]

theorem high_on (hu : High use) (h : j + n ≤ NPTPP) : High (use ||| (setmask n <<< j)) := by
  intro k hk
  rw [on_bit (by simp only [NPTPP] at h; omega), hu k hk, Bool.false_or, decide_eq_false_iff_not]
  omega

theorem free_on (h : j + n ≤ NPTPP) :
    free (use ||| (setmask n <<< j)) = free use ∪ Finset.Ico j (j + n) := by
  ext k
  rw [Finset.mem_union, mem_free, mem_free, on_bit (by simp only [NPTPP] at h; omega),
    Finset.mem_Ico, Bool.or_eq_true, decide_eq_true_eq, and_or_left]
  have hin : k < NPTPP ∧ (j ≤ k ∧ k < j + n) ↔ j ≤ k ∧ k < j + n :=
    and_iff_right_of_imp fun hk => hk.2.trans_le h
  rw [hin]

/-- What fit finds is a place for the tables that is free. -/
theorem fit_spec (hn : n ≤ NPTPP) (h : fit n use = some j) :
    j + n ≤ NPTPP ∧ Finset.Ico j (j + n) ⊆ free use := by
  have hmem : j ∈ List.range (NPTPP - n + 1) := List.mem_of_find?_eq_some h
  rw [List.mem_range] at hmem
  have hj : j + n ≤ NPTPP := by omega
  apply And.intro hj
  intro k hk
  rw [Finset.mem_Ico] at hk
  have heq : use &&& (setmask n <<< j) = setmask n <<< j := by
    simpa using List.find?_some h
  have hbit : (use &&& (setmask n <<< j)).getLsbD k = (setmask n <<< j).getLsbD k := by rw [heq]
  rw [BitVec.getLsbD_and, shift_bit (by simp only [NPTPP] at hj; omega)] at hbit
  rw [mem_free]
  apply And.intro (by omega)
  simpa [hk] using hbit

/-- The page that search finds is on the list. -/
theorem search_spec {s : State} {pf : Nat} (hn : n ≤ NPTPP) (h : search n s = some (pf, j)) :
    pf ∈ s.ptfree ∧ j + n ≤ NPTPP ∧ Finset.Ico j (j + n) ⊆ free (s.use pf) := by
  obtain ⟨x, hx, hfx⟩ := List.exists_of_findSome?_eq_some h
  rw [Option.map_eq_some_iff] at hfx
  obtain ⟨i, hi, heq⟩ := hfx
  cases heq
  exact ⟨hx, fit_spec hn hi⟩

theorem free_last (h : 0 < j) (hj : j < NPTPP) :
    free (setmask (NPTPP - j) <<< j) = Finset.Ico j NPTPP := by
  ext k
  rw [mem_free, shift_bit (by simp only [NPTPP] at hj ⊢; omega), Finset.mem_Ico, decide_eq_true_eq]
  omega

theorem high_last (hj : j < NPTPP) : High (setmask (NPTPP - j) <<< j) := by
  intro k hk
  rw [shift_bit (by simp only [NPTPP] at hj ⊢; omega), decide_eq_false_iff_not]
  omega

end Svr32.Ptbl

/-! What ptalloc and uptfree keep, for the set of the tables that are in use. -/
namespace Svr32.Ptbl
variable {R S : Int} {s : State} {L L' : Nat → Prop}

/-- The pages that are held have a table in use; `R` and `S` are availrmem and availsmem with no
page held. -/
structure Sound (R S : Int) (s : State) (L : Nat → Prop) : Prop where
  high : ∀ p ∈ s.held, High (s.use p)
  mask : ∀ p ∈ s.held, ∀ k < NPTPP, k ∈ free (s.use p) ↔ ¬ L (p * NPTPP + k)
  home : ∀ t, L t → t / NPTPP ∈ s.held
  used : ∀ p ∈ s.held, free (s.use p) ≠ Finset.range NPTPP
  listed : ∀ p, p ∈ s.ptfree ↔ p ∈ s.held ∧ free (s.use p) ≠ ∅
  nodup : s.ptfree.Nodup
  nptfree : s.nptfree = ((∑ p ∈ s.held, (free (s.use p)).card : Nat) : Int)
  nptalloced : s.nptalloced = s.held.card * NPTPP
  availrmem : s.availrmem = R - s.held.card
  availsmem : s.availsmem = S - s.held.card

theorem free_sub (use : BitVec 16) : free use ⊆ Finset.range NPTPP := by
  intro k hk
  exact Finset.mem_range.2 (mem_free.1 hk).1

theorem table_page {p k : Nat} (hk : k < NPTPP) : (p * NPTPP + k) / NPTPP = p := by
  rw [NPTPP] at *
  omega

theorem table_eq (t : Nat) : t / NPTPP * NPTPP + t % NPTPP = t := by
  rw [NPTPP]
  omega

theorem Sound.congr (h : Sound R S s L) (hL : ∀ t, L' t ↔ L t) : Sound R S s L' :=
  ⟨h.high, fun p hp k hk => by rw [hL]; exact h.mask p hp k hk, fun t ht => h.home t ((hL t).1 ht),
    h.used, h.listed, h.nodup, h.nptfree, h.nptalloced, h.availrmem, h.availsmem⟩

/-- A page that has a table in use is held, and the other way round. -/
theorem Sound.held_iff (h : Sound R S s L) (p : Nat) :
    p ∈ s.held ↔ ∃ k < NPTPP, L (p * NPTPP + k) := by
  constructor
  · intro hp
    by_contra hno
    apply h.used p hp
    apply Finset.Subset.antisymm (free_sub _)
    intro k hk
    rw [Finset.mem_range] at hk
    rw [h.mask p hp k hk]
    exact fun hL => hno ⟨k, hk, hL⟩
  · rintro ⟨k, hk, hL⟩
    have hp := h.home _ hL
    rwa [table_page hk] at hp

/- The mask of one page is changed. -/
theorem Sound.change {pf : Nat} {u : BitVec 16} {l : List Nat} {c : Int} {tbl : Nat → Nat}
    (h : Sound R S s L) (hp : pf ∈ s.held) (hu : High u)
    (hout : ∀ t, t / NPTPP ≠ pf → (L' t ↔ L t))
    (hmask : ∀ k < NPTPP, k ∈ free u ↔ ¬ L' (pf * NPTPP + k))
    (hused : free u ≠ Finset.range NPTPP)
    (hl : ∀ p, p ∈ l ↔ p ≠ pf ∧ p ∈ s.ptfree ∨ p = pf ∧ free u ≠ ∅) (hn : l.Nodup)
    (hc : c + (free (s.use pf)).card = s.nptfree + (free u).card) :
    Sound R S { s with use := Function.update s.use pf u, ptfree := l, nptfree := c, tbl := tbl }
      L' where
  high p hpm := by
    by_cases he : p = pf
    · rw [he]
      simpa using hu
    · simpa [Function.update_of_ne he] using h.high p hpm
  mask p hpm k hk := by
    by_cases he : p = pf
    · rw [he]
      simpa using hmask k hk
    · have hne : (p * NPTPP + k) / NPTPP ≠ pf := by rwa [table_page hk]
      simpa [Function.update_of_ne he, hout _ hne] using h.mask p hpm k hk
  home t ht := by
    by_cases he : t / NPTPP = pf
    · rwa [he]
    · exact h.home t ((hout t he).1 ht)
  used p hpm := by
    by_cases he : p = pf
    · rw [he]
      simpa using hused
    · simpa [Function.update_of_ne he] using h.used p hpm
  listed p := by
    dsimp only
    rw [hl]
    by_cases he : p = pf
    · simp [he, hp]
    · simp [he, h.listed p]
  nodup := hn
  nptfree := by
    dsimp only
    have hrest : ∀ y ∈ s.held, y ≠ pf →
        (free (Function.update s.use pf u y)).card = (free (s.use y)).card := by
      intro y _ hy
      rw [Function.update_of_ne hy]
    have hsum := @Lib.sum_change _ _ s.held (fun p => (free (s.use p)).card)
      (fun p => (free (Function.update s.use pf u p)).card) pf hp hrest
    rw [Function.update_self] at hsum
    have hold := h.nptfree
    omega
  nptalloced := h.nptalloced
  availrmem := h.availrmem
  availsmem := h.availsmem

/- A page is given back. -/
theorem Sound.drop {pf : Nat} {u : BitVec 16} {l : List Nat} {c : Int} (h : Sound R S s L)
    (hp : pf ∈ s.held) (hout : ∀ t, t / NPTPP ≠ pf → (L' t ↔ L t))
    (hno : ∀ t, t / NPTPP = pf → ¬ L' t) (hl : ∀ p, p ∈ l ↔ p ≠ pf ∧ p ∈ s.ptfree) (hn : l.Nodup)
    (hc : c + (free (s.use pf)).card = s.nptfree) :
    Sound R S { s with
      ptfree := l
      use := Function.update s.use pf u
      held := s.held.erase pf
      availrmem := s.availrmem + 1
      availsmem := s.availsmem + 1
      nptalloced := s.nptalloced - NPTPP
      nptfree := c } L' := by
  have hcard : (s.held.erase pf).card + 1 = s.held.card := Finset.card_erase_add_one hp
  constructor
  · intro p hpm
    dsimp only
    rw [Function.update_of_ne (Finset.ne_of_mem_erase hpm)]
    exact h.high p (Finset.mem_of_mem_erase hpm)
  · intro p hpm k hk
    dsimp only
    have hne : (p * NPTPP + k) / NPTPP ≠ pf := by
      rw [table_page hk]
      exact Finset.ne_of_mem_erase hpm
    rw [Function.update_of_ne (Finset.ne_of_mem_erase hpm), hout _ hne]
    exact h.mask p (Finset.mem_of_mem_erase hpm) k hk
  · intro t ht
    have hne : t / NPTPP ≠ pf := fun he => hno t he ht
    exact Finset.mem_erase.2 ⟨hne, h.home t ((hout t hne).1 ht)⟩
  · intro p hpm
    dsimp only
    rw [Function.update_of_ne (Finset.ne_of_mem_erase hpm)]
    exact h.used p (Finset.mem_of_mem_erase hpm)
  · intro p
    dsimp only
    rw [hl, h.listed p, Finset.mem_erase, and_assoc]
    apply and_congr_right
    intro hne
    rw [Function.update_of_ne hne]
  · exact hn
  · dsimp only
    have hsum : ∑ p ∈ s.held.erase pf, (free (Function.update s.use pf u p)).card
        = ∑ p ∈ s.held.erase pf, (free (s.use p)).card :=
      Finset.sum_congr rfl fun p hpm => by rw [Function.update_of_ne (Finset.ne_of_mem_erase hpm)]
    have hone := Finset.sum_erase_add s.held (fun p => (free (s.use p)).card) hp
    have hold := h.nptfree
    rw [hsum]
    omega
  · have hold := h.nptalloced
    dsimp only
    rw [hold, ← hcard]
    push_cast
    ring
  · have hold := h.availrmem
    dsimp only
    omega
  · have hold := h.availsmem
    dsimp only
    omega

end Svr32.Ptbl
