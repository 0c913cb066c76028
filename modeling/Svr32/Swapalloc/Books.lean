import Svr32.Swapalloc.Find
import Svr32.Lib.Count
import Mathlib.Data.List.Count

/-! The use counts are the numbers of descriptors, and st_nfpgs the number of zero counts. -/
namespace Svr32.Swapalloc
open Svr32.Lib
variable {D : Type} [Fintype D] {short short' : Smi → Int}
  {tab tab' : Smi → Swpt} {dbd : D → Dbd} {i j : Smi} {u : List Nat} {p n m : Nat} {d : D}
  {st : Swpt} {b : Dbd} {x : Int}

/- The page that a descriptor refers to. -/
def page (tab : Smi → Swpt) (b : Dbd) : Option (Smi × Int) :=
  if b.dbdType = .swap then some (b.dbdSwpi, pgnbr b (tab b.dbdSwpi)) else none

/- How many descriptors refer to a page. -/
def refs (tab : Smi → Swpt) (dbd : D → Dbd) (i : Smi) (p : Nat) : Nat :=
  uses (fun d => page tab (dbd d)) (i, (p : Int))

/- The numbers of the blocks of a file fit into a descriptor. -/
structure Fits (st : Swpt) : Prop where
  low : 0 ≤ st.stSwplo
  high : st.stSwplo + 4 * st.stNpgs ≤ 2 ^ 24

/- The table and the descriptors agree, but for the pages that swalloc has not set up yet. -/
structure Books (short : Smi → Int) (tab : Smi → Swpt) (dbd : D → Dbd) : Prop where
  fits : ∀ i u, (tab i).stUcnt = some u → Fits (tab i) ∧ u.length = (tab i).stNpgs
  nfpgs : ∀ i u, (tab i).stUcnt = some u → (tab i).stNfpgs + short i = u.count 0
  uses : ∀ i u, (tab i).stUcnt = some u → ∀ p n, u[p]? = some n → refs tab dbd i p = n
  swap : ∀ d, (dbd d).dbdType = .swap → ∃ u p, (tab (dbd d).dbdSwpi).stUcnt = some u ∧
    p < u.length ∧ ((dbd d).dbdBlkno : Int) = (tab (dbd d).dbdSwpi).stSwplo + 4 * p

theorem pgnbr_eq (h : (b.dbdBlkno : Int) = st.stSwplo + 4 * p) : pgnbr b st = p := by
  have hsub : (b.dbdBlkno : Int) - st.stSwplo = 4 * p := by omega
  rw [pgnbr, hsub, DPPSHFT, Int.shiftRight_eq_div_pow]
  omega

theorem toBlkno_eq (h : 0 ≤ x) (h' : x < 2 ^ 24) : ((toBlkno x : Nat) : Int) = x := by
  rw [toBlkno, Int.emod_eq_of_lt h h']
  omega

theorem zeros_set (h : u[p]? = some n) (m : Nat) :
    (u.set p m).count 0 + (if n = 0 then 1 else 0) = u.count 0 + if m = 0 then 1 else 0 := by
  obtain ⟨hlt, hn⟩ := List.getElem?_eq_some_iff.mp h
  have hpos : n = 0 → 0 < u.count 0 := fun h0 =>
    List.count_pos_iff.mpr (by rw [← h0, ← hn]; exact List.getElem_mem hlt)
  rw [List.count_set hlt, hn]
  simp only [beq_iff_eq]
  by_cases h0 : n = 0
  · have hp := hpos h0
    simp only [if_pos h0]
    omega
  · simp only [if_neg h0]
    omega

theorem page_update (h : st.stSwplo = (tab i).stSwplo) (b : Dbd) :
    page (Function.update tab i st) b = page tab b := by
  by_cases hb : b.dbdSwpi = i
  · subst hb
    simp only [page, pgnbr, Function.update_self, h]
  · simp only [page, Function.update_of_ne hb]

theorem refs_congr (h : ∀ d, page tab' (dbd d) = page tab (dbd d)) (j : Smi) (q : Nat) :
    refs tab' dbd j q = refs tab dbd j q := by
  simp only [refs, h]

theorem page_congr (h : ∀ i, (tab' i).stSwplo = (tab i).stSwplo) (b : Dbd) :
    page tab' b = page tab b := by
  simp only [page, pgnbr, h]

/-- The flags and st_next of a file do not matter. -/
theorem Books.congr (h : Books short tab dbd)
    (ht : ∀ i, (tab' i).stUcnt = (tab i).stUcnt ∧ (tab' i).stSwplo = (tab i).stSwplo ∧
      (tab' i).stNpgs = (tab i).stNpgs ∧
      (tab' i).stNfpgs + short' i = (tab i).stNfpgs + short i) : Books short' tab' dbd := by
  refine ⟨fun i u hu => ?_, fun i u hu => ?_, fun i u hu p n hn => ?_, fun d hd => ?_⟩
  · rw [(ht i).1] at hu
    obtain ⟨hfits, hlen⟩ := h.fits i u hu
    have hlow := hfits.low
    have hhigh := hfits.high
    rw [← (ht i).2.1] at hlow hhigh
    rw [← (ht i).2.2.1] at hhigh hlen
    exact ⟨⟨hlow, hhigh⟩, hlen⟩
  · rw [(ht i).1] at hu
    rw [(ht i).2.2.2]
    exact h.nfpgs i u hu
  · rw [(ht i).1] at hu
    rw [refs_congr fun d => page_congr (fun i => (ht i).2.1) _]
    exact h.uses i u hu p n hn
  · obtain ⟨u, p, hu, hp, hblk⟩ := h.swap d hd
    exact ⟨u, p, by rw [(ht _).1, hu], hp, by rw [(ht _).2.1, hblk]⟩

/-- What a descriptor refers to is a page of a file, with a count. -/
theorem Books.count (h : Books short tab dbd) (hd : (dbd d).dbdType = .swap) :
    ∃ u, ∃ p n : Nat, (tab (dbd d).dbdSwpi).stUcnt = some u ∧ u[p]? = some n ∧ 0 < n ∧
      page tab (dbd d) = some ((dbd d).dbdSwpi, (p : Int)) ∧
      ((dbd d).dbdBlkno : Int) = (tab (dbd d).dbdSwpi).stSwplo + 4 * p := by
  obtain ⟨u, p, hu, hp, hblk⟩ := h.swap d hd
  have hpg := pgnbr_eq hblk
  have hpage : page tab (dbd d) = some ((dbd d).dbdSwpi, (p : Int)) := by
    rw [page, if_pos hd, hpg]
  have hn := List.getElem?_eq_getElem hp
  refine ⟨u, p, u[p], hu, hn, ?_, hpage, hblk⟩
  rw [← h.uses _ u hu p _ hn]
  exact uses_pos (by exact hpage)

/- A file without pages in use. -/
def Unused (st : Swpt) : Prop :=
  st.stUcnt = none ∨ (st.stUcnt = some (List.replicate st.stNpgs 0) ∧
    st.stNfpgs = st.stNpgs ∧ Fits st)

/-- An entry that no descriptor refers to gets another file, or none. -/
theorem Books.replace (h : Books short tab dbd)
    (hno : ∀ d, (dbd d).dbdType = .swap → (dbd d).dbdSwpi ≠ i) (hst : Unused st)
    (hshort : short i = 0) : Books short (Function.update tab i st) dbd := by
  have hpage : ∀ d, page (Function.update tab i st) (dbd d) = page tab (dbd d) := fun d => by
    by_cases hd : (dbd d).dbdType = .swap
    · rw [page, page, Function.update_of_ne (hno d hd)]
    · rw [page, page, if_neg hd, if_neg hd]
  have hzero : ∀ p : Nat, refs tab dbd i p = 0 := fun p => uses_eq_zero.mpr fun d hd => by
    by_cases hs : (dbd d).dbdType = .swap
    · rw [page, if_pos hs] at hd
      exact hno d hs (Prod.mk.inj (Option.some.inj hd)).1
    · rw [page, if_neg hs] at hd
      cases hd
  refine ⟨fun j u hu => ?_, fun j u hu => ?_, fun j u hu p n hn => ?_, fun d hd => ?_⟩
  · by_cases hj : j = i
    · subst hj
      rw [Function.update_self] at hu ⊢
      obtain hnone | ⟨hsome, -, hfits⟩ := hst
      · rw [hnone] at hu
        cases hu
      · rw [hsome] at hu
        cases hu
        exact ⟨hfits, List.length_replicate⟩
    · rw [Function.update_of_ne hj] at hu ⊢
      exact h.fits j u hu
  · by_cases hj : j = i
    · subst hj
      rw [Function.update_self] at hu ⊢
      obtain hnone | ⟨hsome, hnf, -⟩ := hst
      · rw [hnone] at hu
        cases hu
      · rw [hsome] at hu
        cases hu
        rw [hnf, hshort, List.count_replicate_self]
        omega
    · rw [Function.update_of_ne hj] at hu ⊢
      exact h.nfpgs j u hu
  · rw [refs_congr hpage]
    by_cases hj : j = i
    · subst hj
      rw [Function.update_self] at hu
      rw [hzero]
      obtain hnone | ⟨hsome, -, -⟩ := hst
      · rw [hnone] at hu
        cases hu
      · rw [hsome] at hu
        cases hu
        rw [List.getElem?_replicate] at hn
        split at hn
        · exact Option.some.inj hn
        · cases hn
    · rw [Function.update_of_ne hj] at hu
      exact h.uses j u hu p n hn
  · rw [Function.update_of_ne (hno d hd)]
    exact h.swap d hd

variable [DecidableEq D]

/-- One count and one descriptor change. -/
theorem Books.turn (h : Books short tab dbd) (hu : (tab i).stUcnt = some u) (hp : p < u.length)
    (hst : st = { tab i with stUcnt := some (u.set p m), stNfpgs := x })
    (hx : x + short' i = (u.set p m).count 0) (hshort : ∀ j, j ≠ i → short' j = short j)
    (hsame : ∀ j q, (j, q) ≠ (i, p) →
      refs (Function.update tab i st) (Function.update dbd d b) j q = refs tab dbd j q)
    (hm : refs (Function.update tab i st) (Function.update dbd d b) i p = m)
    (hb : b.dbdType = .swap →
      b.dbdSwpi = i ∧ (b.dbdBlkno : Int) = (tab i).stSwplo + 4 * p) :
    Books short' (Function.update tab i st) (Function.update dbd d b) := by
  obtain ⟨hfits, hlen⟩ := h.fits i u hu
  have hlo : st.stSwplo = (tab i).stSwplo := by rw [hst]
  have hset : st.stUcnt = some (u.set p m) := by rw [hst]
  refine ⟨fun j v hv => ?_, fun j v hv => ?_, fun j v hv q k hk => ?_, fun e he => ?_⟩
  · by_cases hj : j = i
    · subst hj
      rw [Function.update_self, hst] at hv ⊢
      cases hv
      exact ⟨⟨hfits.low, hfits.high⟩, by rwa [List.length_set]⟩
    · rw [Function.update_of_ne hj] at hv ⊢
      exact h.fits j v hv
  · by_cases hj : j = i
    · subst hj
      rw [Function.update_self, hst] at hv ⊢
      cases hv
      exact hx
    · rw [Function.update_of_ne hj] at hv ⊢
      rw [hshort j hj]
      exact h.nfpgs j v hv
  · by_cases hj : j = i
    · subst hj
      rw [Function.update_self, hset] at hv
      cases hv
      by_cases hq : q = p
      · subst hq
        rw [List.getElem?_set_self hp] at hk
        exact hm.trans (Option.some.inj hk)
      · rw [List.getElem?_set_ne (Ne.symm hq)] at hk
        rw [hsame j q fun he => hq (Prod.mk.inj he).2]
        exact h.uses j u hu q k hk
    · rw [Function.update_of_ne hj] at hv
      rw [hsame j q fun he => hj (Prod.mk.inj he).1]
      exact h.uses j v hv q k hk
  · by_cases hed : e = d
    · subst hed
      rw [Function.update_self] at he ⊢
      obtain ⟨hi, hblk⟩ := hb he
      rw [hi, Function.update_self, hlo]
      exact ⟨u.set p m, p, hset, by rwa [List.length_set], hblk⟩
    · rw [Function.update_of_ne hed] at he ⊢
      obtain ⟨v, q, hv, hq, hbq⟩ := h.swap e he
      by_cases hj : (dbd e).dbdSwpi = i
      · rw [hj, Function.update_self, hlo]
        rw [hj] at hv hbq
        cases hu.symm.trans hv
        exact ⟨u.set p m, q, hset, by rwa [List.length_set], hbq⟩
      · rw [Function.update_of_ne hj]
        exact ⟨v, q, hv, hq, hbq⟩

theorem refs_update {r : Option (Smi × Int)} (hlo : st.stSwplo = (tab i).stSwplo)
    (hb : page tab b = r) (j : Smi) (q : Nat) :
    refs (Function.update tab i st) (Function.update dbd d b) j q =
      Lib.uses (Function.update (fun e => page tab (dbd e)) d r) (j, (q : Int)) := by
  have hfun : (fun e => page (Function.update tab i st) (Function.update dbd d b e)) =
      Function.update (fun e => page tab (dbd e)) d r := by
    funext e
    rw [page_update hlo]
    by_cases he : e = d
    · rw [he, Function.update_self, Function.update_self, hb]
    · rw [Function.update_of_ne he, Function.update_of_ne he]
  rw [refs, hfun]

theorem pair_ne {j : Smi} {q : Nat} (h : (j, q) ≠ (i, p)) : (j, (q : Int)) ≠ (i, (p : Int)) :=
  fun he => h (Prod.ext (Prod.mk.inj he).1 (Int.natCast_inj.mp (Prod.mk.inj he).2))

/-- A descriptor is made to refer to a page. -/
theorem Books.attach (h : Books short tab dbd) (hu : (tab i).stUcnt = some u)
    (hn : u[p]? = some n) (hd : (dbd d).dbdType ≠ .swap)
    (hst : st = { tab i with stUcnt := some (u.set p (n + 1)), stNfpgs := x })
    (hx : x + short' i = (u.set p (n + 1)).count 0) (hshort : ∀ j, j ≠ i → short' j = short j)
    (hb : b.dbdType = .swap ∧ b.dbdSwpi = i ∧ (b.dbdBlkno : Int) = (tab i).stSwplo + 4 * p) :
    Books short' (Function.update tab i st) (Function.update dbd d b) := by
  have hplt : p < u.length := (List.getElem?_eq_some_iff.mp hn).1
  have hlo : st.stSwplo = (tab i).stSwplo := by rw [hst]
  have hnew : page tab b = some (i, (p : Int)) := by
    rw [page, if_pos hb.1, hb.2.1, pgnbr_eq hb.2.2]
  have hold (q : Smi × Int) : Lib.uses (Function.update (fun e => page tab (dbd e)) d
      (some (i, (p : Int)))) q = Lib.uses (fun e => page tab (dbd e)) q +
        if q = (i, (p : Int)) then 1 else 0 := uses_attach (by exact if_neg hd) q
  refine h.turn hu hplt hst hx hshort (fun j q hj => ?_) ?_ fun _ => hb.2
  · rw [refs_update hlo hnew, hold, if_neg (pair_ne hj)]
    rfl
  · rw [refs_update hlo hnew, hold, if_pos rfl]
    exact congrArg (· + 1) (h.uses i u hu p n hn)

/-- A descriptor gives up the page that it refers to. -/
theorem Books.detach (h : Books short tab dbd) (hu : (tab i).stUcnt = some u)
    (hn : u[p]? = some n) (hd : page tab (dbd d) = some (i, (p : Int)))
    (hst : st = { tab i with stUcnt := some (u.set p (n - 1)), stNfpgs := x })
    (hx : x + short' i = (u.set p (n - 1)).count 0) (hshort : ∀ j, j ≠ i → short' j = short j)
    (hb : b.dbdType ≠ .swap) :
    Books short' (Function.update tab i st) (Function.update dbd d b) := by
  have hplt : p < u.length := (List.getElem?_eq_some_iff.mp hn).1
  have hlo : st.stSwplo = (tab i).stSwplo := by rw [hst]
  have hnew : page tab b = none := by rw [page, if_neg hb]
  have huse := h.uses i u hu p n hn
  have hold (q : Smi × Int) : Lib.uses (Function.update (fun e => page tab (dbd e)) d none) q +
      (if q = (i, (p : Int)) then 1 else 0) = Lib.uses (fun e => page tab (dbd e)) q :=
    uses_detach (by exact hd) q
  refine h.turn hu hplt hst hx hshort (fun j q hj => ?_) ?_ fun h => absurd h hb
  · have hdet := hold (j, (q : Int))
    rw [if_neg (pair_ne hj)] at hdet
    rw [refs_update hlo hnew]
    exact hdet
  · have hdet := hold (i, (p : Int))
    rw [if_pos rfl] at hdet
    rw [refs_update hlo hnew]
    rw [refs] at huse
    omega

end Svr32.Swapalloc
