import Svr32.Stream.Pool
import Svr32.Lib.Count
import Svr32.Lib.Family

/-! The accounts of data blocks: reference counts, the free list of each class and dba_cnt,
against the number of message blocks that point at a data block. -/
namespace Svr32.Stream
open Svr32.Lib
variable {nd : Nat} {k k' : Pool} {r : Nat → Nat} {dfl : Nat → List Nat} {dp c : Nat}

namespace Pool

def freep (k : Pool) (d : Nat) : Option Nat := (k.db d).dbFreep

def datap (k : Pool) (b : Nat) : Option Nat := (k.mb b).bDatap

/- How many message blocks point at `d`. -/
def refs (k : Pool) (d : Nat) : Nat := pointing (Finset.range k.nmblock) k.datap d

/- The data blocks of class `c` in use. -/
def used (nd : Nat) (k : Pool) (r : Nat → Nat) (c : Nat) : Finset Nat :=
  (Finset.range nd).filter fun d => (k.db d).dbClass = c ∧ r d ≠ 0

end Pool

/- Accounts of `nd` data blocks with `r` references. -/
structure Data (nd : Nat) (k : Pool) (r : Nat → Nat) (dfl : Nat → List Nat) : Prop where
  fam : Family k.freep k.dbfreelist dfl
  free : ∀ c d, d ∈ dfl c ↔ d < nd ∧ (k.db d).dbClass = c ∧ r d = 0
  ref : ∀ d < nd, (k.db d).dbRef.toNat = r d
  cnt : ∀ c, k.dbaCnt c = (k.used nd r c).card

/- No descriptor changes its link, its class or its count. -/
def SameDb (k k' : Pool) : Prop := ∀ d, (k'.db d).dbFreep = (k.db d).dbFreep ∧
  (k'.db d).dbClass = (k.db d).dbClass ∧ (k'.db d).dbRef = (k.db d).dbRef

/-- Accounts are about these, the free lists and the counts only. -/
theorem Data.congr (h : Data nd k r dfl) (hdb : SameDb k k')
    (hfl : k'.dbfreelist = k.dbfreelist) (hcnt : k'.dbaCnt = k.dbaCnt) : Data nd k' r dfl := by
  refine ⟨?_, fun c d => ?_, fun d hd => ?_, fun c => ?_⟩
  · have hfreep : k'.freep = k.freep := funext fun d => (hdb d).1
    rw [hfreep, hfl]
    exact h.fam
  · rw [(hdb d).2.1]
    exact h.free c d
  · rw [(hdb d).2.2]
    exact h.ref d hd
  · have hused : k'.used nd r c = k.used nd r c :=
      Finset.filter_congr fun d _ => by rw [(hdb d).2.1]
    rw [hcnt, h.cnt, hused]

/- The descriptor `dp` alone changes, and not its class. -/
structure OneDb (k k' : Pool) (dp : Nat) : Prop where
  same : ∀ d, d ≠ dp → k'.db d = k.db d
  cls : (k'.db dp).dbClass = (k.db dp).dbClass

theorem OneDb.cls_eq (h : OneDb k k' dp) (d : Nat) : (k'.db d).dbClass = (k.db d).dbClass := by
  by_cases hd : d = dp
  · rw [hd, h.cls]
  · rw [h.same d hd]

theorem OneDb.freep (h : OneDb k k' dp) :
    k'.freep = Function.update k.freep dp (k'.db dp).dbFreep := by
  funext d
  by_cases hd : d = dp
  · rw [hd, Function.update_self]
    rfl
  · rw [Function.update_of_ne hd, Pool.freep, h.same d hd]
    rfl

theorem OneDb.ref (h : OneDb k k' dp) (hdata : Data nd k r dfl) {v : Nat}
    (href : (k'.db dp).dbRef.toNat = v) (d : Nat) (hd : d < nd) :
    (k'.db d).dbRef.toNat = Function.update r dp v d := by
  by_cases hdd : d = dp
  · rw [hdd, Function.update_self, href]
  · rw [Function.update_of_ne hdd, h.same d hdd]
    exact hdata.ref d hd

theorem OneDb.used (h : OneDb k k' dp) {v : Nat} (hdp : dp < nd) (c : Nat) :
    (k'.used nd (Function.update r dp v) c).card +
        (if (k.db dp).dbClass = c ∧ r dp ≠ 0 then 1 else 0) =
      (k.used nd r c).card + (if (k.db dp).dbClass = c ∧ v ≠ 0 then 1 else 0) := by
  have hc := @card_filter_change _ _ (Finset.range nd)
    (fun d => (k.db d).dbClass = c ∧ r d ≠ 0)
    (fun d => (k'.db d).dbClass = c ∧ Function.update r dp v d ≠ 0) _ _ dp
    (Finset.mem_range.mpr hdp) fun y _ hy => by rw [h.cls_eq, Function.update_of_ne hy]
  simpa only [Pool.used, h.cls_eq, Function.update_self] using hc

/-- The count of a block that stays in use. -/
theorem Data.stay (h : Data nd k r dfl) (ho : OneDb k k' dp) {v : Nat} (hdp : dp < nd)
    (hold : r dp ≠ 0) (hnew : v ≠ 0) (href : (k'.db dp).dbRef.toNat = v)
    (hfl : k'.dbfreelist = k.dbfreelist) (hcnt : k'.dbaCnt = k.dbaCnt) :
    Data nd k' (Function.update r dp v) dfl := by
  have hout : ∀ j, dp ∉ dfl j := fun j hj => hold ((h.free j dp).mp hj).2.2
  refine ⟨?_, fun c x => ?_, ho.ref h href, fun c => ?_⟩
  · rw [ho.freep, hfl]
    exact h.fam.set hout _
  · rw [h.free, ho.cls_eq]
    by_cases hx : x = dp
    · simp [hx, hold, hnew]
    · rw [Function.update_of_ne hx]
  · have hu := ho.used (r := r) (v := v) hdp c
    rw [hcnt, h.cnt c]
    simp only [ne_eq, hold, hnew, not_false_eq_true, and_true] at hu
    omega

/-- A free block goes into use. -/
theorem Data.take (h : Data nd k r dfl) (ho : OneDb k k' dp) {rest : List Nat}
    (hl : dfl c = dp :: rest) (href : (k'.db dp).dbRef = 1)
    (hfl : k'.dbfreelist = Function.update k.dbfreelist c (k.freep dp))
    (hcnt : k'.dbaCnt = Function.update k.dbaCnt c (k.dbaCnt c + 1)) :
    Data nd k' (Function.update r dp 1) (Function.update dfl c rest) := by
  obtain ⟨hdp, hc, hr⟩ := (h.free c dp).mp (by simp [hl])
  have hnd := h.fam.nodup c
  rw [hl] at hnd
  have hout : ∀ j, dp ∉ Function.update dfl c rest j := by
    intro j
    by_cases hj : j = c
    · rw [hj, Function.update_self]
      exact (List.nodup_cons.mp hnd).1
    · rw [Function.update_of_ne hj]
      exact h.fam.not_mem (i := c) (by simp [hl]) hj
  refine ⟨?_, fun c' x => ?_, ho.ref h (by rw [href]; rfl), fun c' => ?_⟩
  · rw [ho.freep, hfl]
    exact (h.fam.pop hl).set hout _
  · rw [ho.cls_eq]
    by_cases hx : x = dp
    · simp [hx, hout c']
    · rw [Function.update_of_ne hx, ← h.free]
      by_cases hj : c' = c
      · rw [hj, Function.update_self, hl]
        simp [hx]
      · rw [Function.update_of_ne hj]
  · have hu := ho.used (r := r) (v := 1) hdp c'
    simp only [hr, hc, ne_eq, not_true_eq_false, and_false, if_false, one_ne_zero,
      not_false_eq_true, and_true] at hu
    rw [hcnt]
    by_cases hj : c' = c
    · rw [hj, Function.update_self, h.cnt c]
      rw [hj, if_pos rfl] at hu
      omega
    · rw [Function.update_of_ne hj, h.cnt c']
      rw [if_neg (Ne.symm hj)] at hu
      omega

/-- The last reference goes, and the block with it. -/
theorem Data.drop (h : Data nd k r dfl) (ho : OneDb k k' dp) (hdp : dp < nd) (hold : r dp ≠ 0)
    (hc : (k.db dp).dbClass = c) (href : (k'.db dp).dbRef = 0)
    (hfreep : (k'.db dp).dbFreep = k.dbfreelist c)
    (hfl : k'.dbfreelist = Function.update k.dbfreelist c (some dp))
    (hcnt : k'.dbaCnt = Function.update k.dbaCnt c (k.dbaCnt c - 1)) :
    Data nd k' (Function.update r dp 0) (Function.update dfl c (dp :: dfl c)) := by
  have hout : ∀ j, dp ∉ dfl j := fun j hj => hold ((h.free j dp).mp hj).2.2
  refine ⟨?_, fun c' x => ?_, ho.ref h (by rw [href]; rfl), fun c' => ?_⟩
  · rw [ho.freep, hfl, hfreep]
    exact h.fam.push hout c
  · rw [ho.cls_eq]
    by_cases hj : c' = c
    · rw [hj, Function.update_self, List.mem_cons, h.free]
      by_cases hx : x = dp
      · simp [hx, hdp, hc]
      · simp [hx]
    · rw [Function.update_of_ne hj, h.free]
      by_cases hx : x = dp
      · rw [hx, hc]
        exact ⟨fun hh => absurd hh.2.1.symm hj, fun hh => absurd hh.2.1.symm hj⟩
      · rw [Function.update_of_ne hx]
  · have hu := ho.used (r := r) (v := 0) hdp c'
    simp only [hold, hc, ne_eq, not_true_eq_false, and_false, if_false,
      not_false_eq_true, and_true] at hu
    rw [hcnt]
    by_cases hj : c' = c
    · rw [hj, Function.update_self, h.cnt c]
      rw [hj, if_pos rfl] at hu
      omega
    · rw [Function.update_of_ne hj, h.cnt c']
      rw [if_neg (Ne.symm hj)] at hu
      omega

/- The free message blocks are `fl`, and data blocks have the references that the message
   blocks make. -/
structure Account (nd : Nat) (k : Pool) (fl : List Nat) : Prop where
  seg : Seg k.next k.mbfreelist fl
  nodup : fl.Nodup
  lt : ∀ b ∈ fl, b < k.nmblock
  nodata : ∀ b ∈ fl, k.datap b = none
  inside : ∀ b < k.nmblock, ∀ d, k.datap b = some d → d < nd
  data : ∃ dfl, Data nd k k.refs dfl

/- The message block `b` alone changes, and no class of a data block. -/
structure OneMb (k k' : Pool) (b : Nat) : Prop where
  same : ∀ x, x ≠ b → k'.mb x = k.mb x
  size : k'.nmblock = k.nmblock
  cls : ∀ d, (k'.db d).dbClass = (k.db d).dbClass

variable {fl : List Nat} {b n d : Nat}

theorem OneMb.datap (h : OneMb k k' b) : k'.datap = Function.update k.datap b (k'.datap b) := by
  funext x
  by_cases hx : x = b
  · rw [hx, Function.update_self]
  · rw [Function.update_of_ne hx, Pool.datap, h.same x hx]
    rfl

theorem OneMb.refs (h : OneMb k k' b) (hb : b < k.nmblock) (d : Nat) :
    k'.refs d + (if k.datap b = some d then 1 else 0) =
      k.refs d + (if k'.datap b = some d then 1 else 0) := by
  have hp := pointing_update (s := Finset.range k.nmblock) k.datap (Finset.mem_range.mpr hb)
    (k'.datap b) d
  rw [← h.datap] at hp
  rw [Pool.refs, Pool.refs, h.size]
  exact hp

/-- A block gets data. -/
theorem OneMb.refs_some (h : OneMb k k' b) (hb : b < k.nmblock) (hold : k.datap b = none)
    (hnew : k'.datap b = some d) : k'.refs = Function.update k.refs d (k.refs d + 1) := by
  funext x
  have hr := h.refs hb x
  rw [hold, hnew, if_neg nofun] at hr
  by_cases hx : x = d
  · rw [hx, if_pos rfl] at hr
    rw [hx, Function.update_self]
    omega
  · rw [if_neg fun he => hx (Option.some.inj he).symm] at hr
    rw [Function.update_of_ne hx]
    omega

/-- A block loses its data. -/
theorem OneMb.refs_none (h : OneMb k k' b) (hb : b < k.nmblock) (hold : k.datap b = some d)
    (hnew : k'.datap b = none) : k'.refs = Function.update k.refs d (k.refs d - 1) := by
  funext x
  have hr := h.refs hb x
  simp only [hold, hnew, reduceCtorEq, if_false] at hr
  by_cases hx : x = d
  · rw [hx, if_pos rfl] at hr
    rw [hx, Function.update_self]
    omega
  · rw [if_neg fun he => hx (Option.some.inj he).symm] at hr
    rw [Function.update_of_ne hx]
    omega

/-- Accounts under changes to what they are not about. -/
theorem Account.congr (h : Account nd k fl) (hnext : ∀ x ∈ fl, k'.next x = k.next x)
    (hfree : k'.mbfreelist = k.mbfreelist) (hsize : k'.nmblock = k.nmblock)
    (hdatap : k'.datap = k.datap) (hdb : SameDb k k') (hfl : k'.dbfreelist = k.dbfreelist)
    (hcnt : k'.dbaCnt = k.dbaCnt) : Account nd k' fl := by
  have hrefs : k'.refs = k.refs := by
    funext d
    rw [Pool.refs, Pool.refs, hsize, hdatap]
  obtain ⟨dfl, hdata⟩ := h.data
  refine ⟨?_, h.nodup, ?_, ?_, ?_, dfl, ?_⟩
  · rw [hfree]
    exact h.seg.congr hnext
  · rw [hsize]
    exact h.lt
  · rw [hdatap]
    exact h.nodata
  · rw [hsize, hdatap]
    exact h.inside
  · rw [hrefs]
    exact hdata.congr hdb hfl hcnt

/-- What is left of the free list when its first block is taken and used. -/
theorem Account.rest (h : Account nd k fl) {rest : List Nat} (hl : fl = n :: rest)
    (ho : OneMb k k' n) (hfree : k'.mbfreelist = k.next n) (hd : k'.datap n = some d)
    (hlt : d < nd) (hdata : ∃ dfl, Data nd k' k'.refs dfl) : Account nd k' rest := by
  have hseg := h.seg
  have hnd := h.nodup
  rw [hl] at hseg hnd
  obtain ⟨hn, hnd⟩ := List.nodup_cons.mp hnd
  have hne : ∀ x ∈ rest, x ≠ n := fun x hx he => hn (he ▸ hx)
  refine ⟨?_, hnd, fun x hx => ?_, fun x hx => ?_, fun x hx e he => ?_, hdata⟩
  · rw [hfree]
    refine hseg.2.congr fun x hx => ?_
    rw [Pool.next, ho.same x (hne x hx)]
    rfl
  · rw [ho.size]
    exact h.lt x (by simp [hl, hx])
  · rw [Pool.datap, ho.same x (hne x hx)]
    exact h.nodata x (by simp [hl, hx])
  · by_cases hxn : x = n
    · rw [hxn, hd] at he
      cases he
      exact hlt
    · rw [Pool.datap, ho.same x hxn] at he
      exact h.inside x (ho.size ▸ hx) e he

/-- A block that has lost its data goes to the free list. -/
theorem Account.give (h : Account nd k fl) (hb : b < k.nmblock) (hin : b ∉ fl)
    (ho : OneMb k k' b) (hfree : k'.mbfreelist = some b) (hnext : k'.next b = k.mbfreelist)
    (hd : k'.datap b = none) (hdata : ∃ dfl, Data nd k' k'.refs dfl) : Account nd k' (b :: fl) := by
  have hne : ∀ x ∈ fl, x ≠ b := fun x hx he => hin (he ▸ hx)
  refine ⟨?_, List.nodup_cons.mpr ⟨hin, h.nodup⟩, fun x hx => ?_, fun x hx => ?_,
    fun x hx e he => ?_, hdata⟩
  · refine ⟨hfree, ?_⟩
    rw [hnext]
    refine h.seg.congr fun x hx => ?_
    rw [Pool.next, ho.same x (hne x hx)]
    rfl
  · rw [ho.size]
    cases List.mem_cons.mp hx with
    | inl he => exact he ▸ hb
    | inr hx => exact h.lt x hx
  · cases List.mem_cons.mp hx with
    | inl he => exact he ▸ hd
    | inr hx =>
      rw [Pool.datap, ho.same x (hne x hx)]
      exact h.nodata x hx
  · by_cases hxn : x = b
    · rw [hxn, hd] at he
      cases he
    · rw [Pool.datap, ho.same x hxn] at he
      exact h.inside x (ho.size ▸ hx) e he

end Svr32.Stream
