import Svr32.Stream.Adjusted
import Svr32.Stream.Pullup

/-! The bytes of a message, and what pullupmsg does to them. -/
namespace Svr32.Stream
open Svr32.Lib
variable {nd : Nat} {k k' : Pool} {b d mp nbp fuel : Nat} {l : List Nat} {p : Option Nat}
  {len n : Int} {t : BitVec 8}

namespace Pool

/- The bytes of a block, and of the blocks of one type in a message. -/
def data (k : Pool) (b : Nat) : List (BitVec 8) :=
  (List.range (k.size b).toNat).map fun (i : Nat) => k.mem ((k.mb b).bRptr + i)

def dataOf (k : Pool) (t : BitVec 8) (l : List Nat) : List (BitVec 8) :=
  (l.filter fun b => k.btype b = t).flatMap k.data

end Pool

/- The buffers of the data blocks, as strinit lays them out. -/
structure Buffers (nd : Nat) (k : Pool) : Prop where
  aligned : ∀ d < nd, (k.db d).dbBase % 4 = 0
  size : ∀ d < nd, (k.db d).dbLim = (k.db d).dbBase + rbsize.getD (k.db d).dbClass 0
  apart : ∀ d < nd, ∀ d' < nd, d ≠ d' →
    (k.db d).dbLim ≤ (k.db d').dbBase ∨ (k.db d').dbLim ≤ (k.db d).dbBase

/- The data of a block is in its buffer. -/
def InBuffer (k : Pool) (b : Nat) : Prop :=
  ∃ d, k.datap b = some d ∧ (k.db d).dbBase ≤ (k.mb b).bRptr ∧ (k.mb b).bRptr ≤ (k.mb b).bWptr ∧
    (k.mb b).bWptr ≤ (k.db d).dbLim

theorem data_length (k : Pool) (b : Nat) : (k.data b).length = (k.size b).toNat := by
  rw [Pool.data, List.length_map, List.length_range]

theorem data_getElem? (k : Pool) (b i : Nat) :
    (k.data b)[i]? = if (i : Int) < k.size b then some (k.mem ((k.mb b).bRptr + i)) else none := by
  rw [Pool.data, List.getElem?_map]
  split
  · rw [List.getElem?_range (by omega)]
    rfl
  · rw [List.getElem?_eq_none (by simp; omega)]
    rfl

theorem dataOf_cons (k : Pool) (t : BitVec 8) (b : Nat) (l : List Nat) :
    k.dataOf t (b :: l) = (if k.btype b = t then k.data b else []) ++ k.dataOf t l := by
  by_cases hb : k.btype b = t <;> simp [Pool.dataOf, hb]

theorem dataOf_congr (hd : ∀ b ∈ l, k'.data b = k.data b) (ht : ∀ b ∈ l, k'.btype b = k.btype b) :
    k'.dataOf t l = k.dataOf t l := by
  induction l with
  | nil => rfl
  | cons b l ih =>
    rw [dataOf_cons, dataOf_cons, hd b (by simp), ht b (by simp),
      ih (fun x hx => hd x (List.mem_cons_of_mem b hx))
        fun x hx => ht x (List.mem_cons_of_mem b hx)]

theorem btype_congr {x y : Nat} (hd : (k'.mb y).bDatap = (k.mb x).bDatap)
    (ht : ∀ d, (k'.db d).dbType = (k.db d).dbType) : k'.btype y = k.btype x := by
  simp only [Pool.btype, Pool.view, hd]
  cases (k.mb x).bDatap with
  | none => rfl
  | some d => exact ht d

theorem data_congr {x y : Nat} (hr : (k'.mb y).bRptr = (k.mb x).bRptr)
    (hw : (k'.mb y).bWptr = (k.mb x).bWptr)
    (hm : ∀ a, (k.mb x).bRptr ≤ a → a < (k.mb x).bWptr → k'.mem a = k.mem a) :
    k'.data y = k.data x := by
  refine List.ext_getElem? fun i => ?_
  rw [data_getElem?, data_getElem?, Pool.size, Pool.size, hr, hw]
  split
  · rw [hm _ (by omega) (by omega)]
  · rfl

theorem pullTurn_mem (nbp bp : Nat) (n : Int) (k : Pool) :
    (pullTurn nbp bp n k).mem = bcopy (k.mb bp).bRptr (k.mb nbp).bWptr n k.mem := rfl

theorem pullTurn_nbp (hne : nbp ≠ b) : (pullTurn nbp b n k).mb nbp =
    { k.mb nbp with bWptr := (k.mb nbp).bWptr + n } := by
  simp [pullTurn, Pool.setMb, hne]

theorem pullTurn_bp (hne : nbp ≠ b) : (pullTurn nbp b n k).mb b =
    { k.mb b with bRptr := (k.mb b).bRptr + n } := by
  simp [pullTurn, Pool.setMb, hne.symm]

theorem size_eq (k : Pool) (b : Nat) : k.size b = (k.mb b).bWptr - (k.mb b).bRptr := rfl

/-- The new block gets the first bytes. -/
theorem pullTurn_new (hne : nbp ≠ b) (h0 : 0 ≤ n) (hn : n ≤ k.size b) (hs : 0 ≤ k.size nbp) :
    (pullTurn nbp b n k).data nbp = k.data nbp ++ (k.data b).take n.toNat := by
  have hsize : (pullTurn nbp b n k).size nbp = k.size nbp + n := by
    rw [size_eq, pullTurn_nbp hne, size_eq]
    simp only
    omega
  have hr : ((pullTurn nbp b n k).mb nbp).bRptr = (k.mb nbp).bRptr := by rw [pullTurn_nbp hne]
  have hw := size_eq k nbp
  refine List.ext_getElem? fun i => ?_
  rw [List.getElem?_append, data_length, data_getElem?, data_getElem?, List.getElem?_take,
    data_getElem?, hsize, hr, pullTurn_mem]
  simp only [bcopy]
  by_cases hi : i < (k.size nbp).toNat
  · have h₁ : (i : Int) < k.size nbp + n := by omega
    have h₂ : (i : Int) < k.size nbp := by omega
    have h₃ : ¬ ((k.mb nbp).bWptr ≤ (k.mb nbp).bRptr + i ∧
        (k.mb nbp).bRptr + i < (k.mb nbp).bWptr + n) := by omega
    rw [if_pos hi, if_pos h₁, if_pos h₂, if_neg h₃]
  · rw [if_neg hi]
    by_cases hi' : i - (k.size nbp).toNat < n.toNat
    · have h₁ : (i : Int) < k.size nbp + n := by omega
      have h₂ : ((i - (k.size nbp).toNat : Nat) : Int) < k.size b := by omega
      have h₃ : (k.mb nbp).bWptr ≤ (k.mb nbp).bRptr + i ∧
          (k.mb nbp).bRptr + i < (k.mb nbp).bWptr + n := by omega
      have h₄ : (k.mb b).bRptr + ((k.mb nbp).bRptr + i - (k.mb nbp).bWptr) =
          (k.mb b).bRptr + (i - (k.size nbp).toNat : Nat) := by omega
      rw [if_pos hi', if_pos h₁, if_pos h₂, if_pos h₃, h₄]
    · have h₁ : ¬ (i : Int) < k.size nbp + n := by omega
      rw [if_neg hi', if_neg h₁]

/-- The old one has them no longer. -/
theorem pullTurn_old (hne : nbp ≠ b) (h0 : 0 ≤ n)
    (hc : (k.mb b).bWptr ≤ (k.mb nbp).bWptr ∨ (k.mb nbp).bWptr + n ≤ (k.mb b).bRptr) :
    (pullTurn nbp b n k).data b = (k.data b).drop n.toNat := by
  have hsize : (pullTurn nbp b n k).size b = k.size b - n := by
    rw [size_eq, pullTurn_bp hne, size_eq]
    simp only
    omega
  have hr : ((pullTurn nbp b n k).mb b).bRptr = (k.mb b).bRptr + n := by rw [pullTurn_bp hne]
  have hw := size_eq k b
  refine List.ext_getElem? fun i => ?_
  rw [List.getElem?_drop, data_getElem?, data_getElem?, hsize, hr, pullTurn_mem]
  simp only [bcopy]
  by_cases hi : (i : Int) < k.size b - n
  · have h₁ : ((n.toNat + i : Nat) : Int) < k.size b := by omega
    have h₂ : ¬ ((k.mb nbp).bWptr ≤ (k.mb b).bRptr + n + i ∧
        (k.mb b).bRptr + n + i < (k.mb nbp).bWptr + n) := by omega
    have h₃ : (k.mb b).bRptr + n + i = (k.mb b).bRptr + (n.toNat + i : Nat) := by omega
    rw [if_pos hi, if_pos h₁, if_neg h₂, h₃]
  · have h₁ : ¬ ((n.toNat + i : Nat) : Int) < k.size b := by omega
    rw [if_neg hi, if_neg h₁]

theorem pullTurn_other {x : Nat} (hx : x ≠ b) (hxn : x ≠ nbp)
    (hc : (k.mb x).bWptr ≤ (k.mb nbp).bWptr ∨ (k.mb nbp).bWptr + n ≤ (k.mb x).bRptr) :
    (pullTurn nbp b n k).data x = k.data x := by
  have hmb := pullTurn_mb (k := k) n hx hxn
  refine data_congr (by rw [hmb]) (by rw [hmb]) fun a h₁ h₂ => ?_
  rw [pullTurn_mem, bcopy, if_neg (by omega)]

theorem freeb_some (h : (k.mb b).bDatap = some d) : ∃ k', freeb b k = some k' := by
  simp only [freeb, h, Option.bind_eq_bind, Option.bind_some]
  exact ⟨_, rfl⟩

/-- freeb does not touch data, nor types. -/
theorem freeb_data (h : freeb b k = some k') : k'.mem = k.mem ∧ (∀ x, x ≠ b → k'.mb x = k.mb x) ∧
    (∀ d, (k'.db d).dbType = (k.db d).dbType) ∧ k'.nmblock = k.nmblock := by
  simp only [freeb, Option.bind_eq_bind, Option.bind_eq_some_iff] at h
  obtain ⟨dp, -, hk⟩ := h
  cases hk
  refine ⟨?_, fun x hx => ?_, fun d => ?_, ?_⟩
  · simp only [mbfree, Pool.setMb, unref]
    split <;> rfl
  · simp only [mbfree, Pool.setMb, Function.update_of_ne hx, (unref_mb dp k).1]
  · simp only [mbfree, Pool.setMb, unref]
    split <;> by_cases hd : d = dp <;> simp [Pool.setDb, hd]
  · simp only [mbfree, Pool.setMb, unref]
    split <;> rfl

/- The loop has moved the first `len` bytes of the blocks `S`, which are of the type `t`, to the end
of `nbp`; the blocks `done` are used up. -/
structure Drained (k : Pool) (S : List Nat) (mp nbp : Nat) (t : BitVec 8) (len : Int)
    (done l : List Nat) (k' : Pool) : Prop where
  split : S = done ++ l
  new : k'.data nbp = k.data nbp ++ (k.dataOf t S).take len.toNat
  size : k'.size nbp = k.size nbp + len
  rest : ∀ t', k'.dataOf t' l =
    if t' = t then (k.dataOf t' S).drop len.toNat else k.dataOf t' S
  out : ∀ x, x ∉ S → x ≠ nbp → k'.mb x = k.mb x
  nbp : (k'.mb nbp).bRptr = (k.mb nbp).bRptr ∧ (k'.mb nbp).bDatap = (k.mb nbp).bDatap
  types : ∀ d, (k'.db d).dbType = (k.db d).dbType
  head : mp ∈ done → (k'.mb mp).bRptr = (k'.mb mp).bWptr

theorem drained_nothing (k : Pool) (S : List Nat) (mp nbp : Nat) (t : BitVec 8) :
    Drained k S mp nbp t 0 [] S k := by
  refine ⟨rfl, ?_, (Int.add_zero _).symm, fun t' => ?_, fun _ _ _ => rfl, ⟨rfl, rfl⟩, fun _ => rfl,
    nofun⟩
  · rw [Int.toNat_zero, List.take_zero, List.append_nil]
  · rw [Int.toNat_zero, List.drop_zero, ite_self]

/-- The loop moves the bytes it is asked for. -/
theorem pullupLoop_data {run rest : List Nat} {hi : Int} (hs : Seg k.cont p (run ++ rest))
    (hnd : (run ++ rest).Nodup) (hn : nbp ∉ run ++ rest) (hf : (run ++ rest).length ≤ fuel)
    (hsz : ∀ b ∈ run ++ rest, 0 ≤ k.size b)
    (hdat : ∀ b ∈ run ++ rest, ∃ d, (k.mb b).bDatap = some d)
    (hclear : ∀ b ∈ run ++ rest, (k.mb b).bWptr ≤ (k.mb nbp).bRptr ∨ hi ≤ (k.mb b).bRptr)
    (hnb : 0 ≤ k.size nbp) (hroom : (k.mb nbp).bWptr + len ≤ hi) (h0 : 0 ≤ len)
    (ht : ∀ b ∈ run, k.btype b = t) (hlen : len ≤ k.total run) :
    ∃ k' done l, pullupLoop mp nbp fuel p len k = some (l.head?, k') ∧
      Drained k (run ++ rest) mp nbp t len done l k' := by
  induction run generalizing k p len fuel with
  | nil =>
    have hz : len = 0 := Int.le_antisymm hlen h0
    subst hz
    refine ⟨k, [], rest, ?_, drained_nothing k rest mp nbp t⟩
    cases rest with
    | nil =>
      have hp : p = none := hs
      rw [hp, pullupLoop]
      rfl
    | cons b rest =>
      obtain ⟨m, rfl⟩ := Nat.exists_eq_succ_of_ne_zero (Nat.ne_zero_of_lt hf)
      have hp : p = some b := hs.1
      rw [hp, pullupLoop, if_pos rfl]
      rfl
  | cons b run ih =>
    obtain ⟨m, rfl⟩ := Nat.exists_eq_succ_of_ne_zero (Nat.ne_zero_of_lt hf)
    have hp : p = some b := hs.1
    subst hp
    by_cases hz : len = 0
    · subst hz
      exact ⟨k, [], b :: run ++ rest, by rw [pullupLoop, if_pos rfl]; rfl,
        drained_nothing k _ mp nbp t⟩
    obtain ⟨hb, hnd'⟩ := List.nodup_cons.mp hnd
    have hbn : nbp ≠ b := fun he => hn (he ▸ List.mem_cons_self)
    have hmem : ∀ x ∈ run ++ rest, x ∈ b :: run ++ rest := fun x hx => List.mem_cons_of_mem b hx
    have hne : ∀ x ∈ run ++ rest, x ≠ b ∧ x ≠ nbp := fun x hx =>
      ⟨fun he => hb (he ▸ hx), fun he => hn (he ▸ hmem x hx)⟩
    have hbs := hsz b List.mem_cons_self
    have hbt := ht b List.mem_cons_self
    rw [total_cons] at hlen
    have hw := size_eq k b
    have hwn := size_eq k nbp
    generalize hmin : min (k.size b) len = c at *
    have hmin' : min ((k.mb b).bWptr - (k.mb b).bRptr) len = c := hmin
    have hmoved := pullTurn_moved nbp b c k
    have hcl : ∀ x ∈ b :: run ++ rest,
        (k.mb x).bWptr ≤ (k.mb nbp).bWptr ∨ (k.mb nbp).bWptr + c ≤ (k.mb x).bRptr := by
      intro x hx
      have h := hclear x hx
      omega
    have hnew := @pullTurn_new k b nbp c hbn (by omega) (by omega) hnb
    have hold := @pullTurn_old k b nbp c hbn (by omega) (hcl b List.mem_cons_self)
    have hother : ∀ x ∈ run ++ rest, (pullTurn nbp b c k).data x = k.data x := fun x hx =>
      pullTurn_other (hne x hx).1 (hne x hx).2 (hcl x (hmem x hx))
    have hbtype : ∀ x, (pullTurn nbp b c k).btype x = k.btype x := fun x =>
      btype_congr (congrFun hmoved.datap x) fun _ => rfl
    have hmbn := pullTurn_nbp (k := k) (n := c) hbn
    have hmbb := pullTurn_bp (k := k) (n := c) hbn
    have hmb : ∀ x, x ≠ b → x ≠ nbp → (pullTurn nbp b c k).mb x = k.mb x :=
      fun x h₁ h₂ => pullTurn_mb c h₁ h₂
    have hdb : (pullTurn nbp b c k).db = k.db := rfl
    have hturn : pullupLoop mp nbp (m + 1) (some b) len k =
        if (k.mb b).bRptr + c ≠ (k.mb b).bWptr then some (some b, pullTurn nbp b c k)
        else if b ≠ mp then (freeb b (pullTurn nbp b c k)).bind
          (pullupLoop mp nbp m ((pullTurn nbp b c k).cont b) (len - c))
        else pullupLoop mp nbp m ((pullTurn nbp b c k).cont b) (len - c) (pullTurn nbp b c k) := by
      simp only [pullupLoop, if_neg hz, hmin']
      rfl
    generalize pullTurn nbp b c k = k₁ at *
    have hlenb := data_length k b
    by_cases hused : (k.mb b).bRptr + c = (k.mb b).bWptr
    · -- the block is used up, and freed unless it is the head
      have hnext : ∃ k₂, pullupLoop mp nbp (m + 1) (some b) len k =
          pullupLoop mp nbp m (k₁.cont b) (len - c) k₂ ∧ k₂.mem = k₁.mem ∧
          (∀ x, x ≠ b → k₂.mb x = k₁.mb x) ∧ (∀ d, (k₂.db d).dbType = (k₁.db d).dbType) ∧
          (b = mp → k₂.mb b = k₁.mb b) := by
        rw [hturn, if_neg (not_not.mpr hused)]
        by_cases hbm : b = mp
        · exact ⟨k₁, if_neg (not_not.mpr hbm), rfl, fun _ _ => rfl, fun _ => rfl, fun _ => rfl⟩
        · obtain ⟨d, hd⟩ := hdat b List.mem_cons_self
          obtain ⟨k₂, hk₂⟩ := freeb_some (k := k₁) (b := b) ((congrFun hmoved.datap b).trans hd)
          obtain ⟨h₁, h₂, h₃, -⟩ := freeb_data hk₂
          exact ⟨k₂, by rw [if_pos hbm, hk₂]; rfl, h₁, h₂, h₃, fun he => absurd he hbm⟩
      obtain ⟨k₂, hrun, hmem₂, hmb₂, hty₂, hhead₂⟩ := hnext
      have hmbx : ∀ x ∈ run ++ rest, k₂.mb x = k.mb x := fun x hx => by
        rw [hmb₂ x (hne x hx).1, hmb x (hne x hx).1 (hne x hx).2]
      have hsize₂ : ∀ x ∈ run ++ rest, k₂.size x = k.size x := fun x hx => by
        rw [size_eq, size_eq, hmbx x hx]
      have hdata₂ : ∀ x ∈ run ++ rest, k₂.data x = k.data x := fun x hx => by
        rw [← hother x hx]
        exact data_congr (by rw [hmb₂ x (hne x hx).1]) (by rw [hmb₂ x (hne x hx).1])
          fun _ _ _ => congrFun hmem₂ _
      have hbt₂ : ∀ x ∈ run ++ rest, k₂.btype x = k.btype x := fun x hx =>
        (btype_congr (by rw [hmb₂ x (hne x hx).1]) hty₂).trans (hbtype x)
      have hdn₂ : k₂.data nbp = k₁.data nbp :=
        data_congr (by rw [hmb₂ nbp hbn]) (by rw [hmb₂ nbp hbn]) fun _ _ _ => congrFun hmem₂ _
      have hnb₂ : k₂.mb nbp = { k.mb nbp with bWptr := (k.mb nbp).bWptr + c } := by
        rw [hmb₂ nbp hbn, hmbn]
      have hsn₂ : k₂.size nbp = k.size nbp + c := by
        rw [size_eq, hnb₂, hwn]
        simp only
        omega
      have htot : k₂.total run = k.total run :=
        congrArg List.sum (List.map_congr_left fun x hx => hsize₂ x (List.mem_append_left rest hx))
      have hseg₂ : Seg k₂.cont (k₁.cont b) (run ++ rest) := by
        rw [hmoved.cont]
        exact hs.2.congr fun x hx => congrArg Mblk.bCont (hmbx x hx)
      obtain ⟨k', done, l, hk', hout⟩ := @ih k₂ m (k₁.cont b) (len - c) hseg₂ hnd'
        (fun hm => hn (hmem nbp hm)) (Nat.le_of_succ_le_succ hf)
        (fun x hx => by rw [hsize₂ x hx]; exact hsz x (hmem x hx))
        (fun x hx => by rw [hmbx x hx]; exact hdat x (hmem x hx))
        (fun x hx => by rw [hmbx x hx, hnb₂]; exact hclear x (hmem x hx))
        (by omega) (by rw [hnb₂]; simp only; omega) (by omega)
        (fun x hx => by
          rw [hbt₂ x (List.mem_append_left rest hx)]
          exact ht x (List.mem_cons_of_mem b hx))
        (by omega)
      have hcongr : ∀ t', k₂.dataOf t' (run ++ rest) = k.dataOf t' (run ++ rest) := fun t' =>
        dataOf_congr hdata₂ hbt₂
      have hcb : c.toNat = (k.data b).length := by omega
      have hcl : (len - c).toNat = len.toNat - (k.data b).length := by omega
      have hle : (k.data b).length ≤ len.toNat := by omega
      have hmb' : ∀ x, x ∉ run ++ rest → x ≠ nbp → k'.mb x = k₂.mb x := hout.out
      refine ⟨k', b :: done, l, hrun.trans hk', congrArg (List.cons b) hout.split, ?_, ?_,
        fun t' => ?_, fun x hx hxn => ?_, ?_, fun d => ?_, fun hm => ?_⟩
      · rw [hout.new, hdn₂, hnew, hcongr, hcb, List.take_length, hcl, List.cons_append, dataOf_cons,
          if_pos hbt, List.take_append, List.take_of_length_le hle, List.append_assoc]
      · rw [hout.size, hsn₂]
        omega
      · rw [hout.rest, hcongr, List.cons_append, dataOf_cons]
        by_cases htt : t' = t
        · rw [if_pos htt, if_pos htt, if_pos (hbt.trans htt.symm), List.drop_append,
            List.drop_of_length_le hle, List.nil_append, hcl]
        · rw [if_neg htt, if_neg htt, if_neg fun he => htt (he.symm.trans hbt), List.nil_append]
      · rw [List.cons_append, List.mem_cons, not_or] at hx
        rw [hmb' x hx.2 hxn, hmb₂ x hx.1, hmb x hx.1 hxn]
      · rw [hout.nbp.1, hout.nbp.2, hnb₂]
        exact ⟨rfl, rfl⟩
      · rw [hout.types, hty₂, hdb]
      · rcases List.mem_cons.mp hm with rfl | hm
        · rw [hmb' mp hb hbn.symm, hhead₂ rfl, hmbb]
          exact hused
        · exact hout.head hm
    · have hc : len.toNat ≤ (k.data b).length := by omega
      have hcl : c = len := by omega
      subst hcl
      refine ⟨k₁, [], b :: run ++ rest, by rw [hturn, if_pos hused]; rfl, rfl, ?_, ?_, fun t' => ?_,
        fun x hx hxn => hmb x (fun he => hx (by simp [he])) hxn, ?_, fun d => by rw [hdb], by rintro ⟨⟩⟩
      · rw [hnew, List.cons_append, dataOf_cons, if_pos hbt, List.take_append_of_le_length hc]
      · rw [size_eq, hmbn, hwn]
        simp only
        omega
      · have hcongr : k₁.dataOf t' (run ++ rest) = k.dataOf t' (run ++ rest) :=
          dataOf_congr hother fun x _ => hbtype x
        rw [List.cons_append, dataOf_cons, dataOf_cons, hbtype b, hcongr, hold]
        by_cases htt : t' = t
        · rw [if_pos htt, if_pos (hbt.trans htt.symm), if_pos (hbt.trans htt.symm),
            List.drop_append_of_le_length hc]
        · rw [if_neg htt, if_neg fun he => htt (he.symm.trans hbt),
            if_neg fun he => htt (he.symm.trans hbt)]
      · rw [hmbn]
        exact ⟨rfl, rfl⟩

/- One block holds in `k'` what another holds in `k`. -/
structure Carries (k : Pool) (x : Nat) (k' : Pool) (y : Nat) : Prop where
  rptr : (k'.mb y).bRptr = (k.mb x).bRptr
  wptr : (k'.mb y).bWptr = (k.mb x).bWptr
  datap : (k'.mb y).bDatap = (k.mb x).bDatap

theorem Carries.data {x y : Nat} (h : Carries k x k' y) (hm : k'.mem = k.mem) :
    k'.data y = k.data x := data_congr h.rptr h.wptr fun _ _ _ => congrFun hm _

theorem Carries.btype {x y : Nat} (h : Carries k x k' y)
    (ht : ∀ d, (k'.db d).dbType = (k.db d).dbType) : k'.btype y = k.btype x :=
  btype_congr h.datap ht

theorem Carries.size {x y : Nat} (h : Carries k x k' y) : k'.size y = k.size x := by
  rw [size_eq, size_eq, h.rptr, h.wptr]

/-- After the blocks have changed places the head holds the new data, and the spare block the old
data of the head if there is any. -/
theorem pullupEnd_data {tmp : Nat} {left : Option Nat} (h : pullupEnd tmp mp nbp left k = some k')
    (htm : tmp ≠ mp) (hnm : nbp ≠ mp) (htn : tmp ≠ nbp) :
    k'.mem = k.mem ∧ k'.nmblock = k.nmblock ∧ (∀ d, (k'.db d).dbType = (k.db d).dbType) ∧
      Carries k nbp k' mp ∧
      ((k.mb mp).bRptr ≠ (k.mb mp).bWptr → Carries k mp k' tmp) ∧
      ∀ x, x ≠ tmp → x ≠ mp → x ≠ nbp → Carries k x k' x := by
  have hmt : (exchange tmp mp nbp k).mb tmp = k.mb mp := by
    simp [exchange, Pool.setMb, htm, htn]
  have hmm : (exchange tmp mp nbp k).mb mp = k.mb nbp := by
    simp [exchange, Pool.setMb, hnm.symm, htn.symm]
  have hmx : ∀ x, x ≠ tmp → x ≠ mp → x ≠ nbp → (exchange tmp mp nbp k).mb x = k.mb x :=
    fun x h₁ h₂ h₃ => by simp [exchange, Pool.setMb, h₁, h₂, h₃]
  have hmem : (exchange tmp mp nbp k).mem = k.mem := rfl
  have hcount : (exchange tmp mp nbp k).nmblock = k.nmblock := rfl
  have hdb : (exchange tmp mp nbp k).db = k.db := rfl
  simp only [pullupEnd, hmt, Option.bind_eq_bind] at h
  generalize exchange tmp mp nbp k = k₁ at *
  split at h
  · next hne =>
    simp only [Option.bind_some] at h
    cases h
    have hc : ∀ x, x ≠ nbp → Carries k₁ x (mbfree nbp (k₁.setCont mp (some tmp))) x := by
      intro x hx
      by_cases hxm : x = mp
      · subst hxm
        constructor <;> simp [mbfree, Pool.setCont, Pool.setMb, hx]
      · constructor <;> simp [mbfree, Pool.setCont, Pool.setMb, hx, hxm]
    refine ⟨hmem, hcount, fun d => congrArg Dblk.dbType (congrFun hdb d), ?_, fun _ => ?_,
      fun x h₁ h₂ h₃ => ?_⟩
    · have h := hc mp hnm.symm
      exact ⟨by rw [h.rptr, hmm], by rw [h.wptr, hmm], by rw [h.datap, hmm]⟩
    · have h := hc tmp htn
      exact ⟨by rw [h.rptr, hmt], by rw [h.wptr, hmt], by rw [h.datap, hmt]⟩
    · have h := hc x h₃
      exact ⟨by rw [h.rptr, hmx x h₁ h₂ h₃], by rw [h.wptr, hmx x h₁ h₂ h₃],
        by rw [h.datap, hmx x h₁ h₂ h₃]⟩
  · next heq =>
    obtain ⟨k₂, hk₂, hk'⟩ := Option.bind_eq_some_iff.mp h
    cases hk'
    obtain ⟨h₁, h₂, h₃, h₄⟩ := freeb_data hk₂
    have hc : ∀ x, x ≠ nbp → x ≠ tmp → Carries k₁ x (mbfree nbp k₂) x := by
      intro x hx hxt
      by_cases hxm : x = mp
      · subst hxm
        constructor <;> simp [mbfree, Pool.setMb, hx, h₂ x hxt, Pool.setCont]
      · constructor <;> simp [mbfree, Pool.setMb, hx, h₂ x hxt, Pool.setCont, hxm]
    refine ⟨h₁.trans hmem, h₄.trans hcount, fun d => (h₃ d).trans (congrArg Dblk.dbType (congrFun hdb d)), ?_,
      fun hne => absurd hne heq, fun x h₁ h₂ h₃ => ?_⟩
    · have h := hc mp hnm.symm htm.symm
      exact ⟨by rw [h.rptr, hmm], by rw [h.wptr, hmm], by rw [h.datap, hmm]⟩
    · have h := hc x h₃ h₁
      exact ⟨by rw [h.rptr, hmx x h₁ h₂ h₃], by rw [h.wptr, hmx x h₁ h₂ h₃],
        by rw [h.datap, hmx x h₁ h₂ h₃]⟩

theorem getclass_le {size : Int} {c : Nat} (h : getclass size ≤ c) (hc : c < nclass) :
    size ≤ rbsize.getD c 0 := by
  have hlt : getclass size < rbsize.length := Nat.lt_of_le_of_lt h hc
  have hfit : size ≤ rbsize.getD (getclass size) 0 := by
    have hfound := @List.findIdx_getElem _ (fun (r : Nat) => decide (size ≤ r)) rbsize hlt
    rw [List.getD_eq_getElem?_getD, List.getElem?_eq_getElem hlt]
    exact of_decide_eq_true hfound
  have hmono : ∀ j < 9, ∀ i ≤ j, rbsize.getD i 0 ≤ rbsize.getD j 0 := by decide
  have hle := hmono c hc _ h
  omega

theorem allocb_some {size : Int} {pri : Nat} (h : allocb size pri k = (some b, k')) :
    ∃ c dp, getclass size ≤ c ∧ c < nclass ∧ k.dbfreelist c = some dp ∧
      gotdp c dp k = (some b, k') := by
  have hroom : ∀ c dp, room c pri k = some dp → k.dbfreelist c = some dp := by
    intro c dp hr
    rw [room] at hr
    split at hr
    · exact hr
    · cases hr
  simp only [allocb] at h
  split at h
  · cases h
  · next hlt =>
    have hlt := Nat.lt_of_not_le hlt
    split at h
    · next dp hr => exact ⟨_, dp, Nat.le_refl _, hlt, hroom _ _ hr, h⟩
    · split at h
      · cases h
      · next hlast =>
        split at h
        · next dp hr =>
          refine ⟨_, dp, Nat.le_succ _, ?_, hroom _ _ hr, h⟩
          simp only [nclass] at hlt hlast ⊢
          omega
        · cases h

/-- The buffer of a new block is free, and large enough. -/
theorem pull_buffer {A B tmp : Nat} {k₀ : Pool} {fl : List Nat} (hacc : Account nd k fl)
    (halloc : allocb len BPRI_MED { k with mbfreelist := k.next tmp } = (some nbp, k₀))
    (hB : k₀.datap nbp = some B) (hA : k.datap mp = some A) (hlt : mp < k.nmblock) :
    B < nd ∧ k.refs B = 0 ∧ len ≤ rbsize.getD (k.db B).dbClass 0 ∧ A ≠ B ∧ k₀.mem = k.mem ∧
      k₀.nmblock = k.nmblock ∧
      k₀.mb = Function.update k.mb nbp ⟨none, none, none, (k.db B).dbBase, (k.db B).dbBase, some B⟩ ∧
      (∀ d, (k₀.db d).dbBase = (k.db d).dbBase) ∧
      ∀ d, d ≠ B → (k₀.db d).dbType = (k.db d).dbType := by
  obtain ⟨c, dp, hcl, hc, hhead, hgot⟩ := allocb_some halloc
  obtain ⟨dfl, hdata⟩ := hacc.data
  have hmem : dp ∈ dfl c := by
    have hs := hdata.fam.seg c
    rw [show k.dbfreelist c = some dp from hhead] at hs
    cases hl : dfl c with
    | nil =>
      rw [hl] at hs
      cases hs
    | cons x rest =>
      rw [hl] at hs
      cases hs.1
      exact List.mem_cons_self
  obtain ⟨hdlt, hclass, href⟩ := (hdata.free c dp).mp hmem
  simp only [gotdp] at hgot
  split at hgot
  · cases hgot
  · simp only [Prod.mk.injEq, Option.some.injEq] at hgot
    obtain ⟨rfl, rfl⟩ := hgot
    have he : dp = B := by simpa [Pool.datap, Pool.setMb, Pool.setDb] using hB
    subst he
    have hAB : A ≠ dp := by
      rintro rfl
      have hpos : 0 < k.refs A := pointing_pos (Finset.mem_range.mpr hlt) hA
      omega
    refine ⟨hdlt, href, ?_, hAB, rfl, rfl, rfl, fun d => ?_, fun d hd => ?_⟩
    · rw [hclass]
      exact getclass_le hcl hc
    · by_cases hd : d = dp <;> simp [Pool.setDb, Pool.setMb, hd]
    · simp [Pool.setDb, Pool.setMb, hd]

/-- Two ends of one list are the same when they begin with the same element. -/
theorem suffix_eq {a a' r r' : List Nat} (h : a ++ r = a' ++ r') (hnd : (a ++ r).Nodup)
    (hh : r.head? = r'.head?) : r = r' := by
  have hside : ∀ {a r c r' : List Nat}, (a ++ (c ++ r')).Nodup → (c ++ r').head? = r'.head? →
      c ++ r' = r' := by
    intro a r c r' hnd hh
    cases c with
    | nil => rfl
    | cons x c =>
      have hx : x ∈ r' := List.mem_of_mem_head? (hh.symm.trans rfl)
      have hno := (List.nodup_cons.mp (List.nodup_append'.mp hnd).2.1).1
      exact absurd (List.mem_append_right c hx) hno
  rcases List.append_eq_append_iff.mp h with ⟨c, rfl, rfl⟩ | ⟨c, rfl, rfl⟩
  · exact hside (r := r') hnd hh
  · rw [h] at hnd
    exact (hside (r := r) hnd hh.symm).symm

theorem btype_some {x e : Nat} (h : (k.mb x).bDatap = some e) : k.btype x = (k.db e).dbType := by
  simp only [Pool.btype, Pool.view, h]
  rfl

/- A pull before its loop: the new block is empty, in a buffer apart from those of the message. -/
structure Begun (k : Pool) (mp nbp : Nat) (S : List Nat) (len lo hi : Int) (k₁ : Pool) : Prop where
  mem : k₁.mem = k.mem
  count : k₁.nmblock = k.nmblock
  mb : ∀ x ∈ S, k₁.mb x = k.mb x
  types : ∀ x ∈ S, k₁.btype x = k.btype x
  rptr : (k₁.mb nbp).bRptr = lo
  wptr : (k₁.mb nbp).bWptr = lo
  type : k₁.btype nbp = k.btype mp
  clear : ∀ x ∈ S, (k.mb x).bWptr ≤ lo ∨ hi ≤ (k.mb x).bRptr
  fits : lo + len ≤ hi
  aligned : lo % 4 = 0

theorem Pull.begun {fl suf done new : List Nat} {ms : List (List Nat)} {tmp A B : Nat}
    {k₀ k₁ k₂ : Pool} {left : Option Nat}
    (h : Pull k mp suf len tmp nbp A B k₀ k₁ k₂ left done l new k') (hacc : Account nd k fl)
    (hm : Msgs k fl ((mp :: suf) :: ms)) (hbuf : Buffers nd k)
    (hin : ∀ b ∈ mp :: suf, InBuffer k b) :
    Begun k mp nbp (mp :: suf) len (k.db B).dbBase (k.db B).dbLim k₁ := by
  have hlt : ∀ x ∈ mp :: suf, x < k.nmblock :=
    fun x hx => ((hm.cover x).mp (List.mem_append_left _ hx)).1
  obtain ⟨hBlt, hBref, hBsize, hAB, hmem₀, hnm₀, hmb₀, -, hty₀⟩ := pull_buffer hacc h.alloc h.datap
    h.head (hlt mp List.mem_cons_self)
  have hout : ∀ x ∈ mp :: suf, ∀ d, k.datap x = some d → d < nd ∧ d ≠ B := by
    intro x hx d hd
    refine ⟨hacc.inside x (hlt x hx) d hd, ?_⟩
    rintro rfl
    have hpos : 0 < k.refs d := pointing_pos (Finset.mem_range.mpr (hlt x hx)) hd
    omega
  have hmb : ∀ x, k₁.mb x = k₀.mb x := fun x => by rw [h.start]; rfl
  have hsame : ∀ x ∈ mp :: suf, k₁.mb x = k.mb x := fun x hx => by
    rw [hmb, hmb₀, Function.update_of_ne (h.out x hx).2]
  have hnew : k₁.mb nbp = ⟨none, none, none, (k.db B).dbBase, (k.db B).dbBase, some B⟩ := by
    rw [hmb, hmb₀, Function.update_self]
  have htypes : ∀ d, d ≠ B → (k₁.db d).dbType = (k.db d).dbType := fun d hd => by
    rw [h.start, ← hty₀ d hd]
    simp [Pool.setDb, hd]
  refine ⟨?_, ?_, hsame, fun x hx => ?_, by rw [hnew], by rw [hnew], ?_, fun x hx => ?_, ?_,
    hbuf.aligned B hBlt⟩
  · rw [h.start]
    exact hmem₀
  · rw [h.start]
    exact hnm₀
  · obtain ⟨d, hd⟩ := hm.data x (List.mem_append_left _ hx)
    have hd₁ : (k₁.mb x).bDatap = some d := (congrArg Mblk.bDatap (hsame x hx)).trans hd
    rw [btype_some hd₁, btype_some hd, htypes d (hout x hx d hd).2]
  · have hd₁ : (k₁.mb nbp).bDatap = some B := by rw [hnew]
    rw [btype_some hd₁, btype_some h.head, h.start, ← hty₀ A hAB]
    simp [Pool.setDb]
  · obtain ⟨d, hd, h₁, h₂, h₃⟩ := hin x hx
    obtain ⟨hdlt, hdB⟩ := hout x hx d hd
    rcases hbuf.apart d hdlt B hBlt hdB with ha | ha
    · exact .inl (by omega)
    · exact .inr (by omega)
  · have hs := hbuf.size B hBlt
    omega

/-- A pull leaves the bytes of each type as they were, the first `len` of them in a new block. -/
theorem Pull.data {fl suf done new : List Nat} {ms : List (List Nat)} {tmp A B : Nat}
    {k₀ k₁ k₂ : Pool} {left : Option Nat}
    (h : Pull k mp suf len tmp nbp A B k₀ k₁ k₂ left done l new k') (hacc : Account nd k fl)
    (hm : Msgs k fl ((mp :: suf) :: ms)) (hbuf : Buffers nd k)
    (hin : ∀ b ∈ mp :: suf, InBuffer k b) (h0 : 0 ≤ len)
    (hlen : len ≤ k.total (k.leading mp (mp :: suf))) :
    (∀ t, k'.dataOf t (mp :: new) = k.dataOf t (mp :: suf)) ∧ (k'.mb mp).bRptr % 4 = 0 ∧
      k'.btype mp = k.btype mp ∧ k'.size mp = len ∧ k'.nmblock = k.nmblock := by
  have hnd : (mp :: suf).Nodup := hm.nodup.sublist (List.sublist_append_left _ _)
  have hb := h.begun hacc hm hbuf hin
  have htm := (h.out mp List.mem_cons_self).1.symm
  have hnm := (h.out mp List.mem_cons_self).2.symm
  have hsplit : k.leading mp (mp :: suf) ++
      (mp :: suf).dropWhile (fun b => k.btype b = k.btype mp) = mp :: suf :=
    List.takeWhile_append_dropWhile
  have hsz : ∀ b ∈ mp :: suf, k₁.size b = k.size b := fun b hx => by
    rw [size_eq, size_eq, hb.mb b hx]
  have hdata₁ : ∀ t, k₁.dataOf t (mp :: suf) = k.dataOf t (mp :: suf) := fun t =>
    dataOf_congr (fun x hx => data_congr (by rw [hb.mb x hx]) (by rw [hb.mb x hx])
      fun _ _ _ => congrFun hb.mem _) hb.types
  have hsize₀ : k₁.size nbp = 0 := by
    rw [size_eq, hb.rptr, hb.wptr]
    omega
  have hnew₀ : k₁.data nbp = [] := by
    rw [Pool.data, hsize₀]
    rfl
  have hseg : Seg k₁.cont (some mp) (mp :: suf) :=
    (hm.seg (mp :: suf) List.mem_cons_self).congr fun x hx => congrArg Mblk.bCont (hb.mb x hx)
  have hlead : ∀ b ∈ k.leading mp (mp :: suf), b ∈ mp :: suf := fun b hx =>
    (List.takeWhile_sublist _).subset hx
  have htot : k₁.total (k.leading mp (mp :: suf)) = k.total (k.leading mp (mp :: suf)) :=
    congrArg List.sum (List.map_congr_left fun b hx => hsz b (hlead b hx))
  obtain ⟨k₃, done', l', hloop, hd⟩ := @pullupLoop_data k₁ mp nbp k₁.nmblock _ len
    (k.btype mp) _ _ (k.db B).dbLim
    (by rw [hsplit]; exact hseg) (by rw [hsplit]; exact hnd)
    (by rw [hsplit]; exact fun hx => (h.out nbp hx).2 rfl)
    (by rw [hsplit, hb.count]; exact hm.length_le List.mem_cons_self)
    (fun b hx => by
      rw [hsplit] at hx
      obtain ⟨d, -, -, h₂, -⟩ := hin b hx
      rw [hsz b hx, size_eq]
      omega)
    (fun b hx => by
      rw [hsplit] at hx
      rw [hb.mb b hx]
      exact hm.data b (List.mem_append_left _ hx))
    (fun b hx => by
      rw [hsplit] at hx
      rw [hb.mb b hx, hb.rptr]
      exact hb.clear b hx)
    (by rw [hsize₀]) (by rw [hb.wptr]; exact hb.fits) h0
    (fun b hx => by
      rw [hb.types b (hlead b hx)]
      exact leading_type k mp _ b hx)
    (by rw [htot]; exact hlen)
  rw [h.loop] at hloop
  cases hloop
  rw [hsplit] at hd
  obtain ⟨hmem, hcount, hty, hcm, hct, hcx⟩ := pullupEnd_data h.finish htm hnm h.apart
  have hsuf : ∀ x ∈ suf, Carries k₂ x k' x := fun x hx =>
    hcx x (h.out x (List.mem_cons_of_mem mp hx)).1
      (fun he => (List.nodup_cons.mp hnd).1 (he ▸ hx)) (h.out x (List.mem_cons_of_mem mp hx)).2
  have hbt : k'.btype mp = k.btype mp := by
    rw [hcm.btype hty, btype_congr hd.nbp.2 hd.types, hb.type]
  have hrest : ∀ t, k'.dataOf t new = k₂.dataOf t l' := by
    intro t
    rcases h.stop with ⟨hne, hdone, hnew⟩ | ⟨heq, hleft, hnew⟩
    · have hl : l = suf := by rw [h.tail, hdone, List.nil_append]
      have hl' : l' = mp :: suf := by
        cases done' with
        | nil => exact hd.split.symm
        | cons x r =>
          have hx : mp = x := (List.cons.inj hd.split).1
          exact absurd (hd.head (hx ▸ List.mem_cons_self)) hne
      have hc := hct hne
      rw [hnew, hl, hl', dataOf_cons, dataOf_cons, hc.data hmem, hc.btype hty,
        dataOf_congr (fun x hx => (hsuf x hx).data hmem) fun x hx => (hsuf x hx).btype hty]
    · have hl : l = l' :=
        suffix_eq (a := mp :: done) (by rw [List.cons_append, ← h.tail]; exact hd.split)
          (by rw [List.cons_append, ← h.tail]; exact hnd) hleft.symm
      have hin' : ∀ x ∈ l, x ∈ suf := fun x hx => by
        rw [h.tail]
        exact List.mem_append_right _ hx
      rw [hnew, ← hl]
      exact dataOf_congr (fun x hx => (hsuf x (hin' x hx)).data hmem)
        fun x hx => (hsuf x (hin' x hx)).btype hty
  refine ⟨fun t => ?_, ?_, hbt, ?_, hcount.trans h.count⟩
  · rw [dataOf_cons, hrest, hd.rest, hcm.data hmem, hd.new, hnew₀, hbt, hdata₁, hdata₁,
      List.nil_append]
    by_cases ht : t = k.btype mp
    · rw [if_pos ht.symm, if_pos ht, ht, List.take_append_drop]
    · rw [if_neg (Ne.symm ht), if_neg ht, List.nil_append]
  · rw [hcm.rptr, hd.nbp.1, hb.rptr]
    exact hb.aligned
  · rw [hcm.size, hd.size, hsize₀, Int.zero_add]

end Svr32.Stream
