import Svr32.Stream.Pool
import Svr32.Stream.Links
import Mathlib.Data.List.Induction

/-! What adjmsg trims. The scan for the last block with data ends the loop where the whole message
has one type. -/
namespace Svr32.Stream
open Svr32.Lib
variable {k k' : Pool} {b mp n fuel : Nat} {l r rest post : List Nat} {p : Option Nat} {len : Int}

namespace Pool

/- The bytes of a block. -/
def size (k : Pool) (b : Nat) : Int := (k.mb b).bWptr - (k.mb b).bRptr

/- Where they are: the block, and their addresses. -/
def bytes (k : Pool) (b : Nat) : List (Nat × Int) :=
  (List.range (k.size b).toNat).map fun (i : Nat) => (b, (k.mb b).bRptr + i)

def held (k : Pool) (l : List Nat) : List (Nat × Int) := l.flatMap k.bytes

def total (k : Pool) (l : List Nat) : Int := (l.map k.size).sum

def nonempty (k : Pool) (b : Nat) : Bool := 0 < k.size b

end Pool

/- The pointers into the data of the blocks `l` may have moved, and nothing else has. -/
structure Repointed (l : List Nat) (k k' : Pool) : Prop where
  out : ∀ b ∉ l, k'.mb b = k.mb b
  links : ∀ b, (k'.mb b).bCont = (k.mb b).bCont ∧ (k'.mb b).bNext = (k.mb b).bNext ∧
    (k'.mb b).bPrev = (k.mb b).bPrev ∧ (k'.mb b).bDatap = (k.mb b).bDatap
  rest : k' = { k with mb := k'.mb }

namespace Repointed

theorem refl (l : List Nat) (k : Pool) : Repointed l k k :=
  ⟨fun _ _ => rfl, fun _ => ⟨rfl, rfl, rfl, rfl⟩, rfl⟩

theorem trans {k'' : Pool} (h : Repointed l k k') (h' : Repointed l k' k'') :
    Repointed l k k'' := by
  refine ⟨fun b hb => (h'.out b hb).trans (h.out b hb), fun b => ?_, ?_⟩
  · have h₁ := h.links b
    have h₂ := h'.links b
    exact ⟨h₂.1.trans h₁.1, h₂.2.1.trans h₁.2.1, h₂.2.2.1.trans h₁.2.2.1,
      h₂.2.2.2.trans h₁.2.2.2⟩
  · rw [h'.rest, h.rest]

theorem mono (h : Repointed l k k') (hl : ∀ b ∈ l, b ∈ r) : Repointed r k k' :=
  ⟨fun b hb => h.out b fun hm => hb (hl b hm), h.links, h.rest⟩

theorem cont (h : Repointed l k k') : k'.cont = k.cont := funext fun b => (h.links b).1

theorem nmblock (h : Repointed l k k') : k'.nmblock = k.nmblock := by rw [h.rest]

theorem btype (h : Repointed l k k') : k'.btype = k.btype := by
  funext b
  have hdb : k'.db = k.db := by rw [h.rest]
  simp only [Pool.btype, Pool.view, (h.links b).2.2.2, hdb]

theorem size (h : Repointed l k k') (hb : b ∉ l) : k'.size b = k.size b := by
  rw [Pool.size, Pool.size, h.out b hb]

theorem held (h : Repointed l k k') (hr : ∀ b ∈ r, b ∉ l) : k'.held r = k.held r := by
  refine List.flatMap_congr fun b hb => ?_
  rw [Pool.bytes, Pool.bytes, h.size (hr b hb), h.out b (hr b hb)]

theorem total (h : Repointed l k k') (hr : ∀ b ∈ r, b ∉ l) : k'.total r = k.total r :=
  congrArg List.sum (List.map_congr_left fun b hb => h.size (hr b hb))

theorem msg (h : Repointed l k k') {m : Nat} (hm : Msg k m r) : Msg k' m r := by
  refine hm.congr (fun b _ => ?_) h.nmblock
  have hdb : k'.db = k.db := by rw [h.rest]
  simp only [Pool.view, (h.links b).1, (h.links b).2.2.2, hdb]

end Repointed

theorem setMb_repointed (k : Pool) (b : Nat) (rp wp : Int) :
    Repointed [b] k (k.setMb b { k.mb b with bRptr := rp, bWptr := wp }) := by
  refine ⟨fun x hx => ?_, fun x => ?_, rfl⟩
  · rw [List.mem_singleton] at hx
    simp [Pool.setMb, hx]
  · by_cases hx : x = b <;> simp [Pool.setMb, hx]

theorem cutHead_repointed (k : Pool) (b : Nat) (c : Int) : Repointed [b] k (k.cutHead b c) :=
  setMb_repointed k b _ _

theorem cutTail_repointed (k : Pool) (b : Nat) (c : Int) : Repointed [b] k (k.cutTail b c) :=
  setMb_repointed k b _ _

theorem cutTail_size (k : Pool) (b : Nat) (c : Int) : (k.cutTail b c).size b = k.size b - c := by
  simp only [Pool.cutTail, Pool.size, Pool.setMb, Function.update_self]
  omega

theorem umin_eq {a c : Int} (ha : 0 ≤ a) (hc : 0 ≤ c) (ha' : a < 2 ^ 31) (hc' : c < 2 ^ 31) :
    umin a c = min a c := by
  rw [umin, Int.emod_eq_of_lt ha (by omega), Int.emod_eq_of_lt hc (by omega), Int.min_def]

theorem int32_eq {a : Int} (ha : 0 ≤ a) (ha' : a < 2 ^ 31) : int32 a = a := by
  exact Int.bmod_eq_of_le (by omega) (by omega)

theorem bytes_length (k : Pool) (b : Nat) : (k.bytes b).length = (k.size b).toNat := by
  rw [Pool.bytes, List.length_map, List.length_range]

/- The first bytes of a block are gone. -/
theorem bytes_front {c : Int} (h0 : 0 ≤ c) (hc : c ≤ k.size b) :
    (k.cutHead b c).bytes b = (k.bytes b).drop c.toNat := by
  refine List.ext_getElem? fun i => ?_
  simp only [Pool.cutHead, Pool.bytes, Pool.size, Pool.setMb, Function.update_self, List.getElem?_map,
    List.getElem?_drop]
  rw [Pool.size] at hc
  by_cases hi : i < ((k.mb b).bWptr - ((k.mb b).bRptr + c)).toNat
  · rw [List.getElem?_range hi, List.getElem?_range (by omega)]
    simp only [Option.map_some, Option.some.injEq, Prod.mk.injEq, true_and]
    omega
  · rw [List.getElem?_eq_none (by simpa using hi), List.getElem?_eq_none (by simp; omega)]
    rfl

/- The last bytes of a block are gone. -/
theorem bytes_back {c : Int} (h0 : 0 ≤ c) :
    (k.cutTail b c).bytes b = (k.bytes b).take (k.size b - c).toNat := by
  simp only [Pool.cutTail, Pool.bytes, Pool.size, Pool.setMb, Function.update_self, ← List.map_take,
    List.take_range]
  have hlen : ((k.mb b).bWptr - c - (k.mb b).bRptr).toNat =
      min ((k.mb b).bWptr - (k.mb b).bRptr - c).toNat ((k.mb b).bWptr - (k.mb b).bRptr).toNat := by
    omega
  rw [hlen]

theorem total_cons (k : Pool) (b : Nat) (l : List Nat) :
    k.total (b :: l) = k.size b + k.total l := List.sum_cons

theorem total_nonneg (h : ∀ b ∈ l, 0 ≤ k.size b) : 0 ≤ k.total l := by
  induction l with
  | nil => exact Int.le_refl 0
  | cons b l ih =>
    have hrest := ih fun x hx => h x (List.mem_cons_of_mem b hx)
    have hb := h b List.mem_cons_self
    rw [total_cons]
    omega

theorem held_cons (k : Pool) (b : Nat) (l : List Nat) :
    k.held (b :: l) = k.bytes b ++ k.held l := List.flatMap_cons

theorem held_length (h : ∀ b ∈ l, 0 ≤ k.size b) : ((k.held l).length : Int) = k.total l := by
  induction l with
  | nil => rfl
  | cons b l ih =>
    have hrest := ih fun x hx => h x (List.mem_cons_of_mem b hx)
    have hb := h b List.mem_cons_self
    rw [held_cons, List.length_append, bytes_length, total_cons]
    omega

theorem adjHead_zero (hs : Seg k.cont p l) (hf : l.length ≤ fuel) :
    adjHead fuel p 0 k = some k := by
  cases l with
  | nil =>
    have hp : p = none := hs
    rw [hp, adjHead]
  | cons b l =>
    obtain ⟨m, rfl⟩ := Nat.exists_eq_succ_of_ne_zero (Nat.ne_zero_of_lt hf)
    have hp : p = some b := hs.1
    rw [hp, adjHead, if_pos rfl]

/-- The loop from the head takes the first bytes. -/
theorem adjHead_spec (hs : Seg k.cont p (r ++ rest)) (hnd : (r ++ rest).Nodup)
    (hsz : ∀ b ∈ r, 0 ≤ k.size b) (hbig : k.total r < 2 ^ 31) (h0 : 0 ≤ len)
    (hle : len ≤ k.total r) (hf : (r ++ rest).length ≤ fuel) :
    ∃ k', adjHead fuel p len k = some k' ∧ Repointed r k k' ∧
      k'.held r = (k.held r).drop len.toNat := by
  induction r generalizing k p len fuel with
  | nil =>
    have hlen : len = 0 := Int.le_antisymm hle h0
    rw [hlen]
    exact ⟨k, adjHead_zero hs hf, Repointed.refl _ k, rfl⟩
  | cons b r ih =>
    by_cases hlen : len = 0
    · rw [hlen]
      exact ⟨k, adjHead_zero hs hf, Repointed.refl _ k, rfl⟩
    · obtain ⟨m, rfl⟩ := Nat.exists_eq_succ_of_ne_zero (Nat.ne_zero_of_lt hf)
      have hp : p = some b := hs.1
      obtain ⟨hb, hnd'⟩ := List.nodup_cons.mp hnd
      have hsize := hsz b List.mem_cons_self
      have hrest := total_nonneg fun x hx => hsz x (List.mem_cons_of_mem b hx)
      rw [total_cons] at hbig hle
      have hmin : umin (k.size b) len = min (k.size b) len :=
        umin_eq hsize h0 (by omega) (by omega)
      have hmv := cutHead_repointed k b (min (k.size b) len)
      have hfront := @bytes_front k b (min (k.size b) len) (by omega) (by omega)
      have hturn : adjHead (m + 1) (some b) len k = adjHead m (k.cont b)
          (len - min (k.size b) len) (k.cutHead b (min (k.size b) len)) := by
        rw [adjHead, if_neg hlen]
        change adjHead m (k.cont b) (int32 (len - umin (k.size b) len))
          (k.cutHead b (umin (k.size b) len)) = _
        rw [hmin, int32_eq (by omega) (by omega)]
      generalize k.cutHead b (min (k.size b) len) = k₁ at *
      have hout : ∀ x ∈ r, x ∉ [b] := fun x hx hm =>
        hb (List.mem_singleton.mp hm ▸ List.mem_append_left rest hx)
      obtain ⟨k', hk', hrep, hheld⟩ := @ih k₁ m (k.cont b) (len - min (k.size b) len)
        (by rw [hmv.cont]; exact hs.2) hnd'
        (fun x hx => by rw [hmv.size (hout x hx)]; exact hsz x (List.mem_cons_of_mem b hx))
        (by rw [hmv.total hout]; omega) (by omega) (by rw [hmv.total hout]; omega)
        (Nat.le_of_succ_le_succ hf)
      have hbr : b ∉ r := fun hm => hb (List.mem_append_left rest hm)
      refine ⟨k', hp ▸ hturn.trans hk', (hmv.mono fun x hx => ?_).trans
        (hrep.mono fun x hx => List.mem_cons_of_mem b hx), ?_⟩
      · rw [List.mem_singleton.mp hx]
        exact List.mem_cons_self
      · have hsame : k'.bytes b = k₁.bytes b := by
          rw [Pool.bytes, Pool.bytes, hrep.size hbr, hrep.out b hbr]
        have hlb := bytes_length k b
        rw [held_cons, held_cons, hheld, hmv.held hout, hsame, hfront, List.drop_append]
        congr 1
        · by_cases hc : len ≤ k.size b
          · rw [min_eq_right hc]
          · rw [List.drop_eq_nil_of_le (by omega), List.drop_eq_nil_of_le (by omega)]
        · congr 1
          omega

theorem dbType_of {type : BitVec 8} (hd : ∃ d, (k.mb b).bDatap = some d) (ht : k.btype b = type) :
    ∃ d, (k.mb b).bDatap = some d ∧ (k.db d).dbType = type := by
  obtain ⟨d, hd⟩ := hd
  refine ⟨d, hd, ?_⟩
  rw [← ht]
  simp [Pool.btype, Pool.view, hd]

/-- The scan ends behind the run, with the last of its blocks that has data. -/
theorem adjScan_spec {type : BitVec 8} {save : Option Nat} (hs : Seg k.cont p (r ++ rest))
    (hd : ∀ b ∈ r ++ rest, ∃ d, (k.mb b).bDatap = some d) (hr : ∀ b ∈ r, k.btype b = type)
    (hrest : ∀ b ∈ rest.head?, k.btype b ≠ type) (hf : (r ++ rest).length ≤ fuel) :
    adjScan type fuel p save k =
      some (rest.head?, (r.filter k.nonempty).getLast?.or save) := by
  induction r generalizing p save fuel with
  | nil =>
    cases rest with
    | nil =>
      have hp : p = none := hs
      rw [hp]
      cases fuel <;> rfl
    | cons b rest =>
      obtain ⟨m, rfl⟩ := Nat.exists_eq_succ_of_ne_zero (Nat.ne_zero_of_lt hf)
      have hp : p = some b := hs.1
      obtain ⟨d, hdb, htype⟩ := dbType_of (hd b List.mem_cons_self) rfl
      have hne : (k.db d).dbType ≠ type := htype ▸ hrest b rfl
      simp only [hp, adjScan, hdb, Option.bind_eq_bind, Option.bind_some, if_neg hne]
      rfl
  | cons b r ih =>
    obtain ⟨m, rfl⟩ := Nat.exists_eq_succ_of_ne_zero (Nat.ne_zero_of_lt hf)
    have hp : p = some b := hs.1
    obtain ⟨d, hdb, htype⟩ := dbType_of (hd b List.mem_cons_self) (hr b List.mem_cons_self)
    have hnext := fun save => @ih m (k.cont b) save hs.2
      (fun x hx => hd x (List.mem_cons_of_mem b hx)) (fun x hx => hr x (List.mem_cons_of_mem b hx))
      (Nat.le_of_succ_le_succ hf)
    simp only [hp, adjScan, hdb, Option.bind_eq_bind, Option.bind_some, if_pos htype, hnext]
    by_cases hb : 0 < k.size b
    · have hdata : (k.mb b).bWptr - (k.mb b).bRptr > 0 := hb
      rw [if_pos hdata, List.filter_cons_of_pos (by simpa [Pool.nonempty] using hb),
        List.getLast?_cons]
      cases (r.filter k.nonempty).getLast? <;> rfl
    · have hdata : ¬ (k.mb b).bWptr - (k.mb b).bRptr > 0 := hb
      rw [if_neg hdata, List.filter_cons_of_neg (by simpa [Pool.nonempty] using hb)]

/- A turn of the loop from the tail, on a block that is followed by empty ones. -/
theorem adjTail_turn {type : BitVec 8} {x : Nat} (hm : Msg k mp ((r ++ b :: post) ++ rest))
    (hr : ∀ x ∈ r ++ b :: post, k.btype x = type) (hrest : ∀ x ∈ rest.head?, k.btype x ≠ type)
    (hb : 0 < k.size b) (hpost : ∀ x ∈ post, k.size x = 0) (hbig : k.size b < 2 ^ 31)
    (h0 : 0 < len) (hlen : len < 2 ^ 31) :
    adjTail type mp (fuel + 1) (some x) len k = adjTail type mp fuel rest.head?
      (len - min (k.size b) len) (k.cutTail b (min (k.size b) len)) := by
  have hle := length_le_of_nodup hm.nodup hm.lt
  have hscan := @adjScan_spec k k.nmblock (r ++ b :: post) rest (some mp) type none hm.seg hm.data
    hr hrest hle
  have hfilter : ((r ++ b :: post).filter k.nonempty).getLast? = some b := by
    have hnil : post.filter k.nonempty = [] := by
      refine List.filter_eq_nil_iff.mpr fun x hx => ?_
      simp [Pool.nonempty, hpost x hx]
    rw [List.filter_append, List.filter_cons_of_pos (by simpa [Pool.nonempty] using hb), hnil,
      List.getLast?_concat]
  have hmin := umin_eq (Int.le_of_lt hb) (Int.le_of_lt h0) hbig hlen
  rw [hfilter] at hscan
  rw [adjTail, if_neg (by omega), hscan]
  change adjTail type mp fuel rest.head? (int32 (len - umin (k.size b) len))
    (k.cutTail b (umin (k.size b) len)) = _
  rw [hmin, int32_eq (by omega) (by omega)]

theorem adjTail_zero {type : BitVec 8} : adjTail type mp fuel p 0 k = some k := by
  cases p with
  | none => cases fuel <;> rfl
  | some x => cases fuel <;> rfl

theorem adjTail_none {type : BitVec 8} : adjTail type mp fuel none len k = some k := by
  cases fuel <;> rfl

theorem held_append (k : Pool) (l r : List Nat) : k.held (l ++ r) = k.held l ++ k.held r :=
  List.flatMap_append

theorem total_append (k : Pool) (l r : List Nat) : k.total (l ++ r) = k.total l + k.total r := by
  rw [Pool.total, List.map_append, List.sum_append]
  rfl

/- What a turn from the tail does to the bytes of the run. -/
theorem held_turn {c : Int} (hnd : (r ++ [b]).Nodup) (hsz : ∀ x ∈ r, 0 ≤ k.size x) (h0 : 0 ≤ c)
    (hc : c ≤ k.size b) : (k.cutTail b c).held (r ++ [b]) =
      (k.held (r ++ [b])).take (k.total (r ++ [b]) - c).toNat := by
  have hmv := cutTail_repointed k b c
  have hout : ∀ x ∈ r, x ∉ [b] := fun x hx hm => (List.nodup_append'.mp hnd).2.2 hx hm
  have hlen := held_length hsz
  have hb : k.total [b] = k.size b := by rw [total_cons]; exact Int.add_zero _
  rw [held_append, hmv.held hout, held_append, List.take_append, total_append, hb,
    List.take_of_length_le (by omega), held_cons, held_cons, bytes_back h0, List.take_append]
  congr 2
  · congr 1
    omega
  · simp [Pool.held]

theorem held_empty {q : Pool} (hb : q.size b = 0) : q.held (r ++ [b]) = q.held r := by
  rw [held_append, held_cons, Pool.bytes, hb]
  exact List.append_nil _

/-- The loop from the tail takes the last bytes, where a block of another type follows. -/
theorem adjTail_spec {type : BitVec 8} {x : Nat} (hm : Msg k mp ((r ++ post) ++ rest))
    (hne : rest ≠ []) (hr : ∀ x ∈ r ++ post, k.btype x = type)
    (hrest : ∀ x ∈ rest.head?, k.btype x ≠ type) (hpost : ∀ x ∈ post, k.size x = 0)
    (hsz : ∀ x ∈ r, 0 ≤ k.size x) (hbig : k.total r < 2 ^ 31) (h0 : 0 ≤ len)
    (hle : len ≤ k.total r) (hf : r.length ≤ fuel) :
    ∃ k', adjTail type mp fuel (some x) len k = some k' ∧ Repointed r k k' ∧
      k'.held r = (k.held r).take (k.total r - len).toNat := by
  induction r using List.reverseRecOn generalizing k post len fuel x with
  | nil =>
    have hlen : len = 0 := Int.le_antisymm hle h0
    rw [hlen]
    exact ⟨k, adjTail_zero, Repointed.refl _ k, rfl⟩
  | append_singleton r b ih =>
    have hrun : (r ++ [b]) ++ post = r ++ b :: post := by simp
    have hb := hsz b (by simp)
    have hszr : ∀ y ∈ r, 0 ≤ k.size y := fun y hy => hsz y (List.mem_append_left [b] hy)
    have hr0 := total_nonneg hszr
    have hsum : k.total (r ++ [b]) = k.total r + k.size b := by
      rw [total_append, total_cons]
      exact congrArg _ (Int.add_zero _)
    have hwhole := held_length hsz
    rw [hrun] at hm hr
    rw [List.length_append, List.length_singleton] at hf
    have hnd := (List.nodup_append'.mp hm.nodup).1
    obtain ⟨-, hndb, hdisj⟩ := List.nodup_append'.mp hnd
    have hbr : b ∉ r := fun hbr => hdisj hbr List.mem_cons_self
    have hmono : ∀ {q q' : Pool}, Repointed r q q' → Repointed (r ++ [b]) q q' := fun h =>
      h.mono fun y hy => List.mem_append_left [b] hy
    by_cases hlen : len = 0
    · rw [hlen]
      exact ⟨k, adjTail_zero, Repointed.refl _ k, (List.take_of_length_le (by omega)).symm⟩
    · by_cases hempty : k.size b = 0
      · obtain ⟨k', hk', hrep, hheld⟩ := @ih k fuel (b :: post) len x hm hr hrest
          (List.forall_mem_cons.mpr ⟨hempty, hpost⟩) hszr (by omega) h0 (by omega) (by omega)
        refine ⟨k', hk', hmono hrep, ?_⟩
        rw [held_empty (by rw [hrep.size hbr, hempty]), held_empty hempty, hheld, hsum, hempty,
          Int.add_zero]
      · obtain ⟨m, rfl⟩ : ∃ m, fuel = m + 1 := ⟨fuel - 1, by omega⟩
        obtain ⟨c, rest', rfl⟩ := List.exists_cons_of_ne_nil hne
        have hturn := @adjTail_turn k b mp m r _ post len type x hm hr hrest (by omega) hpost
          (by omega) (by omega) (by omega)
        have hmv := cutTail_repointed k b (min (k.size b) len)
        have hback := @held_turn k b r (min (k.size b) len)
          (List.nodup_append'.mpr ⟨(List.nodup_append'.mp hnd).1, List.nodup_singleton b,
            fun y hy hyb => hbr (List.mem_singleton.mp hyb ▸ hy)⟩) hszr (by omega) (by omega)
        have hleft := cutTail_size k b (min (k.size b) len)
        rw [List.head?_cons] at hturn
        rw [hturn]
        have hmb : Repointed (r ++ [b]) k (k.cutTail b (min (k.size b) len)) :=
          hmv.mono fun y hy => List.mem_append_right r hy
        generalize k.cutTail b (min (k.size b) len) = k₁ at *
        by_cases hc : len < k.size b
        · rw [min_eq_right (Int.le_of_lt hc), Int.sub_self]
          rw [min_eq_right (Int.le_of_lt hc)] at hback
          exact ⟨k₁, adjTail_zero, hmb, hback⟩
        · rw [min_eq_left (by omega)] at hleft hback ⊢
          have hout : ∀ y ∈ r, y ∉ [b] := fun y hy hyb => hbr (List.mem_singleton.mp hyb ▸ hy)
          have hout' : ∀ y ∈ post, y ∉ [b] := fun y hy hyb =>
            (List.nodup_cons.mp hndb).1 (List.mem_singleton.mp hyb ▸ hy)
          obtain ⟨k', hk', hrep, hheld⟩ := @ih k₁ m (b :: post) (len - k.size b) c
            (hmv.msg hm) (by rw [hmv.btype]; exact hr) (by rw [hmv.btype]; exact hrest)
            (List.forall_mem_cons.mpr ⟨by omega, fun y hy => by
              rw [hmv.size (hout' y hy), hpost y hy]⟩)
            (fun y hy => by
              rw [hmv.size (hout y hy)]
              exact hszr y hy)
            (by rw [hmv.total hout]; omega) (by omega) (by rw [hmv.total hout]; omega) (by omega)
          refine ⟨k', hk', hmb.trans (hmono hrep), ?_⟩
          have hlr := held_length hszr
          rw [held_empty (by rw [hrep.size hbr]; omega), hheld, hmv.held hout, hmv.total hout,
            held_append, List.take_append_of_le_length (by omega), hsum]
          congr 2
          omega

namespace Pool

/- The leading run of blocks of the head's type. -/
def leading (k : Pool) (mp : Nat) (l : List Nat) : List Nat :=
  l.takeWhile fun b => k.btype b = k.btype mp

/- The bytes of the last block of a run that has data. -/
def lastData (k : Pool) (r : List Nat) : Int := ((r.filter k.nonempty).getLast?.map k.size).getD 0

end Pool

theorem xmsgsizeLoop_spec {type : BitVec 8} {count : Int} (hs : Seg k.cont p l)
    (hd : ∀ b ∈ l, ∃ d, (k.mb b).bDatap = some d) (hf : l.length ≤ fuel) :
    xmsgsizeLoop type fuel p count k =
      some (count + k.total (l.takeWhile fun b => k.btype b = type)) := by
  induction l generalizing p count fuel with
  | nil =>
    have hp : p = none := hs
    rw [hp]
    cases fuel <;> exact congrArg some (Int.add_zero count).symm
  | cons b l ih =>
    obtain ⟨m, rfl⟩ := Nat.exists_eq_succ_of_ne_zero (Nat.ne_zero_of_lt hf)
    have hp : p = some b := hs.1
    obtain ⟨d, hdb, htype⟩ := dbType_of (hd b List.mem_cons_self) rfl
    simp only [hp, xmsgsizeLoop, hdb, Option.bind_eq_bind, Option.bind_some, htype]
    by_cases hb : k.btype b = type
    · have hnext := @ih m (k.cont b) (count + k.size b) hs.2
        (fun x hx => hd x (List.mem_cons_of_mem b hx)) (Nat.le_of_succ_le_succ hf)
      rw [if_neg (not_not.mpr hb), List.takeWhile_cons_of_pos (by simpa using hb), total_cons,
        ← Int.add_assoc]
      exact hnext
    · rw [if_pos hb, List.takeWhile_cons_of_neg (by simpa using hb)]
      exact congrArg some (Int.add_zero count).symm

theorem xmsgsize_spec (hm : Msg k mp l) : xmsgsize mp k = some (k.total (k.leading mp l)) := by
  obtain ⟨d, hd, htype⟩ := dbType_of (hm.data mp hm.head_mem) rfl
  rw [xmsgsize, hd]
  simp only [Option.bind_eq_bind, Option.bind_some]
  rw [xmsgsizeLoop_spec hm.seg hm.data (length_le_of_nodup hm.nodup hm.lt), htype, Int.zero_add]
  rfl

/- adjmsg does what it should: the bytes are trimmed and nothing else, or nothing is done. -/
def Trims (k : Pool) (mp : Nat) (l : List Nat) (len : Int) : Prop :=
  if len.natAbs ≤ k.total (k.leading mp l) then
    ∃ k', adjmsg mp len k = some (true, k') ∧ Repointed (k.leading mp l) k k' ∧
      k'.held (k.leading mp l) =
        if 0 ≤ len then (k.held (k.leading mp l)).drop len.toNat
        else (k.held (k.leading mp l)).take (k.total (k.leading mp l) + len).toNat
  else adjmsg mp len k = some (false, k)

/- The loop from the tail is left too early, or the length has no negative. -/
def Stops (k : Pool) (mp : Nat) (l : List Nat) (len : Int) : Prop :=
  len = -2 ^ 31 ∨ len < 0 ∧ -len ≤ k.total (k.leading mp l) ∧ k.leading mp l = l ∧
    k.lastData (k.leading mp l) < -len

theorem trims_head (hm : Msg k mp l) (hsz : ∀ b ∈ l, 0 ≤ k.size b)
    (hbig : k.total (k.leading mp l) < 2 ^ 31) (h0 : 0 ≤ len) : Trims k mp l len := by
  have hsplit := List.takeWhile_append_dropWhile (p := fun b => k.btype b = k.btype mp) (l := l)
  have hrun : ∀ b ∈ k.leading mp l, b ∈ l := fun b hb => (List.takeWhile_sublist _).mem hb
  have hlen := length_le_of_nodup hm.nodup hm.lt
  rw [Trims, adjmsg, xmsgsize_spec hm]
  simp only [Option.bind_eq_bind, Option.bind_some, if_pos h0]
  by_cases hle : len ≤ k.total (k.leading mp l)
  · obtain ⟨k', hk', hrep, hheld⟩ := @adjHead_spec k k.nmblock (k.leading mp l)
      (l.dropWhile fun b => k.btype b = k.btype mp) (some mp) len (hsplit.symm ▸ hm.seg)
      (hsplit.symm ▸ hm.nodup) (fun b hb => hsz b (hrun b hb)) hbig h0 hle (hsplit.symm ▸ hlen)
    rw [if_pos (by omega), if_neg (by omega), hk']
    exact ⟨k', rfl, hrep, hheld⟩
  · rw [if_neg (by omega), if_pos (by omega)]

/- The last block with data, and what is behind it. -/
theorem lastData_split (hsz : ∀ b ∈ r, 0 ≤ k.size b) (h : 0 < k.total r) :
    ∃ pre b post, r = pre ++ b :: post ∧ 0 < k.size b ∧ (∀ x ∈ post, k.size x = 0) ∧
      k.lastData r = k.size b := by
  induction r using List.reverseRecOn with
  | nil => exact absurd h (Int.lt_irrefl 0)
  | append_singleton r b ih =>
    have hb := hsz b (by simp)
    have hsum : k.total (r ++ [b]) = k.total r + k.size b := by
      rw [total_append, total_cons]
      exact congrArg _ (Int.add_zero _)
    by_cases hpos : 0 < k.size b
    · refine ⟨r, b, [], rfl, hpos, nofun, ?_⟩
      rw [Pool.lastData, List.filter_append, List.filter_cons_of_pos (by simpa [Pool.nonempty]),
        List.filter_nil, List.getLast?_concat]
      rfl
    · obtain ⟨pre, c, post, rfl, hc, hpost, hlast⟩ :=
        ih (fun x hx => hsz x (List.mem_append_left [b] hx)) (by omega)
      refine ⟨pre, c, post ++ [b], by simp, hc, fun x hx => ?_, ?_⟩
      · rcases List.mem_append.mp hx with hx | hx
        · exact hpost x hx
        · rw [List.mem_singleton.mp hx]
          omega
      · rw [← hlast, Pool.lastData, List.filter_append,
          List.filter_cons_of_neg (by simpa [Pool.nonempty] using hpos), List.filter_nil,
          List.append_nil]
        rfl

theorem leading_type (k : Pool) (mp : Nat) (l : List Nat) : ∀ b ∈ k.leading mp l, k.btype b = k.btype mp :=
  fun b hb => by
    have hall := List.all_takeWhile (p := fun b => decide (k.btype b = k.btype mp)) (l := l)
    exact of_decide_eq_true (List.all_eq_true.mp hall b hb)

/- adjmsg from the tail, where there are enough bytes. -/
theorem adjmsg_tail (hm : Msg k mp l) (hlen : -2 ^ 31 < len) (hneg : len < 0)
    (hle : -len ≤ k.total (k.leading mp l)) : adjmsg mp len k =
      (adjTail (k.btype mp) mp k.nmblock (some mp) (-len) k).map fun k => (true, k) := by
  obtain ⟨d, hd, htype⟩ := dbType_of (hm.data mp hm.head_mem) rfl
  rw [adjmsg, xmsgsize_spec hm]
  simp only [Option.bind_eq_bind, Option.bind_some, if_neg (Int.not_le.mpr hneg), hd, htype]
  rw [int32_eq (by omega) (by omega), if_neg (by omega)]
  cases adjTail (k.btype mp) mp k.nmblock (some mp) (-len) k <;> rfl

/-- From the tail, where another type follows. -/
theorem trims_tail (hm : Msg k mp l) (hsz : ∀ b ∈ l, 0 ≤ k.size b)
    (hbig : k.total (k.leading mp l) < 2 ^ 31) (hlen : -2 ^ 31 < len) (hneg : len < 0)
    (hle : -len ≤ k.total (k.leading mp l)) (hl : k.leading mp l ≠ l) : Trims k mp l len := by
  have hsplit : k.leading mp l ++ l.dropWhile (fun b => k.btype b = k.btype mp) = l :=
    List.takeWhile_append_dropWhile
  have hrun : ∀ b ∈ k.leading mp l, b ∈ l := fun b hb => (List.takeWhile_sublist _).mem hb
  have hother : ∀ b ∈ (l.dropWhile fun b => k.btype b = k.btype mp).head?,
      k.btype b ≠ k.btype mp := fun b hb => by
    have hnot := List.head?_dropWhile_not (fun b => decide (k.btype b = k.btype mp)) l
    rw [Option.mem_def.mp hb] at hnot
    simpa using hnot
  have hne : l.dropWhile (fun b => k.btype b = k.btype mp) ≠ [] := fun he => by
    rw [he, List.append_nil] at hsplit
    exact hl hsplit
  have hmsg : Msg k mp ((k.leading mp l ++ []) ++
      l.dropWhile fun b => k.btype b = k.btype mp) := by
    rw [List.append_nil, hsplit]
    exact hm
  have hfuel : (k.leading mp l).length ≤ k.nmblock :=
    Nat.le_trans (List.takeWhile_sublist _).length_le (length_le_of_nodup hm.nodup hm.lt)
  obtain ⟨k', hk', hrep, hheld⟩ := @adjTail_spec k mp k.nmblock (k.leading mp l) _ [] (-len)
    (k.btype mp) mp hmsg hne (by simpa using leading_type k mp l) hother nofun
    (fun b hb => hsz b (hrun b hb)) hbig (by omega) hle hfuel
  rw [Trims, if_pos (by omega), adjmsg_tail hm hlen hneg hle, hk']
  refine ⟨k', rfl, hrep, ?_⟩
  rw [hheld, if_neg (by omega), Int.sub_neg]

/-- From the tail of a message of one type: only the last block with data is trimmed. -/
theorem trims_whole (hm : Msg k mp l) (hsz : ∀ b ∈ l, 0 ≤ k.size b)
    (hbig : k.total (k.leading mp l) < 2 ^ 31) (hlen : -2 ^ 31 < len) (hneg : len < 0)
    (hle : -len ≤ k.total (k.leading mp l)) (hl : k.leading mp l = l) :
    Trims k mp l len ↔ -len ≤ k.lastData (k.leading mp l) := by
  rw [Trims, if_pos (by omega), adjmsg_tail hm hlen hneg hle]
  have htype := leading_type k mp l
  rw [hl] at hle hbig htype ⊢
  obtain ⟨r, b, post, rfl, hb, hpost, hlast⟩ := lastData_split hsz (by omega)
  have hmsg : Msg k mp ((r ++ b :: post) ++ []) := by rwa [List.append_nil]
  obtain ⟨m, hm'⟩ : ∃ m, k.nmblock = m + 1 := ⟨k.nmblock - 1, by
    have hlt := hm.lt b (by simp)
    omega⟩
  have hsum : k.total (r ++ b :: post) = k.total r + k.size b := by
    have hz : k.total post = 0 := by
      rw [Pool.total, List.map_congr_left hpost]
      simp
    rw [total_append, total_cons, hz, Int.add_zero]
  have hszr : ∀ y ∈ r, 0 ≤ k.size y := fun y hy => hsz y (List.mem_append_left _ hy)
  have hr0 := total_nonneg hszr
  have hturn := @adjTail_turn k b mp m r [] post (-len) (k.btype mp) mp hmsg htype nofun hb hpost
    (by omega) (by omega) (by omega)
  obtain ⟨hndr, hndb, hdisj⟩ := List.nodup_append'.mp hm.nodup
  have hbr : b ∉ r := fun hbr => hdisj hbr List.mem_cons_self
  have hbp := (List.nodup_cons.mp hndb).1
  have hmv := cutTail_repointed k b (min (k.size b) (-len))
  have hnil : ∀ q : Pool, (∀ x ∈ post, q.size x = 0) → q.held (r ++ b :: post) =
      q.held (r ++ [b]) := fun q hq => by
    have hz : q.held post = [] := List.flatMap_eq_nil_iff.mpr fun x hx => by
      rw [Pool.bytes, hq x hx]
      rfl
    rw [held_append, held_append, held_cons, held_cons, hz]
    rfl
  have hback := @held_turn k b r (min (k.size b) (-len))
    (List.nodup_append'.mpr ⟨hndr, List.nodup_singleton b,
      fun y hy hyb => hbr (List.mem_singleton.mp hyb ▸ hy)⟩) hszr (by omega) (by omega)
  have hheld : (k.cutTail b (min (k.size b) (-len))).held (r ++ b :: post) =
      (k.held (r ++ b :: post)).take (k.total (r ++ b :: post) - min (k.size b) (-len)).toNat := by
    have hone : k.total (r ++ [b]) = k.total (r ++ b :: post) := by
      rw [hsum, total_append, total_cons]
      exact congrArg _ (Int.add_zero _)
    rw [hnil k hpost, ← hone, ← hback]
    refine hnil _ fun x hx => ?_
    rw [hmv.size fun hxb => hbp (List.mem_singleton.mp hxb ▸ hx), hpost x hx]
  rw [hlast, hm', hturn, List.head?_nil, adjTail_none, Option.map_some]
  constructor
  · rintro ⟨k', hk', -, heq⟩
    have hlen' := held_length hsz
    cases hk'
    rw [hheld, if_neg (by omega)] at heq
    have hlen₂ := congrArg List.length heq
    rw [List.length_take, List.length_take] at hlen₂
    omega
  · intro hc
    refine ⟨_, rfl, hmv.mono fun y hy => ?_, ?_⟩
    · rw [List.mem_singleton.mp hy]
      simp
    · rw [hheld, if_neg (by omega), min_eq_right hc, Int.sub_neg]

/-- adjmsg trims what it should unless it takes more than the last block with data from the tail
of a message of one type, or is given the least int. -/
theorem adjmsg_iff (hm : Msg k mp l) (hsz : ∀ b ∈ l, 0 ≤ k.size b)
    (hbig : k.total (k.leading mp l) < 2 ^ 31) (hlen : -2 ^ 31 ≤ len) (hlen' : len < 2 ^ 31) :
    Trims k mp l len ↔ ¬ Stops k mp l len := by
  have hrun : ∀ b ∈ k.leading mp l, 0 ≤ k.size b := fun b hb =>
    hsz b ((List.takeWhile_sublist _).mem hb)
  have hpos := total_nonneg hrun
  by_cases h0 : 0 ≤ len
  · have hno : ¬ Stops k mp l len := by
      rintro (h | h) <;> omega
    exact iff_of_true (trims_head hm hsz hbig h0) hno
  · by_cases hmin : len = -2 ^ 31
    · -- the length stays negative, and is no more than the size
      refine iff_of_false (fun ht => ?_) (not_not.mpr (.inl hmin))
      obtain ⟨d, hd, -⟩ := dbType_of (hm.data mp hm.head_mem) rfl
      have hwrap : int32 (-len) = -2 ^ 31 := by rw [hmin]; rfl
      rw [Trims, if_neg (by omega), adjmsg, xmsgsize_spec hm] at ht
      simp only [Option.bind_eq_bind, Option.bind_some, if_neg h0, hwrap, hd] at ht
      rw [if_neg (by omega)] at ht
      obtain ⟨k', -, hk'⟩ := Option.bind_eq_some_iff.mp ht
      cases hk'
    · by_cases hle : -len ≤ k.total (k.leading mp l)
      · by_cases hl : k.leading mp l = l
        · rw [trims_whole hm hsz hbig (by omega) (by omega) hle hl, Stops]
          constructor
          · rintro hc (h | ⟨-, -, -, h⟩) <;> omega
          · intro hno
            by_contra hc
            exact hno (.inr ⟨by omega, hle, hl, by omega⟩)
        · refine iff_of_true (trims_tail hm hsz hbig (by omega) (by omega) hle hl) ?_
          rintro (h | ⟨-, -, h, -⟩)
          · exact hmin h
          · exact hl h
      · have hno : ¬ Stops k mp l len := by
          rintro (h | ⟨-, h, -⟩) <;> omega
        refine iff_of_true ?_ hno
        rw [Trims, if_neg (by omega), adjmsg, xmsgsize_spec hm]
        simp only [Option.bind_eq_bind, Option.bind_some, if_neg h0]
        rw [int32_eq (by omega) (by omega), if_pos (by omega)]

/- A message of two blocks, with two bytes and one. -/
def twoBlocks : Pool where
  mb b := if b = 0 then ⟨none, none, some 1, 0, 2, some 0⟩ else ⟨none, none, none, 8, 9, some 1⟩
  db d := ⟨none, 8 * d, 8 * d + 4, 1, 0, 0⟩
  mbfreelist := none
  dbfreelist _ := none
  dbaCnt _ := 0
  dbaLo _ := 0
  dbaMed _ := 0
  nmblock := 2
  mem _ := 0

theorem twoBlocks_msg : Msg twoBlocks 0 [0, 1] where
  seg := ⟨rfl, rfl, rfl⟩
  data b _ := by
    by_cases hb : b = 0
    · exact ⟨0, by simp [twoBlocks, hb]⟩
    · exact ⟨1, by simp [twoBlocks, hb]⟩
  nodup := by decide
  lt := by decide

theorem adjmsg_iff_two : Trims twoBlocks 0 [0, 1] (-1) ↔ ¬ Stops twoBlocks 0 [0, 1] (-1) :=
  adjmsg_iff twoBlocks_msg (by decide) (by decide) (by decide) (by decide)

/-- Of two bytes that are to go from the tail, only the one of the last block goes. -/
theorem adjmsg_stops : ¬ ∀ k mp l len, Msg k mp l → (∀ b ∈ l, 0 ≤ k.size b) →
    k.total (k.leading mp l) < 2 ^ 31 → -2 ^ 31 ≤ len → len < 2 ^ 31 → Trims k mp l len := by
  intro h
  have ht := h twoBlocks 0 [0, 1] (-2) twoBlocks_msg (by decide) (by decide) (by decide) (by decide)
  have hlast := (trims_whole twoBlocks_msg (by decide) (by decide) (by decide) (by decide)
    (by decide) (by decide)).mp ht
  exact absurd hlast (by decide)

end Svr32.Stream
