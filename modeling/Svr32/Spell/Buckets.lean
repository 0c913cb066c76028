import Svr32.Spell.Spellin

/-! The buckets of the table: the index says where each begins, in the order of its codes. -/
namespace Svr32.Spell
open Svr32.Lib
variable {f : Huff} {nd m : Nat} {s s' : Spellin} {acc : Nat → List Int} {a b : Nat} {xs : List Int}
  {tab tab' : Nat → BitVec 32}

/- The codes of `xs` are in the bits from `a` on, with nothing but zeros behind them up to `b`. -/
structure Bucket (f : Huff) (tab : Nat → BitVec 32) (a b : Nat) (xs : List Int) : Prop where
  reads : ∃ e, Reads f tab a xs e ∧ e ≤ b ∧ ∀ j, e ≤ j → j < b → bitAt tab j = false
  empty : xs = [] → a = b

theorem Bucket.congr (h : Bucket f tab a b xs) (hs : ∀ j < b, bitAt tab' j = bitAt tab j) :
    Bucket f tab' a b xs := by
  obtain ⟨e, hr, hle, hz⟩ := h.reads
  refine ⟨⟨e, hr.congr fun j _ hj => hs j (by omega), hle, fun j h₁ h₂ => ?_⟩, h.empty⟩
  rw [hs j h₂, hz j h₁ h₂]

theorem Reads.nil_eq (h : Reads f tab a [] b) : a = b := by
  cases h
  rfl

theorem bucket_nil (f : Huff) (tab : Nat → BitVec 32) (a : Nat) : Bucket f tab a a [] :=
  ⟨⟨a, .nil, le_rfl, fun j h₁ h₂ => by omega⟩, fun _ => rfl⟩

/- The first number of a bucket. -/
def base (t : Nat) : Int := (t * 2 ^ 18 : Nat)

/- The buckets up to the one that is being written; `acc t` are the differences in bucket `t`. -/
structure Holds (f : Huff) (s : Spellin) (acc : Nat → List Int) : Prop where
  clear : s.Clear
  mono : ∀ t ≤ s.u, 32 * s.index t ≤ s.pos
  done : ∀ t < s.u, Bucket f s.table (32 * s.index t) (32 * s.index (t + 1)) (acc t)
  last : Reads f s.table (32 * s.index s.u) (acc s.u) s.pos
  later : ∀ t, s.u < t → acc t = []
  nonneg : ∀ t, ∀ x ∈ acc t, 0 ≤ x
  below : ∀ t, (acc t).sum < 2 ^ 18
  total : s.k = base s.u + (acc s.u).sum

theorem fillIndex_spec (m : Nat) (s : Spellin) : fillIndex m s = { s with
    u := s.u + m, index := fun j => if s.u < j ∧ j ≤ s.u + m then s.wp else s.index j } := by
  induction m generalizing s with
  | zero =>
    have hnone : (fun j => if s.u < j ∧ j ≤ s.u + 0 then s.wp else s.index j) = s.index := by
      funext j
      rw [if_neg (by omega)]
    rw [fillIndex, hnone]
    rfl
  | succ m ih =>
    rw [fillIndex, ih]
    congr 1
    · funext j
      simp only [Function.update_apply]
      by_cases h₁ : j = s.u + 1
      · subst h₁
        have hno : ¬ (s.u + 1 < s.u + 1 ∧ s.u + 1 ≤ s.u + 1 + m) := by omega
        have hyes : s.u < s.u + 1 ∧ s.u + 1 ≤ s.u + (m + 1) := by omega
        rw [if_neg hno, if_pos rfl, if_pos hyes]
      · have hiff : (s.u + 1 < j ∧ j ≤ s.u + 1 + m) ↔ s.u < j ∧ j ≤ s.u + (m + 1) := by omega
        simp only [hiff, if_neg h₁]
    · show s.u + 1 + m = s.u + (m + 1)
      omega

theorem flush_wp (s : Spellin) : (flush s).wp = if s.bp ≠ 32 then s.wp + 1 else s.wp := by
  rw [flush]
  split <;> rfl

theorem flush_pos (h : s.Clear) : s.pos ≤ 32 * (flush s).wp ∧
    (s.pos % 32 = 0 → s.pos = 32 * (flush s).wp) := by
  have h₁ := h.pos
  have h₂ := h.le
  rw [flush_wp, Spellin.pos]
  split <;> omega

/-- When the next bucket is begun, or the end is reached, the buckets before it are complete. -/
theorem Holds.closed (h : Holds f s acc) {idx : Nat → Nat}
    (hidx : idx = fun j => if s.u < j ∧ j ≤ s.u + m then (flush s).wp else s.index j) :
    ∀ t < s.u + m, Bucket f s.table (32 * idx t) (32 * idx (t + 1)) (acc t) := by
  intro t ht
  obtain ⟨hle, heq⟩ := flush_pos h.clear
  subst hidx
  simp only
  by_cases h₁ : t < s.u
  · have hno : ¬ (s.u < t ∧ t ≤ s.u + m) := by omega
    have hno' : ¬ (s.u < t + 1 ∧ t + 1 ≤ s.u + m) := by omega
    rw [if_neg hno, if_neg hno']
    exact h.done t h₁
  · have hyes : s.u < t + 1 ∧ t + 1 ≤ s.u + m := by omega
    rw [if_pos hyes]
    by_cases h₂ : t = s.u
    · subst h₂
      have hno : ¬ (s.u < s.u ∧ s.u ≤ s.u + m) := by omega
      rw [if_neg hno]
      refine ⟨⟨s.pos, h.last, hle, fun j hj _ => h.clear.zero j hj⟩, fun hnil => ?_⟩
      have hlast := h.last
      rw [hnil] at hlast
      rw [hlast.nil_eq]
      refine heq ?_
      rw [← hlast.nil_eq]
      omega
    · have hyes' : s.u < t ∧ t ≤ s.u + m := by omega
      rw [if_pos hyes', h.later t (by omega)]
      exact bucket_nil f s.table _

theorem enter_eq {t : Nat} (h : s.u < t) : enter t s = { s with
    wp := (flush s).wp, bp := 32, u := t, k := base t
    index := fun j => if s.u < j ∧ j ≤ t then (flush s).wp else s.index j } := by
  have hu : (flush s).u = s.u := by
    rw [flush]
    split <;> rfl
  have hne : t ≠ s.u := by omega
  have ht : s.u + (t - s.u) = t := by omega
  have hk : ((t <<< (HASHWIDTH - INDEXWIDTH) : Nat) : Int) = base t :=
    congrArg Nat.cast (Nat.shiftLeft_eq t 18)
  rw [enter, if_pos hne]
  simp only [fillIndex_spec, hu, ht, hk]
  rw [flush]
  split <;> rfl

theorem enter_same {t : Nat} (ht : s.u ≤ t) : (enter t s).u = t ∧ (enter t s).ignore = s.ignore ∧
    (enter t s).k = if t = s.u then s.k else base t := by
  rcases ht.eq_or_lt with he | hlt
  · have hsame : enter t s = s := if_neg (not_not.mpr he.symm)
    rw [hsame]
    exact ⟨he, rfl, (if_pos he.symm).symm⟩
  · have hne : ¬ t = s.u := by omega
    rw [enter_eq hlt, if_neg hne]
    exact ⟨rfl, rfl, rfl⟩

/-- A new bucket is begun. -/
theorem Holds.enter (h : Holds f s acc) {t : Nat} (ht : s.u ≤ t) : Holds f (enter t s) acc := by
  rcases ht.eq_or_lt with he | hlt
  · have hsame : Spell.enter t s = s := if_neg (not_not.mpr he.symm)
    rw [hsame]
    exact h
  · obtain ⟨m, rfl⟩ := Nat.exists_eq_add_of_lt hlt
    have hle := (flush_pos h.clear).1
    rw [enter_eq hlt]
    have hpos : ∀ idx, Spellin.pos ⟨s.table, idx, (flush s).wp, 32, s.ignore, s.extra, s.u + m + 1,
        base (s.u + m + 1)⟩ = 32 * (flush s).wp := fun idx => rfl
    refine ⟨⟨Nat.le_add_left 1 31, Nat.le_refl 32, fun j hj => ?_⟩, fun i hi => ?_, ?_, ?_,
      fun i hi => ?_, h.nonneg, h.below, ?_⟩
    · rw [hpos] at hj
      exact h.clear.zero j (hle.trans hj)
    · rw [hpos]
      simp only
      split
      · exact le_rfl
      · next hno =>
        have hi' : i ≤ s.u + m + 1 := hi
        exact (h.mono i (by omega)).trans hle
    · exact h.closed (m := m + 1) rfl
    · rw [h.later _ hlt, hpos]
      have hyes : s.u < s.u + m + 1 ∧ s.u + m + 1 ≤ s.u + m + 1 := by omega
      simp only [if_pos hyes]
      exact .nil
    · exact h.later i (by
        have hi' : s.u + m + 1 < i := hi
        omega)
    · rw [h.later _ hlt]
      exact (Int.add_zero _).symm

/- Where the difference of a code is taken from: the code before it, or the begin of its bucket. -/
def origin (k h : Nat) : Int := if h >>> 18 = k >>> 18 then k else base (h >>> 18)

/- What is stored of a code behind the code `k`. -/
def stored (f : Huff) (k h : Nat) : List Int :=
  sums (origin k h) (pieces f ((h - origin k h).toNat + 1) (h - origin k h))

/- The sums on the way to the codes, where a difference is too long to encode. -/
def between (f : Huff) : Nat → List Nat → List Int
  | _, [] => []
  | k, h :: hs => (stored f k h).dropLast ++ between f h hs

/- The sums that a lookup can find. -/
def Found (acc : Nat → List Int) (y : Int) : Prop := ∃ t, y ∈ sums (base t) (acc t)

theorem base_le (h : Nat) : base (h >>> 18) ≤ h ∧ (h : Int) < base (h >>> 18) + 2 ^ 18 := by
  rw [base, Nat.shiftRight_eq_div_pow]
  omega

theorem origin_le {k h : Nat} (hle : k ≤ h) : base (h >>> 18) ≤ origin k h ∧ origin k h ≤ h := by
  have hb := base_le h
  have hb' := base_le k
  rw [origin]
  split
  · next he =>
    rw [he]
    omega
  · exact ⟨le_rfl, hb.1⟩

/-- More differences go to the bucket that is being written. -/
theorem Holds.more (h : Holds f s acc) (hside : Spellin.Aside { s with k := m } s')
    (hclear : s'.Clear) (hreads : Reads f s'.table s.pos xs s'.pos)
    (hbits : ∀ j < s.pos, bitAt s'.table j = bitAt s.table j) (hxs : ∀ x ∈ xs, 0 ≤ x)
    (hsum : s.k + xs.sum = m) (hm : (m : Int) < base s.u + 2 ^ 18) :
    Holds f s' (Function.update acc s.u (acc s.u ++ xs)) ∧
      ∀ y, Found (Function.update acc s.u (acc s.u ++ xs)) y ↔ Found acc y ∨ y ∈ sums s.k xs := by
  have hle := hreads.le
  have hindex : s'.index = s.index := hside.index
  have hu : s'.u = s.u := hside.u
  have hk : s'.k = m := hside.k
  have htotal := h.total
  have hnew : (acc s.u ++ xs).sum = m - base s.u := by
    rw [List.sum_append]
    omega
  refine ⟨⟨hclear, fun i hi => ?_, fun i hi => ?_, ?_, fun i hi => ?_, fun i x hx => ?_, fun i => ?_,
    ?_⟩, fun y => ⟨?_, ?_⟩⟩
  · rw [hindex]
    exact (h.mono i (hu ▸ hi)).trans hle
  · rw [hu] at hi
    rw [hindex, Function.update_of_ne (by omega)]
    exact (h.done i hi).congr fun j hj => hbits j (hj.trans_le (h.mono (i + 1) hi))
  · rw [hindex, hu, Function.update_self]
    exact (h.last.congr fun j _ hj => hbits j hj).append hreads
  · rw [hu] at hi
    rw [Function.update_of_ne (by omega)]
    exact h.later i hi
  · by_cases hi : i = s.u
    · subst hi
      rw [Function.update_self, List.mem_append] at hx
      exact hx.elim (h.nonneg _ x) (hxs x)
    · rw [Function.update_of_ne hi] at hx
      exact h.nonneg i x hx
  · by_cases hi : i = s.u
    · rw [hi, Function.update_self, hnew]
      omega
    · rw [Function.update_of_ne hi]
      exact h.below i
  · rw [hk, hu, Function.update_self, hnew]
    omega
  · rintro ⟨i, hi⟩
    by_cases he : i = s.u
    · subst he
      rw [Function.update_self, sums_append, ← htotal, List.mem_append] at hi
      exact hi.imp_left fun hy => ⟨_, hy⟩
    · rw [Function.update_of_ne he] at hi
      exact .inl ⟨i, hi⟩
  · have hin : ∀ y, y ∈ sums (base s.u) (acc s.u) ∨ y ∈ sums s.k xs →
        Found (Function.update acc s.u (acc s.u ++ xs)) y := fun y hy =>
      ⟨s.u, by rwa [Function.update_self, sums_append, ← htotal, List.mem_append]⟩
    rintro (⟨i, hi⟩ | hy)
    · by_cases he : i = s.u
      · exact hin y (.inl (he ▸ hi))
      · exact ⟨i, by rwa [Function.update_of_ne he]⟩
    · exact hin y (.inr hy)

/-- A code is put into its bucket. -/
theorem place_spec (hf : Good f) {k h : Nat} (hk : s.k = k) (hu : s.u = k >>> 18) (hle : k ≤ h)
    (hlt : h < 2 ^ 27) : ∃ s', place f nd s h = some s' ∧ s.ignore ≤ s'.ignore ∧ s'.k = h ∧
      s'.u = h >>> 18 ∧ (Holds f s acc → s'.ignore = s.ignore → ∃ acc', Holds f s' acc' ∧
        ∀ y, Found acc' y ↔ Found acc y ∨ y ∈ stored f k h) := by
  have hut : s.u ≤ h >>> 18 := by
    rw [hu, Nat.shiftRight_eq_div_pow, Nat.shiftRight_eq_div_pow]
    exact Nat.div_le_div_right hle
  obtain ⟨hu₁, hig₁, hk₁⟩ := enter_same hut
  have hk₂ : (enter (h >>> 18) s).k = origin k h := by
    rw [hk₁, origin, hu, hk]
  obtain ⟨hb₁, hb₂⟩ := origin_le hle
  have hpos : 0 ≤ base (h >>> 18) := Int.natCast_nonneg _
  obtain ⟨s', hs', hig, hside⟩ := @putLoop_some f nd (((h : Int) - origin k h).toNat + 1)
    { enter (h >>> 18) s with k := h } (h - origin k h) hf (by omega) (by omega) (by omega)
  refine ⟨s', ?_, hig₁ ▸ hig, hside.k, hside.u.trans hu₁, fun hH hsame => ?_⟩
  · show putLoop f nd _ _ _ = some s'
    rw [show HASHWIDTH - INDEXWIDTH = 18 from rfl, hk₂]
    exact hs'
  · have hE := hH.enter hut
    obtain ⟨hclear, hreads, hbits⟩ := putLoop_spec (s := { enter (h >>> 18) s with k := h }) hf
      ⟨hE.clear.pos, hE.clear.le, hE.clear.zero⟩ (by omega) (by omega) (by omega) hs'
      (hsame.trans hig₁.symm)
    have hsplit := @pieces_spec f (((h : Int) - origin k h).toNat + 1) (h - origin k h) hf
      (by omega) (by omega) (by omega)
    obtain ⟨hnew, hfound⟩ := hE.more hside hclear hreads hbits hsplit.nonneg
      (by rw [hk₂, hsplit.sum]; omega) (by rw [hu₁]; exact (base_le h).2)
    rw [hk₂] at hfound
    exact ⟨_, hnew, hfound⟩

/-- The last sum of a code is the code. -/
theorem mem_stored (hf : Good f) {k h : Nat} (hle : k ≤ h) (hlt : h < 2 ^ 27) (y : Int) :
    y ∈ stored f k h ↔ y ∈ (stored f k h).dropLast ∨ y = h := by
  obtain ⟨hb₁, hb₂⟩ := origin_le hle
  have hpos : 0 ≤ base (h >>> 18) := Int.natCast_nonneg _
  have hsplit := @pieces_spec f (((h : Int) - origin k h).toNat + 1) (h - origin k h) hf
    (by omega) (by omega) (by omega)
  have hlast : stored f k h = (stored f k h).dropLast ++ [(h : Int)] := by
    have h₁ := sums_last (origin k h) hsplit.ne
    rw [hsplit.sum, add_sub_cancel] at h₁
    exact h₁
  conv_lhs => rw [hlast]
  rw [List.mem_append, List.mem_singleton]

/-- All codes of a sequence are put into their buckets. -/
theorem placeAll_spec (hf : Good f) {codes : List Nat} {k : Nat} (hk : s.k = k) (hu : s.u = k >>> 18)
    (hk' : k < 2 ^ 27) (hs : (k :: codes).Pairwise (· ≤ ·)) (hlt : ∀ h ∈ codes, h < 2 ^ 27) :
    ∃ s', codes.foldlM (place f nd) s = some s' ∧ s.ignore ≤ s'.ignore ∧ s'.u < 2 ^ 9 ∧
      (Holds f s acc → s'.ignore = s.ignore → ∃ acc', Holds f s' acc' ∧
        ∀ y, Found acc' y ↔ Found acc y ∨ (∃ h ∈ codes, y = (h : Int)) ∨ y ∈ between f k codes) := by
  induction codes generalizing s acc k with
  | nil =>
    refine ⟨s, rfl, le_rfl, ?_, fun hH _ => ⟨acc, hH, fun y => ?_⟩⟩
    · rw [hu, Nat.shiftRight_eq_div_pow]
      omega
    · simp [between]
  | cons h codes ih =>
    obtain ⟨hkh, hs'⟩ := List.pairwise_cons.mp hs
    have hle := hkh h List.mem_cons_self
    have hlth := hlt h List.mem_cons_self
    obtain ⟨s₁, hs₁, hig₁, hk₁, hu₁, hstep⟩ := @place_spec f nd s acc hf k h hk hu hle hlth
    obtain ⟨s₂, hs₂, hig₂, hu₂, -⟩ := @ih s₁ acc h hk₁ hu₁ hlth hs'
      fun x hx => hlt x (List.mem_cons_of_mem h hx)
    refine ⟨s₂, ?_, hig₁.trans hig₂, hu₂, fun hH hsame => ?_⟩
    · rw [List.foldlM_cons, hs₁]
      exact hs₂
    · obtain ⟨acc₁, hH₁, hfound₁⟩ := hstep hH (by omega)
      obtain ⟨s₃, hs₃, -, -, hrest⟩ := @ih s₁ acc₁ h hk₁ hu₁ hlth hs'
        fun x hx => hlt x (List.mem_cons_of_mem h hx)
      rw [hs₂] at hs₃
      cases hs₃
      obtain ⟨acc₂, hH₂, hfound₂⟩ := hrest hH₁ (by omega)
      refine ⟨acc₂, hH₂, fun y => ?_⟩
      rw [hfound₂, hfound₁, mem_stored hf hle hlth, between, List.mem_append, List.exists_mem_cons_iff]
      have hsort : ∀ P Q R E B : Prop, (P ∨ (Q ∨ R)) ∨ E ∨ B ↔ P ∨ (R ∨ E) ∨ Q ∨ B := by
        intro P Q R E B
        tauto
      exact hsort _ _ _ _ _

theorem start_holds (f : Huff) : Holds f start fun _ => [] := by
  refine ⟨⟨Nat.le_add_left 1 31, Nat.le_refl 32, fun j _ => ?_⟩, fun t _ => ?_, nofun, .nil,
    fun _ _ => rfl, fun _ _ => nofun, fun _ => by decide, rfl⟩
  · exact BitVec.getMsbD_zero
  · exact Nat.zero_le _

/-- The table of spellin: each bucket has its codes, and what can be found is the codes and the sums
between them. -/
theorem spellin_spec (hf : Good f) {codes : List Nat} (hs : codes.Pairwise (· < ·))
    (hlt : ∀ h ∈ codes, h < 2 ^ 27) : ∃ st, spellin f nd codes = some st ∧
      (st.ignore = 0 → ∃ acc : Nat → List Int,
        (∀ t < 2 ^ 9, Bucket f st.table (32 * st.index t) (32 * st.index (t + 1)) (acc t)) ∧
        (∀ t, ∀ x ∈ acc t, 0 ≤ x) ∧ (∀ t, (acc t).sum < 2 ^ 18) ∧
        ∀ y, Found acc y ↔ (∃ h ∈ codes, y = (h : Int)) ∨ y ∈ between f 0 codes) := by
  have hs' : (0 :: codes).Pairwise (· ≤ ·) :=
    List.pairwise_cons.mpr ⟨fun h _ => Nat.zero_le h, hs.imp Nat.le_of_lt⟩
  obtain ⟨s, hrun, -, hu, hspec⟩ := @placeAll_spec f nd start (fun _ => []) hf codes 0 rfl rfl
    (by decide) hs' hlt
  have hflush : (flush s).u = s.u ∧ (flush s).table = s.table ∧ (flush s).index = s.index ∧
      (flush s).ignore = s.ignore := by
    rw [flush]
    split <;> exact ⟨rfl, rfl, rfl, rfl⟩
  have hni : s.u + (NI - 1 - s.u) = 2 ^ 9 := by
    simp only [NI, INDEXWIDTH]
    omega
  refine ⟨finish s, by rw [spellin, hrun]; rfl, fun hig => ?_⟩
  simp only [finish, fillIndex_spec, hflush.1, hflush.2.1, hflush.2.2.1, hflush.2.2.2] at hig ⊢
  obtain ⟨acc, hH, hfound⟩ := hspec (start_holds f) hig
  refine ⟨acc, fun t ht => ?_, hH.nonneg, hH.below, fun y => ?_⟩
  · exact hH.closed (m := NI - 1 - s.u) rfl t (by omega)
  · have hnone : ¬ Found (fun _ => []) y := fun ⟨t, ht⟩ => List.not_mem_nil ht
    rw [hfound, or_iff_right hnone]

end Svr32.Spell
