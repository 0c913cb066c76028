import Svr32.Spell.Buckets

/-! hashlook of cmd/spell/hashlook.c finds what spellin has stored. -/
namespace Svr32.Spell
open Svr32.Lib
variable {f : Huff} {tab : Nat → BitVec 32} {wp tp p e i fuel : Nat} {bp sum h k t : Int}
  {xs : List Int}

/- y of hashlook: what follows bit `bp` of `*wp`, left justified against the sign. -/
def fetch (table : Nat → BitVec 32) (wp : Nat) (bp : Int) : Nat :=
  let y := if bp = 0 then 0 else table wp <<< (32 - bp).toNat
  let y := if bp < 32 then y ||| table (wp + 1) >>> bp.toNat else y
  (y.sshiftRight 1 &&& BitVec.ofNat 32 mask).toNat

/- for(bp-=w,v=v0; y>=qcs; y=(y<<1)&MASK,v+=n) bp -= 1 -/
def lookLoop (f : Huff) : Nat → Nat → Int → Int → Option (Nat × Int × Int)
  | 0, _, _, _ => none
  | fuel + 1, y, v, bp =>
    if y ≥ f.qcs then lookLoop f fuel (y <<< 1 &&& mask) (v + f.n) (bp - 1) else some (y, v, bp)

/- The copy of decode in hashlook: the difference, and the new bit pointer. -/
def lookCode (f : Huff) (y : Nat) (bp : Int) : Option (Int × Int) :=
  if y < f.cs then some ((y >>> (31 + 1 - f.w) : Nat), bp - (f.w - 1))
  else do
    let (y, v, bp) ← lookLoop f 32 y f.v0 (bp - f.w)
    return (v + (y >>> (31 - f.w) : Nat), bp)

/- while(bp<=0) -/
def advance (wp : Nat) (bp : Int) : Nat × Int :=
  if bp ≤ 0 then advance (wp + 1) (bp + 32) else (wp, bp)
termination_by (1 - bp).toNat

/- The loop of hashlook. -/
def look (f : Huff) (table : Nat → BitVec 32) (tp : Nat) (h : Int) :
    Nat → Nat → Int → Int → Option Bool
  | 0, _, _, _ => none
  | fuel + 1, wp, bp, sum => do
    let (t, bp) ← lookCode f (fetch table wp bp) bp
    let (wp, bp) := advance wp bp
    if wp ≥ tp ∧ (wp > tp ∨ bp < 32) then some false
    else
      let sum := sum + t
      if sum < h then look f table tp h fuel wp bp sum else some (sum = h)

/-- hashlook, for a word with the hash code `h`. -/
def hashlook (f : Huff) (index : Nat → Nat) (table : Nat → BitVec 32) (h : Nat) : Option Bool :=
  let t := h >>> (HASHWIDTH - INDEXWIDTH)
  let wp := index t
  let tp := index (t + 1)
  look f table tp h (32 * (tp - wp) + 1) wp 32 (t <<< (HASHWIDTH - INDEXWIDTH) : Nat)

theorem mask_half (x : BitVec 32) :
    (x.sshiftRight 1 &&& BitVec.ofNat 32 mask).toNat = x.toNat / 2 := by
  refine Nat.eq_of_testBit_eq fun j => ?_
  rw [BitVec.testBit_toNat, BitVec.getLsbD_and, BitVec.getLsbD_sshiftRight, BitVec.getLsbD_ofNat,
    mask, Nat.testBit_two_pow_sub_one, Nat.testBit_div_two, BitVec.testBit_toNat]
  by_cases hj : j < 31
  · have h₁ : ¬ 32 ≤ j := by omega
    have h₂ : j < 32 := by omega
    simp [h₁, h₂, hj, Nat.add_comm 1 j]
  · rw [BitVec.getLsbD_of_ge x (j + 1) (by omega)]
    simp [hj]

/- The position that `wp` and `bp` stand for. -/
structure At (wp : Nat) (bp : Int) (p : Nat) : Prop where
  pos : 1 ≤ bp
  le : bp ≤ 32
  eq : (p : Int) = 32 * wp + (32 - bp)

theorem fetch_window (h : At wp bp p) : fetch tab wp bp = (window tab p).toNat / 2 := by
  obtain ⟨h₁, h₂, h₃⟩ := h
  have hdiv : p / 32 = wp := by omega
  have hmod : p % 32 = (32 - bp).toNat := by omega
  have hback : 32 - p % 32 = bp.toNat := by omega
  have hz : ¬ bp = 0 := by omega
  rw [fetch, mask_half, window, hdiv, hback, hmod, if_neg hz]
  by_cases hb : bp < 32
  · rw [if_pos hb]
  · have hlast : bp.toNat = 32 := by omega
    rw [if_neg hb, hlast, BitVec.ushiftRight_eq_zero le_rfl, BitVec.or_zero]

theorem fetch_lt (table : Nat → BitVec 32) (wp : Nat) (bp : Int) : fetch table wp bp < 2 ^ 31 := by
  rw [fetch, mask_half]
  omega

/-- The code at a position is what `y` begins with. -/
theorem fetch_field {Y : Nat} (h : At wp bp p) (hy : Field tab p i Y) (hi : i ≤ 31) :
    fetch tab wp bp / 2 ^ (31 - i) = Y := by
  have hw := hy.window (by omega) (by decide)
  rw [fetch_window h, Nat.div_div_eq_div_mul, ← Nat.pow_succ', ← hw]
  congr 2
  omega

theorem lookLoop_code (hf : Good f) {m r e y : Nat} {v : Int} (he : e + f.w + m = 31) (hr : r < f.n)
    (hy : y < 2 ^ 31) (h : y / 2 ^ e = (2 ^ m - 1) * 2 ^ f.w + f.cq + r) (hfuel : m < fuel) :
    ∃ y', lookLoop f fuel y v bp = some (y', v + m * f.n, bp - m) ∧
      y' >>> (31 - f.w) = f.cq + r := by
  induction m generalizing fuel e y bp v with
  | zero =>
    obtain ⟨fuel, rfl⟩ := Nat.exists_eq_succ_of_ne_zero (Nat.ne_zero_of_lt hfuel)
    rw [pow_zero, Nat.sub_self, Nat.zero_mul, Nat.zero_add] at h
    obtain ⟨-, hlt, hval⟩ := last_code hf he hr h
    refine ⟨y, ?_, hval⟩
    rw [lookLoop, if_neg (Nat.not_le.mpr hlt)]
    simp
  | succ m ih =>
    obtain ⟨fuel, rfl⟩ := Nat.exists_eq_succ_of_ne_zero (Nat.ne_zero_of_lt hfuel)
    obtain ⟨hge, hy', h'⟩ := strip_one hf he hr hy h
    obtain ⟨y', hrun, hval⟩ := @ih fuel (bp - 1) (e + 1) _ (v + f.n) (by omega) hy' h'
      (Nat.lt_of_succ_lt_succ hfuel)
    refine ⟨y', ?_, hval⟩
    rw [lookLoop, if_pos hge, hrun]
    congr 3
    · push_cast
      ring
    · push_cast
      ring

/-- The copy in hashlook finds the code that a word begins with. -/
theorem lookCode_code (hf : Good f) {Y y : Nat} (h : Code f k i Y) (hy : y < 2 ^ 31)
    (hpre : y / 2 ^ (31 - i) = Y) : lookCode f y bp = some (k, bp - i) := by
  have hpos := hf.pos
  have hlt := hf.lt
  cases h with
  | @short k hk =>
    have he : 31 - (f.w - 1) = 32 - f.w := by omega
    rw [he] at hpre
    have hcs : y < f.cs := by
      rw [hf.cs]
      exact (Nat.div_lt_iff_lt_mul (Nat.two_pow_pos _)).mp (hpre ▸ hk)
    rw [lookCode, if_pos hcs, Nat.shiftRight_eq_div_pow, hpre]
    congr 2
    omega
  | @long m r hr hm =>
    have he : 31 - (f.w + m) + f.w + m = 31 := by omega
    obtain ⟨y', hrun, hval⟩ := @lookLoop_code f 32 (bp - f.w) hf m r _ y f.v0 he hr hy hpre (by omega)
    rw [lookCode, if_neg (Nat.not_lt.mpr (cs_le_code hf he hr hy hpre)), hrun]
    simp only [Option.bind_eq_bind, Option.bind_some, hval, hf.v0, hf.cq]
    show some _ = some _
    congr 2
    · push_cast
      ring
    · push_cast
      ring

theorem lookLoop_some (hf : Good f) {g y : Nat} {v : Int} (hg : g ≤ 31) (hd : 2 ^ (31 - g) ∣ y)
    (hy : y < 2 ^ 31) (hfuel : g < fuel) :
    ∃ y' v', ∃ j : Nat, lookLoop f fuel y v bp = some (y', v', bp - j) := by
  induction g generalizing fuel y bp v with
  | zero =>
    obtain ⟨fuel, rfl⟩ := Nat.exists_eq_succ_of_ne_zero (Nat.ne_zero_of_lt hfuel)
    have hz : y = 0 := Nat.eq_zero_of_dvd_of_lt hd hy
    have hq : 0 < f.qcs := by
      rw [hf.qcs]
      positivity
    have hno : ¬ y ≥ f.qcs := by omega
    exact ⟨y, v, 0, by rw [lookLoop, if_neg hno]; simp⟩
  | succ g ih =>
    obtain ⟨fuel, rfl⟩ := Nat.exists_eq_succ_of_ne_zero (Nat.ne_zero_of_lt hfuel)
    rw [lookLoop]
    split
    · have hdvd : 2 ^ (31 - g) ∣ y <<< 1 &&& mask := by
        rw [and_mask, Nat.shiftLeft_eq, show 31 - g = 31 - (g + 1) + 1 by omega]
        refine (Nat.dvd_mod_iff (pow_dvd_pow 2 (by omega))).mpr ?_
        rw [Nat.pow_succ]
        exact Nat.mul_dvd_mul_right hd 2
      have hlt : y <<< 1 &&& mask < 2 ^ 31 := by
        rw [and_mask]
        exact Nat.mod_lt _ (by decide)
      obtain ⟨y', v', j, hrun⟩ := @ih fuel (bp - 1) _ (v + f.n) (by omega) hdvd hlt
        (Nat.lt_of_succ_lt_succ hfuel)
      refine ⟨y', v', j + 1, ?_⟩
      rw [hrun]
      congr 3
      push_cast
      ring
    · exact ⟨y, v, 0, by simp⟩

/-- Whatever is read, it has at least as many bits as the code of 0. -/
theorem lookCode_least (hf : Good f) {y : Nat} (hy : y < 2 ^ 31) :
    ∃ t, ∃ i : Nat, lookCode f y bp = some (t, bp - i) ∧ least f ≤ i := by
  have hpos := hf.pos
  by_cases hcs : y < f.cs
  · have hc : f.c ≠ 0 := by
      rintro hc
      rw [hf.cs, hc, Nat.zero_mul] at hcs
      exact Nat.not_lt_zero y hcs
    refine ⟨(y >>> (31 + 1 - f.w) : Nat), f.w - 1, ?_, ?_⟩
    · rw [lookCode, if_pos hcs]
      congr 2
      omega
    · rw [least, if_neg hc]
  · obtain ⟨y', v', j, hrun⟩ := @lookLoop_some f 32 (bp - f.w) hf 31 y f.v0 le_rfl (one_dvd y) hy
      (by decide)
    refine ⟨v' + (y' >>> (31 - f.w) : Nat), f.w + j, ?_, ?_⟩
    · rw [lookCode, if_neg hcs, hrun]
      show some _ = some _
      congr 2
      push_cast
      ring
    · rw [least]
      split <;> omega

theorem advance_at (hle : bp ≤ 32) (he : (p : Int) = 32 * wp + (32 - bp)) :
    At (advance wp bp).1 (advance wp bp).2 p := by
  fun_induction advance wp bp with
  | case1 wp bp hbp ih => exact ih (by omega) (by omega)
  | case2 wp bp hbp => exact ⟨by omega, hle, he⟩

/-- One turn of the loop reads a code and goes on behind it, if that is in the bucket. -/
theorem look_turn (ha : At wp bp p) (hl : lookCode f (fetch tab wp bp) bp = some (t, bp - i)) :
    ∃ wp' bp', At wp' bp' (p + i) ∧ look f tab tp h (fuel + 1) wp bp sum =
      if 32 * tp < p + i then some false
      else if sum + t < h then look f tab tp h fuel wp' bp' (sum + t)
      else some (decide (sum + t = h)) := by
  obtain ⟨h₁, h₂, h₃⟩ := ha
  have hat : At (advance wp (bp - i)).1 (advance wp (bp - i)).2 (p + i) :=
    advance_at (by omega) (by push_cast; omega)
  refine ⟨_, _, hat, ?_⟩
  rw [look, hl]
  simp only [Option.bind_eq_bind, Option.bind_some]
  obtain ⟨h₄, h₅, h₆⟩ := hat
  generalize advance wp (bp - i) = r at *
  have hend : (r.1 ≥ tp ∧ (r.1 > tp ∨ r.2 < 32)) ↔ 32 * tp < p + i := by
    constructor
    · rintro ⟨h₇, h₈⟩
      omega
    · intro h₇
      refine ⟨by omega, ?_⟩
      by_contra hno
      omega
  simp only [hend]

/-- The zeros behind the codes of a bucket find nothing. -/
theorem look_zeros (hf : Good f) (ha : At wp bp p) (hp : p ≤ 32 * tp)
    (hz : ∀ j, p ≤ j → j < 32 * tp → bitAt tab j = false) (hs : sum < h ∨ p = 32 * tp)
    (hfuel : 32 * tp < fuel + p) : look f tab tp h fuel wp bp sum = some false := by
  induction fuel generalizing wp bp p sum with
  | zero => omega
  | succ fuel ih =>
    obtain ⟨hcode, hpos⟩ := code_zero hf
    by_cases hfit : p + least f ≤ 32 * tp
    · have hfield : Field tab p (least f) 0 := .zero fun j h₁ h₂ => hz j h₁ (by omega)
      obtain ⟨wp', bp', ha', hturn⟩ := @look_turn f tab wp tp p (least f) fuel bp sum h 0 ha
        (lookCode_code hf hcode (fetch_lt _ _ _) (fetch_field ha hfield (hcode.le hf)))
      have hno : ¬ 32 * tp < p + least f := by omega
      have hlt : sum + 0 < h := by omega
      rw [hturn, if_neg hno, if_pos hlt]
      exact ih ha' hfit (fun j h₁ h₂ => hz j (by omega) h₂) (.inl hlt) (by omega)
    · obtain ⟨t, i, hcode, hle⟩ := @lookCode_least f bp hf _ (fetch_lt tab wp bp)
      obtain ⟨wp', bp', -, hturn⟩ := @look_turn f tab wp tp p i fuel bp sum h t ha hcode
      rw [hturn, if_pos (by omega)]

/-- A lookup finds the sums of the bucket and nothing else. -/
theorem look_reads (hf : Good f) (ha : At wp bp p) (hr : Reads f tab p xs e) (he : e ≤ 32 * tp)
    (hz : ∀ j, e ≤ j → j < 32 * tp → bitAt tab j = false) (hxs : ∀ x ∈ xs, 0 ≤ x)
    (hs : sum < h ∨ xs ≠ [] ∨ p = 32 * tp) (hfuel : 32 * tp < fuel + p) :
    look f tab tp h fuel wp bp sum = some (decide (h ∈ sums sum xs)) := by
  induction hr generalizing wp bp sum fuel with
  | nil =>
    have hs' : sum < h ∨ _ = 32 * tp := hs.imp_right fun hs => hs.resolve_left fun hn => hn rfl
    rw [look_zeros hf ha he hz hs' hfuel]
    rfl
  | @cons p e i Y x xs hc hi hy hr ih =>
    obtain ⟨fuel, rfl⟩ := Nat.exists_eq_succ_of_ne_zero (show fuel ≠ 0 by
      have hle := hr.le
      omega)
    have hle := hr.le
    have hrest : ∀ y ∈ xs, 0 ≤ y := fun y hy => hxs y (List.mem_cons_of_mem x hy)
    obtain ⟨wp', bp', ha', hturn⟩ := @look_turn f tab wp tp p i fuel bp sum h x ha
      (lookCode_code hf hc (fetch_lt _ _ _) (fetch_field ha hy (hc.le hf)))
    have hno : ¬ 32 * tp < p + i := by omega
    rw [Nat.succ_eq_add_one, hturn, if_neg hno, sums]
    by_cases hlt : sum + x < h
    · have hne : h ≠ sum + x := by omega
      rw [if_pos hlt, ih ha' he hz hrest (.inl hlt) (by omega)]
      simp [hne]
    · rw [if_neg hlt]
      congr 1
      simp only [List.mem_cons, decide_eq_decide]
      refine ⟨fun heq => .inl heq.symm, fun hin => ?_⟩
      rcases hin with heq | hin
      · exact heq.symm
      · have hb := (sums_bounds hrest h hin).1
        omega

/-- A lookup in the table of spellin. -/
theorem hashlook_spec (hf : Good f) {index : Nat → Nat} {n : Nat} {acc : Nat → List Int}
    (hb : Bucket f tab (32 * index (n >>> 18)) (32 * index (n >>> 18 + 1)) (acc (n >>> 18)))
    (hpos : ∀ t, ∀ x ∈ acc t, 0 ≤ x) (hsum : ∀ t, (acc t).sum < 2 ^ 18) :
    ∃ r, hashlook f index tab n = some r ∧ (r = true ↔ Found acc n) := by
  obtain ⟨⟨e, hr, he, hz⟩, hempty⟩ := hb
  have hat : At (index (n >>> 18)) 32 (32 * index (n >>> 18)) :=
    ⟨by decide, le_rfl, by push_cast; omega⟩
  have hbase : ((n >>> 18 <<< 18 : Nat) : Int) = base (n >>> 18) :=
    congrArg Nat.cast (Nat.shiftLeft_eq _ 18)
  have hle := hr.le
  have hcase : base (n >>> 18) < (n : Int) ∨ acc (n >>> 18) ≠ [] ∨
      32 * index (n >>> 18) = 32 * index (n >>> 18 + 1) := by
    by_cases hn : acc (n >>> 18) = []
    · exact .inr (.inr (hempty hn))
    · exact .inr (.inl hn)
  refine ⟨decide ((n : Int) ∈ sums (base (n >>> 18)) (acc (n >>> 18))), ?_, ?_⟩
  · have hwidth : HASHWIDTH - INDEXWIDTH = 18 := rfl
    simp only [hashlook, hwidth, hbase]
    exact look_reads hf hat hr he hz (hpos _) hcase (by omega)
  · rw [decide_eq_true_iff]
    refine ⟨fun hin => ⟨_, hin⟩, ?_⟩
    rintro ⟨t, hin⟩
    have h₁ := sums_bounds (hpos t) _ hin
    have h₂ := hsum t
    have ht : t = n >>> 18 := by
      rw [base] at h₁
      rw [Nat.shiftRight_eq_div_pow]
      omega
    rwa [← ht]

/-- A lookup accepts the codes of the list and the sums on the way to them, and no other code; and
both copies of decode take from a word what encode has put there. -/
theorem hashlook_exact {d nd : Nat} {codes : List Nat} (hd : 1 ≤ d) (hw : (huff d).w < 31)
    (hs : codes.Pairwise (· < ·)) (hlt : ∀ h ∈ codes, h < HASHSIZE) :
    (∃ st, spellin (huff d) nd codes = some st ∧ (st.ignore = 0 → ∀ h < 2 ^ HASHWIDTH,
      hashlook (huff d) st.index st.table h =
        some (decide (h ∈ codes ∨ (h : Int) ∈ between (huff d) 0 codes)))) ∧
    ∀ (k Y : Int) (i : Nat), 0 ≤ k → encode (huff d) k = (i, Y) → 0 < i →
      ∀ y < 2 ^ 31, ((y / 2 ^ (31 - i) : Nat) : Int) = Y →
        decode (huff d) y = (i, k) ∧ ∀ bp, lookCode (huff d) y bp = some (k, bp - i) := by
  have hf := huff_good hd hw
  refine ⟨?_, fun k Y i hk he hi y hy hpre => ?_⟩
  · have hlt' : ∀ h ∈ codes, h < 2 ^ 27 := fun h hh => (hlt h hh).trans (by decide)
    obtain ⟨st, hst, hspec⟩ := @spellin_spec _ nd hf codes hs hlt'
    refine ⟨st, hst, fun hig h hh => ?_⟩
    obtain ⟨acc, hb, hpos, hsum, hfound⟩ := hspec hig
    have ht : h >>> 18 < 2 ^ 9 := by
      rw [Nat.shiftRight_eq_div_pow]
      have hh' : h < 2 ^ 27 := hh
      omega
    obtain ⟨r, hr, hiff⟩ := hashlook_spec hf (hb _ ht) hpos hsum
    have hmem : (∃ x ∈ codes, (h : Int) = x) ↔ h ∈ codes :=
      ⟨fun ⟨x, hx, hxe⟩ => Int.ofNat_inj.mp hxe ▸ hx, fun hx => ⟨h, hx, rfl⟩⟩
    rw [hr]
    congr 1
    rw [Bool.eq_iff_iff, hiff, hfound, decide_eq_true_iff, hmem]
  · obtain ⟨Y', rfl, hc⟩ := encode_code hf hk he hi
    have hpre' := Int.ofNat_inj.mp hpre
    exact ⟨decode_code hf hc hy hpre', fun bp => lookCode_code hf hc hy hpre'⟩

theorem hashlook_exact_three : ∃ st, spellin (huff 5) 8 [3, 100, 262145] = some st ∧
    ∀ h < 2 ^ HASHWIDTH, hashlook (huff 5) st.index st.table h =
      some (decide (h ∈ [3, 100, 262145] ∨ (h : Int) ∈ between (huff 5) 0 [3, 100, 262145])) := by
  have hexact := @hashlook_exact 5 8 [3, 100, 262145] (by decide) (by decide) (by decide) (by decide)
  obtain ⟨st, hst, hspec⟩ := hexact.1
  have hig : (spellin (huff 5) 8 [3, 100, 262145]).map (fun s => s.ignore) = some 0 := by
    decide +kernel
  rw [hst] at hig
  exact ⟨st, hst, hspec (Option.some.inj hig)⟩

end Svr32.Spell
