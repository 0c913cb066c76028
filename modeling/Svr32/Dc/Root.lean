import Mathlib.Data.Nat.Sqrt
import Mathlib.Tactic.Linarith
import Svr32.Dc.Exact

/-! cmd/dc/dc.c: sqrt and exp, over any addition, multiplication and division of blocks that are
exact. -/
namespace Svr32.Dc

/- div gives quotient and rem, and nothing where it says divide by 0. -/
structure Ops where
  add : List Int → List Int → List Int
  mult : List Int → List Int → List Int
  div : List Int → List Int → Option (List Int × List Int)

/-- The operations give normalized blocks of the exact results; div truncates. -/
structure Ops.Exact (A : Ops) : Prop where
  add : ∀ a b, Normal a → Normal b → Represents (A.add a b) (val a + val b)
  mult : ∀ a b, Normal a → Normal b → Represents (A.mult a b) (val a * val b)
  div : ∀ a b, Normal a → Normal b → b ≠ [] → ∃ q r, A.div a b = some (q, r) ∧
    Represents q (Int.tdiv (val a) (val b)) ∧ Represents r (Int.tmod (val a) (val b))
  zero : ∀ a, A.div a [] = none

/- c = sbackc(p); if((n&1) != 1)c = c*100+(sfbeg(p)?0:sbackc(p)); an empty block gives EOF. -/
def leading (p : List Int) : Int :=
  match p.reverse with
  | [] => -100
  | t :: rest => if p.length % 2 = 1 then t else t * 100 + rest.headD 0

/- while((c -= nn)>=0)nn+=2; every turn takes c down, so `c` turns are enough. -/
def oddLoop : Nat → Int → Int → Int
  | 0, _, nn => nn
  | fuel + 1, c, nn => if c - nn ≥ 0 then oddLoop fuel (c - nn) (nn + 2) else nn

/- (nn+1)>>1 -/
def guessDigit (p : List Int) : Int := (oddLoop ((leading p).toNat + 1) (leading p) 1 + 1) / 2

/- The block r that the loop starts with: zeros, and the digit at the top. -/
def guess (p : List Int) : List Int :=
  let c := guessDigit p
  let zeros := List.replicate ((p.length + 1) / 2 - 1) 0
  if c ≥ 100 then zeros ++ [c - 100, 1] else zeros ++ [c]

def sqtemp : List Int := [2]

/- while(1) -/
def newton (A : Ops) (p : List Int) : Nat → List Int → Option (List Int)
  | 0, _ => none
  | fuel + 1, r =>
    match A.div p r with
    | none => none
    | some (q, _) =>
      match A.div (A.add q r) sqtemp with
      | none => none
      | some (q, _) => if isNeg (A.add (chsign r) q) then newton A p fuel q else some r

def sqrt (A : Ops) (fuel : Nat) (p : List Int) : Option (List Int) := newton A p fuel (guess p)

/- case 'v' for an integer with k = 0: an empty block is pushed as it is. -/
def rootCommand (A : Ops) (fuel : Nat) (p : List Int) : Option (List Int) :=
  if p.length = 0 then some p
  else if isNeg p then none
  else sqrt A fuel p

/- while(length(e) != 0) -/
def powLoop (A : Ops) : Nat → List Int → List Int → List Int → Option (List Int)
  | 0, _, _, _ => none
  | fuel + 1, e, p, r =>
    if e.length = 0 then some r
    else
      match A.div e sqtemp with
      | none => none
      | some (e1, rem) => powLoop A fuel e1 (A.mult p p) (if rem.length ≠ 0 then A.mult p r else r)

/- What exp makes of the power where the exponent is negative. -/
def reciprocal (base r : List Int) : List Int :=
  if base.length = 0 then r
  else if base.length > 1 then []
  else if base.headD 0 ≤ 1 then [base.headD 0] else []

def exp (A : Ops) (fuel : Nat) (base ex : List Int) : Option (List Int) :=
  if ex.length = 0 then some [1]
  else
    let temp := isNeg ex
    match powLoop A fuel (if temp then chsign ex else ex) base [1] with
    | none => none
    | some r => if temp then some (reciprocal base r) else some r

/- Newton's step does not go below the root. -/
theorem newton_above {N r : Nat} (hr : 1 ≤ r) : N < ((N / r + r) / 2 + 1) * ((N / r + r) / 2 + 1) := by
  have hdiv : N < r * (N / r + 1) := Nat.lt_mul_div_succ N hr
  generalize N / r = q at *
  have hhalf : q + r + 1 ≤ 2 * ((q + r) / 2 + 1) := by omega
  generalize (q + r) / 2 + 1 = m at *
  have hsquare : (q + r + 1) * (q + r + 1) ≤ 2 * m * (2 * m) := Nat.mul_self_le_mul_self hhalf
  have hmean : 4 * (r * (q + 1)) ≤ (q + r + 1) * (q + r + 1) := by
    zify
    nlinarith [sq_nonneg ((r : Int) - (q + 1))]
  nlinarith

/- A step that does not go down stands on the root. -/
theorem newton_stop {N r : Nat} (hr : 1 ≤ r) (h : r ≤ (N / r + r) / 2) : r * r ≤ N := by
  have hle : r ≤ N / r := by omega
  exact (Nat.le_div_iff_mul_le hr).mp hle

theorem oddLoop_spec (fuel : Nat) (c : Int) (k : Nat) (hc : 0 ≤ c) (hfuel : c < fuel) :
    ∃ m : Nat, oddLoop fuel c (2 * k + 1) = 2 * m + 1 ∧ (m * m : Int) ≤ c + k * k ∧
      c + k * k < (m + 1) * (m + 1) := by
  induction fuel generalizing c k with
  | zero => omega
  | succ fuel ih =>
    rw [oddLoop]
    by_cases hge : c - (2 * k + 1) ≥ 0
    · rw [if_pos hge]
      obtain ⟨m, hrun, hlo, hhi⟩ := ih (c - (2 * k + 1)) (k + 1) hge (by omega)
      have hsq : c - (2 * k + 1) + ((k + 1 : Nat) : Int) * (k + 1 : Nat) = c + k * k := by
        rw [Nat.cast_add, Nat.cast_one]
        ring
      rw [hsq] at hlo hhi
      refine ⟨m, ?_, hlo, hhi⟩
      have hnn : 2 * (k : Int) + 1 + 2 = 2 * ((k + 1 : Nat) : Int) + 1 := by
        rw [Nat.cast_add, Nat.cast_one]
        ring
      rw [hnn, hrun]
    · rw [if_neg hge]
      refine ⟨k, rfl, by omega, ?_⟩
      have hsq : ((k : Int) + 1) * (k + 1) = k * k + (2 * k + 1) := by ring
      omega

/- The number is below the next value of its leading digits. -/
theorem leading_spec {p : List Int} (hp : Digits p) (hne : p ≠ []) :
    0 ≤ leading p ∧ leading p ≤ 9999 ∧
      val p < (leading p + 1) * 100 ^ (2 * ((p.length + 1) / 2 - 1)) := by
  obtain ⟨rest, t, rfl⟩ : ∃ rest t, p = rest ++ [t] :=
    ⟨p.dropLast, p.getLast hne, (List.dropLast_append_getLast hne).symm⟩
  have ht : Digit t := hp t (List.mem_append_right rest List.mem_cons_self)
  have hrest : Digits rest := fun d hd => hp d (List.mem_append_left [t] hd)
  have hlt := hrest.val_lt
  unfold Digit at ht
  rw [leading, List.reverse_append, List.reverse_singleton, List.singleton_append]
  dsimp only
  rw [val_append, val, val, List.length_append, List.length_singleton]
  by_cases hodd : (rest.length + 1) % 2 = 1
  · have hz : 2 * ((rest.length + 1 + 1) / 2 - 1) = rest.length := by omega
    rw [if_pos hodd, hz, Int.add_mul, Int.one_mul, Int.mul_zero, Int.add_zero, Int.mul_comm t]
    omega
  · rw [if_neg hodd]
    obtain ⟨low, d, rfl⟩ : ∃ low d, rest = low ++ [d] := by
      have hrne : rest ≠ [] := fun h => hodd (by rw [h]; rfl)
      exact ⟨rest.dropLast, rest.getLast hrne, (List.dropLast_append_getLast hrne).symm⟩
    have hd : Digit d := hrest d (List.mem_append_right low List.mem_cons_self)
    have hlow : Digits low := fun e he => hrest e (List.mem_append_left [d] he)
    have hlt := hlow.val_lt
    unfold Digit at hd
    rw [List.length_append, List.length_singleton] at *
    have hz : 2 * ((low.length + 1 + 1 + 1) / 2 - 1) = low.length := by omega
    rw [hz, List.reverse_append, List.reverse_singleton, List.singleton_append, List.headD_cons,
      val_append, val, val, pow_succ]
    refine ⟨by omega, by omega, ?_⟩
    linarith

/-- The loop starts above the root, with a number that is not 0. -/
theorem guess_spec {p : List Int} (hp : Digits p) (hne : p ≠ []) :
    ∃ R : Nat, Represents (guess p) R ∧ 1 ≤ R ∧ val p < (R + 1) * (R + 1) := by
  obtain ⟨hlo, hhi, hlt⟩ := leading_spec hp hne
  obtain ⟨m, hrun, hmlo, hmhi⟩ := oddLoop_spec ((leading p).toNat + 1) (leading p) 0 hlo (by omega)
  have hdigit : guessDigit p = m + 1 := by
    have hstart : (2 * ((0 : Nat) : Int) + 1) = 1 := rfl
    rw [hstart] at hrun
    rw [guessDigit, hrun]
    omega
  have hm : m ≤ 99 := by
    by_contra hcon
    have hsq : (100 * 100 : Int) ≤ m * m := Int.mul_le_mul (by omega) (by omega) (by decide) (by omega)
    rw [Nat.cast_zero, Int.mul_zero] at hmlo
    omega
  have hzeros : Digits (List.replicate ((p.length + 1) / 2 - 1) 0) := by
    intro d hd
    rw [List.eq_of_mem_replicate hd]
    unfold Digit
    decide
  have hzero : ∀ n, val (List.replicate n 0) = 0 := by
    intro n
    induction n with
    | zero => rfl
    | succ n ih =>
      rw [List.replicate_succ, val, ih]
      rfl
  have hguess : Represents (guess p) ((m + 1) * 100 ^ ((p.length + 1) / 2 - 1)) := by
    rw [guess, hdigit]
    generalize (p.length + 1) / 2 - 1 = z at *
    by_cases hbig : (m : Int) + 1 ≥ 100
    · have hm' : (m : Int) = 99 := by omega
      rw [if_pos hbig, hm']
      constructor
      · apply Digits.normal
        · refine List.forall_mem_append.mpr ⟨hzeros, ?_⟩
          unfold Digit
          decide
        · rw [List.getLast?_append_of_ne_nil _ (List.cons_ne_nil _ _)]
          decide
      · rw [val_append, hzero, List.length_replicate]
        simp only [val]
        ring
    · rw [if_neg hbig]
      constructor
      · apply Digits.normal
        · refine List.forall_mem_append.mpr ⟨hzeros, fun d hd => ?_⟩
          rw [List.mem_singleton.mp hd]
          unfold Digit
          omega
        · rw [List.getLast?_concat]
          intro h
          have := Option.some.inj h
          omega
      · rw [val_append, hzero, List.length_replicate]
        simp only [val]
        ring
  generalize (p.length + 1) / 2 - 1 = z at *
  refine ⟨(m + 1) * 100 ^ z, ?_, Nat.one_le_iff_ne_zero.mpr (by positivity), ?_⟩
  · push_cast
    exact hguess
  · push_cast
    have hpow : (100 : Int) ^ (2 * z) = 100 ^ z * 100 ^ z := by rw [Nat.two_mul, pow_add]
    have hpos : (0 : Int) < 100 ^ z := by positivity
    rw [hpow] at hlt
    rw [Nat.cast_zero, Int.mul_zero, Int.add_zero] at hmhi
    generalize (100 : Int) ^ z = w at *
    have hle : (leading p + 1) * (w * w) ≤ (m + 1) * (m + 1) * (w * w) :=
      Int.mul_le_mul_of_nonneg_right (by omega) (by positivity)
    nlinarith

theorem sqtemp_normal : Normal sqtemp := ⟨trivial, .inl ⟨rfl, .inr ⟨by decide, by unfold Digit; decide⟩⟩⟩

theorem Represents.ne_nil {p : List Int} {n : Int} (h : Represents p n) (hn : n ≠ 0) : p ≠ [] := by
  rintro rfl
  exact hn h.2.symm

/-- The Newton loop ends with the root. -/
theorem newton_spec {A : Ops} (hA : A.Exact) {p : List Int} {N : Nat} (hp : Represents p N)
    (hN : 1 ≤ N) (R : Nat) (r : List Int) (hr : Represents r R) (hR : 1 ≤ R)
    (hlt : N < (R + 1) * (R + 1)) :
    ∃ fuel r', newton A p fuel r = some r' ∧ Represents r' (Nat.sqrt N) := by
  induction R using Nat.strong_induction_on generalizing r with
  | h R ih =>
    obtain ⟨q, rem, hdiv, hq, -⟩ := hA.div p r hp.1 hr.1 (hr.ne_nil (by omega))
    rw [hp.2, hr.2, ← Int.ofNat_tdiv] at hq
    have hs := hA.add q r hq.1 hr.1
    rw [hq.2, hr.2, ← Nat.cast_add] at hs
    obtain ⟨q', rem', hdiv', hq', -⟩ := hA.div (A.add q r) sqtemp hs.1 sqtemp_normal (List.cons_ne_nil _ _)
    have htwo : val sqtemp = (2 : Nat) := rfl
    rw [hs.2, htwo, ← Int.ofNat_tdiv] at hq'
    have hstep : ∀ fuel, newton A p (fuel + 1) r =
        if isNeg (A.add (chsign r) q') then newton A p fuel q' else some r := by
      intro fuel
      rw [newton, hdiv]
      dsimp only
      rw [hdiv']
    obtain ⟨hc, hcv⟩ := chsign_spec hr.1
    have ht := hA.add (chsign r) q' hc hq'.1
    have hneg := ht.1.isNeg_iff
    rw [ht.2, hcv, hr.2, hq'.2] at hneg
    by_cases hgo : isNeg (A.add (chsign r) q') = true
    · have hlow := hneg.mp hgo
      have hpos : 1 ≤ (N / R + R) / 2 := by
        by_cases hone : R = 1
        · rw [hone, Nat.div_one]
          omega
        · have := Nat.zero_le (N / R)
          omega
      obtain ⟨fuel, r', hrun, hr'⟩ := ih ((N / R + R) / 2) (by omega) q' hq' hpos (newton_above hR)
      refine ⟨fuel + 1, r', ?_, hr'⟩
      rw [hstep, if_pos hgo]
      exact hrun
    · have hstop : R ≤ (N / R + R) / 2 := by
        have hge := Int.not_lt.mp fun h => hgo (hneg.mpr h)
        omega
      refine ⟨1, r, ?_, ?_⟩
      · rw [hstep, if_neg hgo]
      · rw [← Nat.eq_sqrt.mpr ⟨newton_stop hR hstop, hlt⟩]
        exact hr

/-- Of a number above 0 sqrt gives the root. -/
theorem sqrt_spec {A : Ops} (hA : A.Exact) {p : List Int} (hp : Normal p) (hpos : 0 < val p) :
    ∃ fuel r, sqrt A fuel p = some r ∧ Represents r (Nat.sqrt (val p).toNat) := by
  have hN : ((val p).toNat : Int) = val p := Int.toNat_of_nonneg (by omega)
  have hdigits : Digits p := by
    rcases hp.kinds with ⟨hds, -⟩ | ⟨ds, rfl, hds, -⟩
    · exact hds
    · exact absurd hds.val_complement (by omega)
  obtain ⟨R, hR, hone, hlt⟩ := guess_spec hdigits (Represents.ne_nil ⟨hp, rfl⟩ (by omega))
  apply newton_spec hA ⟨hp, hN.symm⟩ (by omega) R (guess p) hR hone
  rw [← hN] at hlt
  exact_mod_cast hlt

theorem powLoop_spec {A : Ops} (hA : A.Exact) (E : Nat) (e p r : List Int) (he : Represents e E)
    (hp : Normal p) (hr : Normal r) :
    ∃ fuel r', powLoop A fuel e p r = some r' ∧ Represents r' (val p ^ E * val r) := by
  induction E using Nat.strong_induction_on generalizing e p r with
  | h E ih =>
    by_cases hE : E = 0
    · have hnil : e = [] := he.1.zero (he.2.trans (by rw [hE]; rfl))
      refine ⟨1, r, ?_, hr, ?_⟩
      · rw [hnil]
        rfl
      · rw [hE, pow_zero, one_mul]
    · have hne : e ≠ [] := he.ne_nil (by omega)
      obtain ⟨e1, rem, hdiv, he1, hrem⟩ := hA.div e sqtemp he.1 sqtemp_normal (List.cons_ne_nil _ _)
      have htwo : val sqtemp = (2 : Nat) := rfl
      rw [he.2, htwo, ← Int.ofNat_tdiv] at he1
      rw [he.2, htwo, ← Int.ofNat_tmod] at hrem
      have hpp := hA.mult p p hp hp
      have hr₁ : Represents (if rem.length ≠ 0 then A.mult p r else r) (val p ^ (E % 2) * val r) := by
        by_cases hodd : E % 2 = 0
        · rw [hodd] at hrem ⊢
          rw [hrem.1.zero hrem.2, if_neg (fun h => h rfl), pow_zero, one_mul]
          exact ⟨hr, rfl⟩
        · have hlen : rem.length ≠ 0 := by
            intro h
            exact hrem.ne_nil (by omega) (List.length_eq_zero_iff.mp h)
          have hodd' : E % 2 = 1 := by omega
          rw [if_pos hlen, hodd', pow_one]
          exact hA.mult p r hp hr
      obtain ⟨fuel, r', hrun, hr'⟩ := ih (E / 2) (by omega) e1 (A.mult p p) _ he1 hpp.1 hr₁.1
      refine ⟨fuel + 1, r', ?_, ?_⟩
      · rw [powLoop, if_neg (fun h => hne (List.length_eq_zero_iff.mp h)), hdiv]
        exact hrun
      · rw [hpp.2, hr₁.2] at hr'
        have hpow : (val p * val p) ^ (E / 2) * (val p ^ (E % 2) * val r) = val p ^ E * val r := by
          rw [← mul_assoc, ← pow_two, ← pow_mul, ← pow_add, Nat.div_add_mod]
        rw [← hpow]
        exact hr'

theorem exp_spec {A : Ops} (hA : A.Exact) {base ex : List Int} (hb : Normal base) (he : Normal ex)
    (hpos : 0 ≤ val ex) :
    ∃ fuel r, exp A fuel base ex = some r ∧ Represents r (val base ^ (val ex).toNat) := by
  have hone : Represents [1] 1 :=
    ⟨⟨trivial, .inl ⟨rfl, .inr ⟨by decide, by unfold Digit; decide⟩⟩⟩, rfl⟩
  by_cases hnil : ex = []
  · rw [hnil]
    exact ⟨0, [1], rfl, (pow_zero (val base)).symm ▸ hone⟩
  · have hneg : isNeg ex = false := by
      rw [← Bool.not_eq_true, he.isNeg_iff]
      omega
    obtain ⟨fuel, r, hrun, hr⟩ := powLoop_spec hA (val ex).toNat ex base [1]
      ⟨he, (Int.toNat_of_nonneg hpos).symm⟩ hb hone.1
    rw [hone.2, mul_one] at hr
    refine ⟨fuel, r, ?_, hr⟩
    rw [exp, if_neg (fun h => hnil (List.length_eq_zero_iff.mp h)), hneg]
    dsimp only
    rw [if_neg Bool.false_ne_true, hrun]
    rfl

/-- Over exact operations sqrt gives the root of every number above 0, the command gives it of 0
too, and exp gives every power. -/
theorem sqrt_exp_exact {A : Ops} (hA : A.Exact) :
    (∀ p, Normal p → 0 < val p →
      ∃ fuel r, sqrt A fuel p = some r ∧ Represents r (Nat.sqrt (val p).toNat)) ∧
    (∀ p, Normal p → 0 ≤ val p →
      ∃ fuel r, rootCommand A fuel p = some r ∧ Represents r (Nat.sqrt (val p).toNat)) ∧
    ∀ base ex, Normal base → Normal ex → 0 ≤ val ex →
      ∃ fuel r, exp A fuel base ex = some r ∧ Represents r (val base ^ (val ex).toNat) := by
  refine ⟨fun p hp hpos => sqrt_spec hA hp hpos, fun p hp hpos => ?_,
    fun base ex hb he hpos => exp_spec hA hb he hpos⟩
  by_cases hnil : p = []
  · rw [hnil]
    exact ⟨0, [], rfl, trivial, rfl⟩
  · have hv : val p ≠ 0 := fun h => hnil (hp.zero h)
    have hneg : ¬ isNeg p = true := by
      rw [hp.isNeg_iff]
      omega
    obtain ⟨fuel, r, hrun, hr⟩ := sqrt_spec hA hp (by omega)
    refine ⟨fuel, r, ?_, hr⟩
    rw [rootCommand, if_neg (fun h => hnil (List.length_eq_zero_iff.mp h)), if_neg hneg]
    exact hrun

/-- Called with an empty block sqrt divides by 0 in its second turn. -/
theorem sqrt_nil {A : Ops} (hA : A.Exact) (fuel : Nat) : sqrt A fuel [] = none := by
  have hone : Represents [1] 1 :=
    ⟨⟨trivial, .inl ⟨rfl, .inr ⟨by decide, by unfold Digit; decide⟩⟩⟩, rfl⟩
  have hunique : ∀ {p q : List Int} {n : Int}, Represents p n → Represents q n → p = q :=
    fun hp hq => hp.1.ext hq.1 (hp.2.trans hq.2.symm)
  have hzero : Represents [] 0 := ⟨trivial, rfl⟩
  obtain ⟨q, rem, hdiv, hq, -⟩ := hA.div [] [1] trivial hone.1 (List.cons_ne_nil _ _)
  have hadd := hA.add [] [1] trivial hone.1
  obtain ⟨q', rem', hdiv', hq', -⟩ := hA.div [1] sqtemp hone.1 sqtemp_normal (List.cons_ne_nil _ _)
  have hsub := hA.add (chsign [1]) [] (chsign_spec hone.1).1 trivial
  have hneg : isNeg (A.add (chsign [1]) []) = true := hsub.1.isNeg_iff.mpr (by rw [hsub.2]; decide)
  rw [hunique hq hzero] at hdiv
  rw [hunique hq' hzero] at hdiv'
  cases fuel with
  | zero => rfl
  | succ fuel =>
    change newton A [] (fuel + 1) [1] = none
    rw [newton, hdiv]
    dsimp only
    rw [hunique hadd hone, hdiv']
    dsimp only
    rw [if_pos hneg]
    cases fuel with
    | zero => rfl
    | succ fuel => rw [newton, hA.zero]

/- The normalized block of a number. -/
def ofInt (n : Int) : List Int :=
  if n = 0 then []
  else if n = -1 then [-1]
  else n % 100 :: ofInt (n / 100)
termination_by n.natAbs
decreasing_by omega

theorem ofInt_represents (n : Int) : Represents (ofInt n) n := by
  induction n using ofInt.induct with
  | case1 =>
    rw [ofInt]
    exact ⟨trivial, rfl⟩
  | case2 =>
    rw [ofInt]
    exact ⟨⟨trivial, .inl ⟨rfl, .inl rfl⟩⟩, rfl⟩
  | case3 n h₀ h₁ ih =>
    rw [ofInt, if_neg h₀, if_neg h₁]
    refine ⟨⟨ih.1, ?_⟩, ?_⟩
    · unfold Digit
      by_cases hnil : ofInt (n / 100) = []
      · have hv := ih.2
        rw [hnil, val] at hv
        exact .inl ⟨hnil, .inr (by omega)⟩
      · refine .inr ⟨hnil, by omega, fun hno => ?_⟩
        have hv := ih.2
        rw [hno.2] at hv
        have hone : val [-1] = -1 := rfl
        omega
    · rw [val, ih.2]
      omega

/- Operations by the numbers themselves. -/
def exactOps : Ops where
  add a b := ofInt (val a + val b)
  mult := mult
  div a b := if b = [] then none
    else some (ofInt (Int.tdiv (val a) (val b)), ofInt (Int.tmod (val a) (val b)))

theorem exactOps_exact : exactOps.Exact where
  add _ _ _ _ := ofInt_represents _
  mult _ _ ha hb := mult_spec ha hb
  div _ _ _ _ hb := ⟨_, _, if_neg hb, ofInt_represents _, ofInt_represents _⟩
  zero _ := rfl

/-- With exact operations there is no result for 0. -/
theorem sqrt_empty : exactOps.Exact ∧ ¬ ∃ fuel r, sqrt exactOps fuel [] = some r := by
  refine ⟨exactOps_exact, ?_⟩
  rintro ⟨fuel, r, h⟩
  rw [sqrt_nil exactOps_exact fuel] at h
  cases h

theorem sqrt_exp_exact_two :
    (∃ fuel r, sqrt exactOps fuel [2] = some r ∧ Represents r (Nat.sqrt 2)) ∧
      ∃ fuel r, exp exactOps fuel [2] [2] = some r ∧ Represents r 4 :=
  ⟨(sqrt_exp_exact exactOps_exact).1 [2] sqtemp_normal (by decide),
    (sqrt_exp_exact exactOps_exact).2.2 [2] [2] sqtemp_normal sqtemp_normal (by decide)⟩

end Svr32.Dc
