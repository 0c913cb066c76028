import Svr32.Dc.Number

/-! add, chsign and mult keep the numbers of their blocks, and all but one sum of add is
normalized. -/
namespace Svr32.Dc

/-- Every digit may also be the -1 of a top. -/
def Signed (p : List Int) : Prop := ∀ d ∈ p, -1 ≤ d ∧ d < 100

theorem Normal.signed {p : List Int} (h : Normal p) : Signed p := by
  intro d hd
  rcases h.kinds with ⟨hds, -⟩ | ⟨ds, rfl, hds, -⟩
  · have := hds d hd
    unfold Digit at this
    omega
  · rcases List.mem_append.mp hd with hd | hd
    · have := hds d hd
      unfold Digit at this
      omega
    · rw [List.mem_singleton.mp hd]
      decide

theorem Signed.head {p : List Int} (h : Signed p) : -1 ≤ p.headD 0 ∧ p.headD 0 < 100 := by
  cases p with
  | nil => decide
  | cons d p => exact h d List.mem_cons_self

theorem Signed.tail {p : List Int} (h : Signed p) : Signed p.tail :=
  fun d hd => h d (List.mem_of_mem_tail hd)

theorem val_head_tail (p : List Int) : val p = p.headD 0 + 100 * val p.tail := by
  cases p with
  | nil => rfl
  | cons d p => rfl

theorem val_addLoop (size : Nat) (a b : List Int) (carry : Int) (ha : a.length ≤ size)
    (hb : b.length ≤ size) : val (addLoop size a b carry) = val a + val b + carry := by
  induction size generalizing a b carry with
  | zero =>
    rw [List.length_eq_zero_iff.mp (Nat.le_zero.mp ha), List.length_eq_zero_iff.mp (Nat.le_zero.mp hb),
      addLoop]
    split
    · simp only [val]
      omega
    · simp only [val]
      omega
  | succ size ih =>
    have ha' : a.tail.length ≤ size := by rw [List.length_tail]; omega
    have hb' : b.tail.length ≤ size := by rw [List.length_tail]; omega
    rw [addLoop, val_head_tail a, val_head_tail b]
    split
    · rw [val, ih _ _ _ ha' hb']
      omega
    · split
      · rw [val, ih _ _ _ ha' hb']
        omega
      · rw [val, ih _ _ _ ha' hb']
        omega

/-- What add puts is digits, and one carry behind them. -/
theorem addLoop_shape (size : Nat) (a b : List Int) (carry : Int) (ha : Signed a) (hb : Signed b)
    (hc : -1 ≤ carry ∧ carry ≤ 1) :
    ∃ ds c, addLoop size a b carry = ds ++ (if c ≠ 0 then [c] else []) ∧ Digits ds ∧
      ds.length = size ∧ -1 ≤ c ∧ c ≤ 1 := by
  induction size generalizing a b carry with
  | zero => exact ⟨[], carry, rfl, fun d hd => (nomatch hd), rfl, hc⟩
  | succ size ih =>
    have hha := ha.head
    have hhb := hb.head
    have hstep : ∀ n carry', Digit n → -1 ≤ carry' ∧ carry' ≤ 1 →
        ∃ ds c, n :: addLoop size a.tail b.tail carry' = ds ++ (if c ≠ 0 then [c] else []) ∧
          Digits ds ∧ ds.length = size + 1 ∧ -1 ≤ c ∧ c ≤ 1 := by
      intro n carry' hn hc'
      obtain ⟨ds, c, heq, hds, hlen, hcc⟩ := ih a.tail b.tail carry' ha.tail hb.tail hc'
      exact ⟨n :: ds, c, by rw [heq, List.cons_append], List.forall_mem_cons.mpr ⟨hn, hds⟩,
        congrArg (· + 1) hlen, hcc⟩
    rw [addLoop]
    split
    · apply hstep _ 1 _ (by decide)
      unfold Digit
      omega
    · split
      · apply hstep _ (-1) _ (by decide)
        unfold Digit
        omega
      · apply hstep _ 0 _ (by decide)
        unfold Digit
        omega

theorem val_stripZeros (p : List Int) : val (stripZeros p) = val p := by
  unfold stripZeros
  induction p using List.reverseRecOn with
  | nil => rfl
  | append_singleton p d ih =>
    rw [List.rdropWhile_concat]
    by_cases hd : d = 0
    · rw [if_pos (beq_iff_eq.mpr hd), ih, val_append, hd, val, val]
      omega
    · rw [if_neg (fun h => hd (beq_iff_eq.mp h))]

theorem getLast_rdropWhile {t : Int} (p : List Int) :
    (p.rdropWhile (· == t)).getLast? ≠ some t := by
  intro h
  by_cases hne : p.rdropWhile (· == t) = []
  · rw [hne] at h
    exact nomatch h
  · rw [List.getLast?_eq_some_getLast hne] at h
    exact List.rdropWhile_last_not _ p hne (beq_iff_eq.mpr (Option.some.inj h))

theorem Digits.rdropWhile {p : List Int} (h : Digits p) (f : Int → Bool) :
    Digits (p.rdropWhile f) := fun d hd => h d ((List.rdropWhile_prefix f p).subset hd)

theorem val_nines (p : List Int) : val (p.rdropWhile (· == 99) ++ [-1]) = val (p ++ [-1]) := by
  induction p using List.reverseRecOn with
  | nil => rfl
  | append_singleton p d ih =>
    rw [List.rdropWhile_concat]
    by_cases hd : d = 99
    · rw [if_pos (beq_iff_eq.mpr hd), ih, val_append, val_append, val_append, hd,
        List.length_append, List.length_singleton, pow_succ, val, val, val, val]
      ring
    · rw [if_neg (fun h => hd (beq_iff_eq.mp h))]

/-- add is exact, and normalized unless the sum is -1. -/
theorem add_spec {a b : List Int} (ha : Normal a) (hb : Normal b) :
    val (add a b) = val a + val b ∧ (Normal (add a b) ↔ val a + val b ≠ -1) := by
  have hval := val_addLoop (max a.length b.length) a b 0 (Nat.le_max_left _ _) (Nat.le_max_right _ _)
  obtain ⟨ds, c, heq, hds, hlen, hc⟩ :=
    addLoop_shape (max a.length b.length) a b 0 ha.signed hb.signed (by decide)
  rw [Int.add_zero] at hval
  rw [add]
  by_cases hneg : c = -1
  · rw [hneg, if_pos (by decide)] at heq
    have hstrip : stripZeros (ds ++ [-1]) = ds ++ [-1] :=
      List.rdropWhile_concat_neg _ _ _ (by decide)
    rw [heq] at hval
    rw [heq, hstrip, if_pos List.getLast?_concat, stripNines, List.dropLast_concat]
    by_cases hall : ds.rdropWhile (· == 99) = []
    · rw [if_pos hall]
      have hminus : val (ds ++ [-1]) = -1 := by
        rw [← val_nines, hall]
        rfl
      cases ds with
      | nil =>
        rw [List.length_nil] at hlen
        rw [← hlen, addLoop, if_neg (by decide)] at heq
        exact nomatch heq
      | cons d ds =>
        have hd : d = 99 := beq_iff_eq.mp (List.rdropWhile_eq_nil_iff.mp hall d List.mem_cons_self)
        rw [← hval, hminus, hd]
        refine ⟨rfl, fun h => ?_, fun h => absurd rfl h⟩
        obtain ⟨-, ⟨hnil, -⟩ | ⟨-, -, hno⟩⟩ := h
        · exact nomatch hnil
        · exact absurd ⟨rfl, rfl⟩ hno
    · rw [if_neg hall]
      have hnormal := (hds.rdropWhile (· == 99)).normal_neg (getLast_rdropWhile ds)
      refine ⟨(val_nines ds).trans hval, fun _ hminus => ?_, fun _ => hnormal⟩
      have hone := hnormal.minus_one ((val_nines ds).trans (hval.trans hminus))
      exact hall (List.append_left_eq_self.mp hone)
  · have hdigits : Digits (ds ++ (if c ≠ 0 then [c] else [])) := by
      by_cases hz : c = 0
      · rw [if_neg (fun h => h hz), List.append_nil]
        exact hds
      · rw [if_pos hz]
        apply List.forall_mem_append.mpr ⟨hds, fun d hd => ?_⟩
        rw [List.mem_singleton.mp hd]
        unfold Digit
        omega
    rw [← heq] at hdigits
    have hstrip := hdigits.rdropWhile (· == 0)
    have hnonneg := hdigits.val_nonneg
    have hlast : (stripZeros (addLoop (max a.length b.length) a b 0)).getLast? ≠ some (-1) := by
      intro h
      exact absurd (hstrip _ (List.mem_of_getLast? h)).1 (by decide)
    rw [if_neg hlast, val_stripZeros, hval]
    refine ⟨rfl, fun _ => by omega, fun _ => ?_⟩
    exact hstrip.normal (getLast_rdropWhile _)

theorem chsignEnd_cons {l : List Int} (hne : l ≠ []) (d c : Int) :
    chsignEnd (d :: l, c) = d :: chsignEnd (l, c) := by
  unfold chsignEnd
  dsimp only
  rw [List.getLast?_cons_of_ne_nil hne, List.dropLast_cons_of_ne_nil hne]
  split
  · split
    · rfl
    · rfl
  · split
    · rfl
    · rfl

theorem chsignLoop_ne_nil {p : List Int} (h : p ≠ []) (c : Int) : (chsignLoop p c).1 ≠ [] := by
  cases p with
  | nil => exact absurd rfl h
  | cons d p =>
    rw [chsignLoop]
    split <;> exact List.cons_ne_nil _ _

/- One digit of chsign, in front of a block that is changed already. -/
theorem chsign_digit {d ct c c' : Int} {p q : List Int} (hp : Normal (d :: p)) (hne : p ≠ [])
    (hq : Normal q ∧ val q = -val p - c') (hct : Digit ct) (hc' : c' = 0 ∨ c' = 1)
    (hd : d + ct = 100 * c' - c) (hc : c = 0 ∨ c = 1) :
    Normal (ct :: q) ∧ val (ct :: q) = -val (d :: p) - c := by
  obtain ⟨hp', ⟨hnil, -⟩ | ⟨-, hdig, hno⟩⟩ := hp
  · exact absurd hnil hne
  refine ⟨⟨hq.1, ?_⟩, ?_⟩
  · unfold Digit at hdig hct ⊢
    by_cases hqn : q = []
    · left
      refine ⟨hqn, .inr ⟨fun hz => ?_, hct⟩⟩
      -- the rest is -1, and the digit over it is not 99
      have hv := hq.2
      rw [hqn, val] at hv
      rcases hc' with rfl | rfl
      · exact hne (hp'.zero (by omega))
      · have hone := hp'.minus_one (by omega)
        exact hno ⟨by omega, hone⟩
    · refine .inr ⟨hqn, hct, fun hnines => ?_⟩
      have hv := hq.2
      rw [hnines.2] at hv
      have hone : val [-1] = -1 := rfl
      rcases hc' with rfl | rfl
      · omega
      · exact hne (hp'.zero (by omega))
  · rw [val, val, hq.2]
    omega

theorem chsignLoop_spec {p : List Int} (hp : Normal p) (c : Int) (hc : c = 0 ∨ c = 1) :
    Normal (chsignEnd (chsignLoop p c)) ∧ val (chsignEnd (chsignLoop p c)) = -val p - c := by
  induction p generalizing c with
  | nil =>
    rcases hc with rfl | rfl
    · exact ⟨trivial, rfl⟩
    · exact ⟨⟨trivial, .inl ⟨rfl, .inl rfl⟩⟩, rfl⟩
  | cons d p ih =>
    by_cases hne : p = []
    · subst hne
      obtain ⟨-, ⟨-, hd⟩ | ⟨hno, -⟩⟩ := hp
      · rcases hd with rfl | ⟨hd₀, hd⟩
        · rcases hc with rfl | rfl
          · exact ⟨⟨trivial, .inl ⟨rfl, .inr (by unfold Digit; decide)⟩⟩, rfl⟩
          · exact ⟨trivial, rfl⟩
        · unfold Digit at hd
          have hct : ¬ 100 - d - c ≥ 100 := by omega
          have hone : (1 : Int) ≠ 0 := by decide
          have hloop : chsignLoop [d] c = ([100 - d - c], 1) := by
            rw [chsignLoop, if_neg hct]
            rfl
          rw [hloop, chsignEnd]
          dsimp only
          rw [if_pos hone, List.getLast?_singleton]
          by_cases h99 : 100 - d - c = 99
          · rw [if_pos (congrArg some h99)]
            refine ⟨⟨trivial, .inl ⟨rfl, .inl rfl⟩⟩, ?_⟩
            simp only [List.dropLast_singleton, List.nil_append, val]
            omega
          · rw [if_neg (fun h => h99 (Option.some.inj h))]
            constructor
            · apply Digits.normal_neg
              · intro e he
                rw [List.mem_singleton.mp he]
                unfold Digit
                omega
              · exact fun h => h99 (Option.some.inj h)
            · simp only [List.singleton_append, val]
              omega
      · exact absurd rfl hno
    · have hd := hp.2
      rcases hd with ⟨hnil, -⟩ | ⟨-, hdig, -⟩
      · exact absurd hnil hne
      unfold Digit at hdig
      rw [chsignLoop]
      by_cases hct : 100 - d - c ≥ 100
      · rw [if_pos hct]
        dsimp only
        rw [chsignEnd_cons (chsignLoop_ne_nil hne 0)]
        apply chsign_digit hp hne (ih hp.1 0 (.inl rfl)) _ (.inl rfl) _ hc
        · unfold Digit
          omega
        · omega
      · rw [if_neg hct]
        dsimp only
        rw [chsignEnd_cons (chsignLoop_ne_nil hne 1)]
        apply chsign_digit hp hne (ih hp.1 1 (.inr rfl)) _ (.inr rfl) _ hc
        · unfold Digit
          omega
        · omega

/-- chsign is exact and normalized. -/
theorem chsign_spec {p : List Int} (hp : Normal p) :
    Normal (chsign p) ∧ val (chsign p) = -val p := by
  have h := chsignLoop_spec hp 0 (.inl rfl)
  rw [Int.sub_zero] at h
  exact h

theorem Digits.isNeg {p : List Int} (h : Digits p) : isNeg p = false := by
  unfold Dc.isNeg
  cases hl : p.getLast? with
  | none => rfl
  | some t =>
    have ht := (h t (List.mem_of_getLast? hl)).1
    exact decide_eq_false (by omega)

theorem Digits.val_complement {ds : List Int} (h : Digits ds) : val (ds ++ [-1]) < 0 := by
  have hlt := h.val_lt
  rw [val_append, val, val]
  omega

theorem isNeg_complement (ds : List Int) : isNeg (ds ++ [-1]) = true := by
  unfold isNeg
  rw [List.getLast?_concat]
  rfl

/-- The top digit gives the sign. -/
theorem Normal.isNeg_iff {p : List Int} (h : Normal p) : isNeg p = true ↔ val p < 0 := by
  rcases h.kinds with ⟨hds, -⟩ | ⟨ds, rfl, hds, -⟩
  · rw [hds.isNeg]
    have := hds.val_nonneg
    exact ⟨fun h => (nomatch h), fun h => by omega⟩
  · exact ⟨fun _ => hds.val_complement, fun _ => isNeg_complement ds⟩

/- The copy of which the sign is changed, if it is negative. -/
theorem magnitude_spec {p : List Int} (h : Normal p) :
    Digits (if isNeg p then chsign p else p) ∧
      (if isNeg p then chsign p else p).getLast? ≠ some 0 ∧
      val (if isNeg p then chsign p else p) = if isNeg p then -val p else val p := by
  have hpos : ∀ {q : List Int}, Normal q → 0 ≤ val q → Digits q ∧ q.getLast? ≠ some 0 := by
    intro q hq hv
    rcases hq.kinds with hds | ⟨ds, rfl, hds, -⟩
    · exact hds
    · exact absurd hv (Int.not_le.mpr hds.val_complement)
  cases hn : isNeg p with
  | true =>
    have hneg := h.isNeg_iff.mp hn
    obtain ⟨hc, hv⟩ := chsign_spec h
    obtain ⟨hds, htop⟩ := hpos hc (by omega)
    exact ⟨hds, htop, hv⟩
  | false =>
    have hneg : ¬ val p < 0 := fun hv => Bool.false_ne_true (hn ▸ h.isNeg_iff.mpr hv)
    obtain ⟨hds, htop⟩ := hpos h (by omega)
    exact ⟨hds, htop, rfl⟩

theorem val_multRow (cq : Int) (mp mr : List Int) (carry : Int) :
    val (multRow cq mp mr carry) = val mp * cq + carry + val mr := by
  induction mp generalizing mr carry with
  | nil =>
    rw [multRow]
    split
    · rw [val, val_head_tail mr, val]
      omega
    · rw [val]
      omega
  | cons cp mp ih =>
    rw [multRow, val, ih, val, val_head_tail mr, Int.add_mul, Int.mul_assoc]
    omega

theorem Digits.headD {p : List Int} (h : Digits p) : Digit (p.headD 0) := by
  cases p with
  | nil => unfold Digit; decide
  | cons d p => exact h d List.mem_cons_self

theorem Digits.tail {p : List Int} (h : Digits p) : Digits p.tail :=
  fun d hd => h d (List.mem_of_mem_tail hd)

/-- A row puts digits, at most one behind those of `mp`. -/
theorem multRow_digits {cq : Int} (hq : Digit cq) (mp mr : List Int) (carry : Int)
    (hp : Digits mp) (hr : Digits mr) (hc : Digit carry) (hlen : mr.length ≤ mp.length) :
    Digits (multRow cq mp mr carry) ∧ mp.length ≤ (multRow cq mp mr carry).length ∧
      (multRow cq mp mr carry).length ≤ mp.length + 1 := by
  induction mp generalizing mr carry with
  | nil =>
    rw [List.length_eq_zero_iff.mp (Nat.le_zero.mp hlen), multRow]
    split
    · refine ⟨fun d hd => ?_, Nat.zero_le _, Nat.le_refl _⟩
      rw [List.mem_singleton.mp hd, List.headD_nil, Int.zero_add]
      exact hc
    · exact ⟨fun d hd => (nomatch hd), Nat.le_refl _, Nat.zero_le _⟩
  | cons cp mp ih =>
    have hcp := hp cp List.mem_cons_self
    have hmr := hr.headD
    have hp' : Digits mp := fun d hd => hp d (List.mem_cons_of_mem cp hd)
    unfold Digit at hq hcp hmr hc
    have hlow : 0 ≤ cp * cq := Int.mul_nonneg hcp.1 hq.1
    have hhigh : cp * cq ≤ 99 * 99 :=
      Int.mul_le_mul (by omega) (by omega) hq.1 (by decide)
    have hcarry : Digit ((cp * cq + carry + mr.headD 0) / 100) := by
      unfold Digit
      omega
    have hlen' : mr.tail.length ≤ mp.length := by
      rw [List.length_tail]
      rw [List.length_cons] at hlen
      omega
    obtain ⟨hd, hlo, hhi⟩ := ih mr.tail _ hp' hr.tail hcarry hlen'
    rw [multRow]
    refine ⟨List.forall_mem_cons.mpr ⟨?_, hd⟩, Nat.succ_le_succ hlo, Nat.succ_le_succ hhi⟩
    unfold Digit
    omega

/-- The top digit of a row is not 0, where neither of the tops is. -/
theorem multRow_top {cq : Int} (hq : Digit cq) (hq₀ : cq ≠ 0) (mp mr : List Int) (carry : Int)
    (hp : Digits mp) (hr : Digits mr) (hc : Digit carry) (hlen : mr.length ≤ mp.length)
    (hne : mp ≠ []) (htop : mp.getLast? ≠ some 0) :
    (multRow cq mp mr carry).getLast? ≠ some 0 := by
  induction mp generalizing mr carry with
  | nil => exact absurd rfl hne
  | cons cp mp ih =>
    have hcp := hp cp List.mem_cons_self
    have hmr := hr.headD
    have hp' : Digits mp := fun d hd => hp d (List.mem_cons_of_mem cp hd)
    unfold Digit at hq hcp hmr hc
    have hlow : 0 ≤ cp * cq := Int.mul_nonneg hcp.1 hq.1
    have hlen' : mr.tail.length ≤ mp.length := by
      rw [List.length_tail]
      rw [List.length_cons] at hlen
      omega
    rw [multRow]
    by_cases hmp : mp = []
    · subst hmp
      have hcp₀ : cp ≠ 0 := fun h => htop (congrArg some h)
      have hpos : 0 < cp * cq := Int.mul_pos (by omega) (by omega)
      rw [List.length_eq_zero_iff.mp (Nat.le_zero.mp hlen'), multRow]
      by_cases hz : (cp * cq + carry + mr.headD 0) / 100 = 0
      · rw [if_neg (fun h => h hz)]
        intro h
        have hmod : (cp * cq + carry + mr.headD 0) % 100 = 0 := Option.some.inj h
        omega
      · rw [if_pos hz]
        intro h
        have hdiv := Option.some.inj h
        exact hz ((Int.zero_add _).symm.trans hdiv)
    · have hhigh : cp * cq ≤ 99 * 99 :=
        Int.mul_le_mul (by omega) (by omega) hq.1 (by decide)
      have hcarry : Digit ((cp * cq + carry + mr.headD 0) / 100) := by
        unfold Digit
        omega
      have hlong := (multRow_digits hq mp mr.tail _ hp' hr.tail hcarry hlen').2.1
      have hrow : multRow cq mp mr.tail ((cp * cq + carry + mr.headD 0) / 100) ≠ [] := by
        intro hnil
        rw [hnil] at hlong
        exact hmp (List.length_eq_zero_iff.mp (Nat.le_zero.mp hlong))
      rw [List.getLast?_cons_of_ne_nil hrow]
      apply ih mr.tail _ hp' hr.tail hcarry hlen' hmp
      rw [List.getLast?_cons_of_ne_nil hmp] at htop
      exact htop

theorem multLoop_nil (mq : List Int) (offset : Nat) : multLoop [] mq offset [] = [] := by
  induction mq generalizing offset with
  | nil => rfl
  | cons cq mq ih =>
    rw [multLoop, multRow, if_neg (fun h => h rfl), List.take_nil, List.drop_nil]
    exact ih (offset + 1)

theorem multLoop_spec {mp : List Int} (hp : Digits mp) (hne : mp ≠ []) (mq : List Int)
    (offset : Nat) (mr : List Int) (hq : Digits mq) (hr : Digits mr) (hlo : offset ≤ mr.length)
    (hhi : mr.length ≤ offset + mp.length) :
    Digits (multLoop mp mq offset mr) ∧
      val (multLoop mp mq offset mr) = val mr + 100 ^ offset * (val mp * val mq) ∧
      (mp.getLast? ≠ some 0 → mq ≠ [] → mq.getLast? ≠ some 0 →
        (multLoop mp mq offset mr).getLast? ≠ some 0) := by
  induction mq generalizing offset mr with
  | nil =>
    refine ⟨hr, ?_, fun _ h => absurd rfl h⟩
    rw [multLoop, val, Int.mul_zero, Int.mul_zero, Int.add_zero]
  | cons cq mq ih =>
    have hcq := hq cq List.mem_cons_self
    have hq' : Digits mq := fun d hd => hq d (List.mem_cons_of_mem cq hd)
    have hzero : Digit 0 := by unfold Digit; decide
    have hdrop : Digits (mr.drop offset) := fun d hd => hr d (List.mem_of_mem_drop hd)
    have hlen : (mr.drop offset).length ≤ mp.length := by rw [List.length_drop]; omega
    obtain ⟨hrow, hrlo, hrhi⟩ := multRow_digits hcq mp (mr.drop offset) 0 hp hdrop hzero hlen
    have htake : (mr.take offset).length = offset := List.length_take_of_le hlo
    have hmp : 1 ≤ mp.length := List.length_pos_iff.mpr hne
    have hnew : Digits (mr.take offset ++ multRow cq mp (mr.drop offset) 0) :=
      List.forall_mem_append.mpr ⟨fun d hd => hr d (List.mem_of_mem_take hd), hrow⟩
    obtain ⟨hdig, hval, htop⟩ := ih (offset + 1) (mr.take offset ++ multRow cq mp (mr.drop offset) 0)
      hq' hnew (by rw [List.length_append]; omega) (by rw [List.length_append]; omega)
    rw [multLoop]
    refine ⟨hdig, ?_, fun hp₀ _ hq₀ => ?_⟩
    · have hsplit : val mr = val (mr.take offset) + 100 ^ offset * val (mr.drop offset) := by
        have h := val_append (mr.take offset) (mr.drop offset)
        rw [List.take_append_drop, htake] at h
        exact h
      rw [hval, val_append, htake, val_multRow, hsplit, val, pow_succ]
      ring
    · by_cases hmq : mq = []
      · subst hmq
        have hcq₀ : cq ≠ 0 := fun h => hq₀ (congrArg some h)
        have hrowne : multRow cq mp (mr.drop offset) 0 ≠ [] := by
          intro h
          rw [h] at hrlo
          exact absurd hrlo (by rw [List.length_nil]; omega)
        rw [multLoop, List.getLast?_append_of_ne_nil _ hrowne]
        exact multRow_top hcq hcq₀ mp _ 0 hp hdrop hzero hlen hne hp₀
      · rw [List.getLast?_cons_of_ne_nil hmq] at hq₀
        exact htop hp₀ hmq hq₀

/-- mult is exact and normalized. -/
theorem mult_spec {p q : List Int} (hp : Normal p) (hq : Normal q) :
    Normal (mult p q) ∧ val (mult p q) = val p * val q := by
  obtain ⟨hmp, hmp₀, hmpv⟩ := magnitude_spec hp
  obtain ⟨hmq, hmq₀, hmqv⟩ := magnitude_spec hq
  rw [mult]
  generalize (if isNeg p = true then chsign p else p) = mp at *
  generalize (if isNeg q = true then chsign q else q) = mq at *
  have hmr : Normal (multLoop mp mq 0 []) ∧ val (multLoop mp mq 0 []) = val mp * val mq := by
    by_cases hne : mp = []
    · subst hne
      rw [multLoop_nil]
      exact ⟨trivial, (Int.zero_mul _).symm⟩
    · obtain ⟨hdig, hval, htop⟩ := multLoop_spec hmp hne mq 0 [] hmq (by rintro _ ⟨⟩)
        (Nat.le_refl 0) (Nat.zero_le _)
      rw [pow_zero, one_mul, val, Int.zero_add] at hval
      refine ⟨hdig.normal ?_, hval⟩
      by_cases hmqn : mq = []
      · subst hmqn
        rintro ⟨⟩
      · exact htop hmp₀ hmqn hmq₀
  obtain ⟨hn, hv⟩ := hmr
  obtain ⟨hcn, hcv⟩ := chsign_spec hn
  rw [hmpv, hmqv] at hv
  rw [hv] at hcv
  cases hip : isNeg p <;> cases hiq : isNeg q <;> rw [hip, hiq] at hv hcv
  · exact ⟨hn, hv⟩
  · refine ⟨hcn, hcv.trans ?_⟩
    simp only [Bool.false_eq_true, if_false, if_true]
    ring
  · refine ⟨hcn, hcv.trans ?_⟩
    simp only [Bool.false_eq_true, if_false, if_true]
    ring
  · refine ⟨hn, hv.trans ?_⟩
    simp only [if_true]
    ring

/-- A normalized block of the program. -/
structure Number where
  digits : List Int
  normal : Normal digits

/-- The block is the normalized one of the number. -/
def Represents (p : List Int) (n : Int) : Prop := Normal p ∧ val p = n

/-- Sum, negation and product are the normalized ones, unless the sum is -1. -/
theorem arithmetic_exact_iff (a b : Number) :
    (Represents (add a.digits b.digits) (val a.digits + val b.digits) ∧
      Represents (chsign a.digits) (-val a.digits) ∧
      Represents (mult a.digits b.digits) (val a.digits * val b.digits)) ↔
    val a.digits + val b.digits ≠ -1 := by
  obtain ⟨hval, hnormal⟩ := add_spec a.normal b.normal
  rw [← hnormal]
  constructor
  · exact fun h => h.1.1
  · exact fun h => ⟨⟨h, hval⟩, chsign_spec a.normal, mult_spec a.normal b.normal⟩

/-- Nothing added to -1 gets a 99 back. -/
theorem add_minus_one : Normal [-1] ∧ Normal [] ∧ add [-1] [] = [99, -1] ∧ ¬ Normal [99, -1] := by
  refine ⟨⟨trivial, .inl ⟨rfl, .inl rfl⟩⟩, trivial, rfl, fun h => ?_⟩
  obtain ⟨-, ⟨hnil, -⟩ | ⟨-, -, hno⟩⟩ := h
  · exact nomatch hnil
  · exact hno ⟨rfl, rfl⟩

end Svr32.Dc
