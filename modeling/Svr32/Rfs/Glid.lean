import Mathlib.Logic.Function.Basic

/-! nudnix/auth.c: glid and rglid over the id map that is chosen for a machine. An id is an
unsigned short; the map is indexed by entries from its header on. -/
namespace Svr32.Rfs

def MAXUID : Nat := 60000
def OTHERID : Nat := MAXUID + 1
def NO_ACCESS : Nat := MAXUID + 2
def UF : Nat := 0xFFFF
def HEADSIZE : Nat := 4
def CACHESIZE : Nat := 5

structure IdTab where
  iRem : Nat
  iLoc : Nat

/- The header, and the entries behind it: the cache, then the table. -/
structure IdMap where
  iDefault : Nat
  iSize : Nat
  iCend : Nat
  iNext : Nat
  iTries : Nat
  iHits : Nat
  tab : Nat → IdTab

/- What setidmap builds: the table is copied behind the cache, which is marked unused. -/
def setidmap (defval : Nat) (map : List IdTab) : IdMap where
  iDefault := defval
  iSize := map.length
  iCend := HEADSIZE + CACHESIZE
  iNext := HEADSIZE
  iTries := 0
  iHits := 0
  tab i := if i < HEADSIZE + CACHESIZE then ⟨UF, UF⟩
    else map.getD (i - (HEADSIZE + CACHESIZE)) ⟨0, 0⟩

/- What check() says: -1, 1, or 0 with a result. -/
inductive Check
  | lower
  | higher
  | found (r : Nat)

/-- check -/
def check (t : Nat → IdTab) (c v : Nat) : Check :=
  if (t c).iRem = v then
    if (t c).iLoc = UF then .found (t (c + 1)).iLoc else .found (t c).iLoc
  else if (t c).iRem < v then
    if (t c).iLoc = UF ∧ v ≤ (t (c + 1)).iRem then .found (t (c + 1)).iLoc else .lower
  else if (t (c - 1)).iLoc = UF ∧ (t (c - 1)).iRem ≤ v then .found (t c).iLoc
  else .higher

/- while (high - low > 1); each turn brings them closer, so `n` turns are enough. -/
def glidLoop (t : Nat → IdTab) (rid : Nat) : Nat → Nat → Nat → Option Nat
  | 0, _, _ => none
  | n + 1, low, high =>
    if 1 < high - low then
      let middle := (high - low) / 2 + low
      match check t middle rid with
      | .lower => glidLoop t rid n middle high
      | .higher => glidLoop t rid n low middle
      | .found r => some r
    else none

/- The search of glid, in a table that is not empty. -/
def glidSearch (m : IdMap) (rid : Nat) : Option Nat :=
  let low := m.iCend
  let high := m.iSize + m.iCend - 1
  if rid < (m.tab low).iRem ∨ (m.tab high).iRem < rid then none
  else
    match check m.tab low rid with
    | .found r => some r
    | _ =>
      match check m.tab high rid with
      | .found r => some r
      | _ => glidLoop m.tab rid (high - low) low high

/- What an id is that is not in the table. -/
def unmapped (m : IdMap) (rid : Nat) : Nat := if m.iDefault ≠ 0 then m.iDefault else rid

/-- glid -/
def glid (idt : Option IdMap) (rid : Nat) : Nat :=
  match idt with
  | none => OTHERID
  | some m => if m.iSize = 0 then unmapped m rid else (glidSearch m rid).getD (unmapped m rid)

/- for (..; low < high; low++), `n` entries from `low` on. -/
def firstAt (p : Nat → Bool) : Nat → Nat → Option Nat
  | 0, _ => none
  | n + 1, low => if p low then some low else firstAt p n (low + 1)

def inCache (m : IdMap) (rid : Nat) : Option Nat :=
  firstAt (fun low => (m.tab low).iLoc = rid) CACHESIZE HEADSIZE

def inTable (m : IdMap) (rid : Nat) : Option Nat :=
  firstAt (fun low => (m.tab low).iLoc = rid ∨ (m.tab low).iLoc = UF ∧ (m.tab (low + 1)).iLoc = rid)
    m.iSize (HEADSIZE + CACHESIZE)

/- The answer goes into the cache. -/
def remember (m : IdMap) (rid ret : Nat) : IdMap :=
  { m with
    tab := Function.update m.tab m.iNext ⟨ret, rid⟩
    iNext := if m.iNext < m.iCend - 1 then m.iNext + 1 else HEADSIZE }

/- rglid, past the cache. -/
def rglidSearch (m : IdMap) (rid : Nat) : Nat × IdMap :=
  match inTable m rid with
  | some low => ((m.tab low).iRem, remember m rid (m.tab low).iRem)
  | none =>
    if glid (some m) rid ≠ rid then (NO_ACCESS, remember m rid NO_ACCESS)
    else (unmapped m rid, m)

/-- rglid -/
def rglid (idt : Option IdMap) (rid : Nat) : Nat × Option IdMap :=
  match idt with
  | none => (if rid ≠ OTHERID then NO_ACCESS else OTHERID, none)
  | some m =>
    if m.iSize = 0 then
      (if m.iDefault ≠ 0 ∧ rid ≠ m.iDefault then NO_ACCESS else unmapped m rid, some m)
    else
      let m := { m with iTries := m.iTries + 1 }
      match inCache m rid with
      | some low => ((m.tab low).iRem, some { m with iHits := m.iHits + 1 })
      | none =>
        let (ret, m) := rglidSearch m rid
        (ret, some m)

end Svr32.Rfs

/-! What glid computes: the entry or the range of the id, and else the default. -/
namespace Svr32.Rfs
variable {m : IdMap} {v x y c low high n : Nat}

def TABLE : Nat := HEADSIZE + CACHESIZE

/- A place in the table. -/
def InTab (m : IdMap) (i : Nat) : Prop := TABLE ≤ i ∧ i < TABLE + m.iSize

/-- A table is in order, and every range has its end. -/
structure Valid (m : IdMap) : Prop where
  cend : m.iCend = TABLE
  next : HEADSIZE ≤ m.iNext ∧ m.iNext < TABLE
  sorted : ∀ i j, InTab m i → InTab m j → i < j → (m.tab i).iRem < (m.tab j).iRem
  range : ∀ i, InTab m i → (m.tab i).iLoc = UF →
    InTab m (i + 1) ∧ (m.tab (i + 1)).iLoc ≠ UF

/-- A remote id is mapped, by an entry of its own or by a range. -/
inductive Maps (m : IdMap) (v : Nat) : Nat → Prop
  | one {i : Nat} : InTab m i → (m.tab i).iRem = v → (m.tab i).iLoc ≠ UF →
    Maps m v (m.tab i).iLoc
  | range {i : Nat} : InTab m i → (m.tab i).iLoc = UF → (m.tab i).iRem ≤ v →
    v ≤ (m.tab (i + 1)).iRem → Maps m v (m.tab (i + 1)).iLoc

/- The same with ranges that may be of one id: only an end of a range or an entry of its
own is below all that comes after it. -/
structure Ordered (m : IdMap) : Prop where
  cend : m.iCend = TABLE
  sorted : ∀ i j, InTab m i → InTab m j → i < j → (m.tab i).iRem ≤ (m.tab j).iRem
  strict : ∀ i j, InTab m i → InTab m j → i < j → (m.tab i).iLoc ≠ UF →
    (m.tab i).iRem < (m.tab j).iRem
  range : ∀ i, InTab m i → (m.tab i).iLoc = UF →
    InTab m (i + 1) ∧ (m.tab (i + 1)).iLoc ≠ UF

theorem Valid.ordered (h : Valid m) : Ordered m :=
  ⟨h.cend, fun i j hi hj hlt => Nat.le_of_lt (h.sorted i j hi hj hlt),
    fun i j hi hj hlt _ => h.sorted i j hi hj hlt, h.range⟩

theorem Ordered.lt (h : Ordered m) {i j : Nat} (hi : InTab m i) (hj : InTab m j)
    (hv : (m.tab i).iRem < (m.tab j).iRem) : i < j := by
  by_contra hle
  rcases Nat.lt_or_eq_of_le (Nat.le_of_not_lt hle) with hlt | rfl
  · have hs := h.sorted j i hj hi hlt
    omega
  · omega

theorem Ordered.one_unique (h : Ordered m) {i j : Nat} (hi : InTab m i) (hj : InTab m j)
    (hiu : (m.tab i).iLoc ≠ UF) (hju : (m.tab j).iLoc ≠ UF)
    (hv : (m.tab i).iRem = (m.tab j).iRem) : i = j := by
  rcases Nat.lt_trichotomy i j with hlt | he | hlt
  · have hs := h.strict i j hi hj hlt hiu
    omega
  · exact he
  · have hs := h.strict j i hj hi hlt hju
    omega

/-- An entry whose id is in a range is the end of the range. -/
theorem Ordered.one_range (h : Ordered m) {i j : Nat} (hi : InTab m i) (hj : InTab m j)
    (hiu : (m.tab i).iLoc ≠ UF) (hju : (m.tab j).iLoc = UF)
    (h1 : (m.tab j).iRem ≤ (m.tab i).iRem) (h2 : (m.tab i).iRem ≤ (m.tab (j + 1)).iRem) :
    i = j + 1 := by
  obtain ⟨hj1, hjend⟩ := h.range j hj hju
  have hne : i ≠ j := fun he => hiu (he ▸ hju)
  by_contra hne1
  rcases Nat.lt_or_gt_of_ne hne with hlt | hgt
  · have hs := h.strict i j hi hj hlt hiu
    omega
  · have hs := h.strict (j + 1) i hj1 hi (by omega) hjend
    omega

/-- Two ranges that have an id in common are one. -/
theorem Ordered.range_unique (h : Ordered m) {i j : Nat} (hi : InTab m i) (hj : InTab m j)
    (hiu : (m.tab i).iLoc = UF) (hju : (m.tab j).iLoc = UF) (hiv : (m.tab i).iRem ≤ v)
    (hjv : v ≤ (m.tab (j + 1)).iRem) : i ≤ j := by
  obtain ⟨hj1, hjend⟩ := h.range j hj hju
  by_contra hlt
  have hne : i ≠ j + 1 := fun he => hjend (he ▸ hiu)
  have hs := h.strict (j + 1) i hj1 hi (by omega) hjend
  omega

theorem Maps.unique (h : Ordered m) (hx : Maps m v x) (hy : Maps m v y) : x = y := by
  cases hx with
  | @one i hi hv hu =>
    cases hy with
    | @one j hj hv' hu' => rw [h.one_unique hi hj hu hu' (by omega)]
    | @range j hj hju h1 h2 => rw [h.one_range hi hj hu hju (by omega) (by omega)]
  | @range i hi hiu h1 h2 =>
    cases hy with
    | @one j hj hv' hu' => rw [h.one_range hj hi hu' hiu (by omega) (by omega)]
    | @range j hj hju h1' h2' =>
      have hle1 := h.range_unique hi hj hiu hju h1 h2'
      have hle2 := h.range_unique hj hi hju hiu h1' h2
      have heq : i = j := by omega
      rw [heq]

/-- check, at a place whose predecessor is in the table too, or which is not above the id. -/
theorem check_spec (h : Ordered m) (hc : InTab m c)
    (hpre : InTab m (c - 1) ∧ 1 ≤ c ∨ (m.tab c).iRem ≤ v) :
    match check m.tab c v with
    | .lower => (m.tab c).iRem < v ∧ ¬ ((m.tab c).iLoc = UF ∧ v ≤ (m.tab (c + 1)).iRem)
    | .higher => v < (m.tab c).iRem
    | .found r => Maps m v r := by
  rw [check]
  by_cases h1 : (m.tab c).iRem = v
  · rw [if_pos h1]
    by_cases hu : (m.tab c).iLoc = UF
    · rw [if_pos hu]
      obtain ⟨hc1, -⟩ := h.range c hc hu
      have hlt := h.sorted c (c + 1) hc hc1 (by omega)
      exact .range hc hu (by omega) (by omega)
    · rw [if_neg hu]
      exact .one hc h1 hu
  · rw [if_neg h1]
    by_cases h2 : (m.tab c).iRem < v
    · rw [if_pos h2]
      by_cases hr : (m.tab c).iLoc = UF ∧ v ≤ (m.tab (c + 1)).iRem
      · rw [if_pos hr]
        exact .range hc hr.1 (by omega) hr.2
      · rw [if_neg hr]
        exact ⟨h2, hr⟩
    · rw [if_neg h2]
      by_cases hr : (m.tab (c - 1)).iLoc = UF ∧ (m.tab (c - 1)).iRem ≤ v
      · rw [if_pos hr]
        rcases hpre with ⟨hp, h1c⟩ | hle
        · have hsub : c - 1 + 1 = c := by omega
          have hmap := Maps.range hp hr.1 hr.2 (by rw [hsub]; omega)
          rw [hsub] at hmap
          exact hmap
        · omega
      · rw [if_neg hr]
        omega

/- Between two places nothing is left for the id. -/
structure Between (m : IdMap) (v low high : Nat) : Prop where
  left : InTab m low
  right : InTab m high
  below : (m.tab low).iRem < v ∧ ¬ ((m.tab low).iLoc = UF ∧ v ≤ (m.tab (low + 1)).iRem)
  above : v < (m.tab high).iRem

/-- Neighbours have no id between them. -/
theorem Between.none (h : Ordered m) (hb : Between m v low high) (hn : high ≤ low + 1) :
    ¬ Maps m v x := by
  intro hx
  obtain ⟨h1, h2⟩ := hb.below
  have h3 := hb.above
  cases hx with
  | @one i hi hv hu =>
    have hlow := h.lt hb.left hi (by omega)
    have hhigh := h.lt hi hb.right (by omega)
    omega
  | @range i hi hiu hle hge =>
    obtain ⟨hi1, -⟩ := h.range i hi hiu
    have hhigh := h.lt hi hb.right (by omega)
    have hlow := h.lt hb.left hi1 (by omega)
    have heq : i = low := by omega
    subst heq
    exact h2 ⟨hiu, hge⟩

theorem glidLoop_spec (h : Ordered m) (hb : Between m v low high) (hn : high - low ≤ n)
    (hle : low < high) : match glidLoop m.tab v n low high with
      | some r => Maps m v r
      | none => ∀ x, ¬ Maps m v x := by
  induction n generalizing low high with
  | zero => omega
  | succ n ih =>
    rw [glidLoop]
    by_cases h1 : 1 < high - low
    · rw [if_pos h1]
      have hlow := hb.left
      have hhigh := hb.right
      have hmid : InTab m ((high - low) / 2 + low) := ⟨by
        have := hlow.1
        omega, by
        have := hhigh.2
        omega⟩
      have hpre : InTab m ((high - low) / 2 + low - 1) := ⟨by
        have := hlow.1
        omega, by
        have := hhigh.2
        omega⟩
      have hcheck := check_spec (v := v) h hmid (.inl ⟨hpre, by omega⟩)
      rcases hc : check m.tab ((high - low) / 2 + low) v with _ | _ | r
      · rw [hc] at hcheck
        simp only [hc]
        exact ih ⟨hmid, hhigh, hcheck, hb.above⟩ (by omega) (by omega)
      · rw [hc] at hcheck
        simp only [hc]
        exact ih ⟨hlow, hmid, hb.below, hcheck⟩ (by omega) (by omega)
      · rw [hc] at hcheck
        simp only [hc]
        exact hcheck
    · rw [if_neg h1]
      exact fun x => hb.none h (by omega)

/-- The search finds the mapping of an id, if there is one. -/
theorem glidSearch_spec (h : Ordered m) (hs : m.iSize ≠ 0) (v : Nat) :
    match glidSearch m v with
    | some r => Maps m v r
    | none => ∀ x, ¬ Maps m v x := by
  have hlow : InTab m TABLE := ⟨Nat.le_refl _, by omega⟩
  have hhigh : InTab m (m.iSize + TABLE - 1) := ⟨by omega, by omega⟩
  rw [glidSearch]
  simp only [h.cend]
  have hfirst : ∀ i, InTab m i → (m.tab TABLE).iRem ≤ (m.tab i).iRem := fun i hi => by
    rcases Nat.lt_or_eq_of_le hi.1 with hlt | rfl
    · exact h.sorted TABLE i hlow hi hlt
    · exact Nat.le_refl _
  have hlast : ∀ i, InTab m i → (m.tab i).iRem ≤ (m.tab (m.iSize + TABLE - 1)).iRem :=
    fun i hi => by
      have hi2 := hi.2
      by_cases heq : i = m.iSize + TABLE - 1
      · subst heq
        exact Nat.le_refl _
      · exact h.sorted i (m.iSize + TABLE - 1) hi hhigh (by omega)
  by_cases hout : v < (m.tab TABLE).iRem ∨ (m.tab (m.iSize + TABLE - 1)).iRem < v
  · rw [if_pos hout]
    intro x hx
    cases hx with
    | @one i hi hv hu =>
      have h1 := hfirst i hi
      have h2 := hlast i hi
      omega
    | @range i hi hiu hle hge =>
      obtain ⟨hi1, -⟩ := h.range i hi hiu
      have h1 := hfirst i hi
      have h2 := hlast (i + 1) hi1
      omega
  · rw [if_neg hout]
    have hc1 := check_spec (v := v) h hlow (.inr (by omega))
    rcases he1 : check m.tab TABLE v with _ | _ | r
    · rw [he1] at hc1
      have hne : TABLE < m.iSize + TABLE - 1 := by
        have hlt := hc1.1
        have hle : (m.tab TABLE).iRem < (m.tab (m.iSize + TABLE - 1)).iRem := by omega
        by_contra hge
        have heq : m.iSize + TABLE - 1 = TABLE := by omega
        rw [heq] at hle
        omega
      have hc2 := check_spec (v := v) h hhigh (.inl ⟨⟨by omega, by omega⟩, by omega⟩)
      rcases he2 : check m.tab (m.iSize + TABLE - 1) v with _ | _ | r
      · rw [he2] at hc2
        have hlt := hc2.1
        omega
      · rw [he2] at hc2
        exact glidLoop_spec h ⟨hlow, hhigh, hc1, hc2⟩ (Nat.le_refl _) hne
      · rw [he2] at hc2
        exact hc2
    · rw [he1] at hc1
      simp only at hc1
      omega
    · rw [he1] at hc1
      exact hc1

end Svr32.Rfs
