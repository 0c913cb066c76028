import Svr32.Rfs.Glid
import Svr32.Lib.System

/-! rglid against glid, with and without the cache. -/
namespace Svr32.Rfs
open Svr32.Lib
variable {m m' : IdMap} {idt idt' : Option IdMap} {v x l r i n low : Nat}

theorem firstAt_spec (p : Nat → Bool) (n low : Nat) : match firstAt p n low with
    | some i => low ≤ i ∧ i < low + n ∧ p i = true ∧ ∀ j, low ≤ j → j < i → p j = false
    | none => ∀ j, low ≤ j → j < low + n → p j = false := by
  induction n generalizing low with
  | zero => exact fun j hj hj' => by omega
  | succ n ih =>
    rw [firstAt]
    by_cases hp : p low = true
    · rw [if_pos hp]
      exact ⟨Nat.le_refl _, by omega, hp, fun j hj hj' => by omega⟩
    · rw [if_neg hp]
      have hrest := ih (low + 1)
      rcases hf : firstAt p n (low + 1) with _ | i
      · rw [hf] at hrest
        intro j hj hj'
        rcases Nat.lt_or_eq_of_le hj with hlt | rfl
        · exact hrest j hlt (by omega)
        · exact Bool.eq_false_iff.mpr hp
      · rw [hf] at hrest
        obtain ⟨h1, h2, h3, h4⟩ := hrest
        refine ⟨by omega, by omega, h3, fun j hj hj' => ?_⟩
        rcases Nat.lt_or_eq_of_le hj with hlt | rfl
        · exact h4 j hlt hj'
        · exact Bool.eq_false_iff.mpr hp

def Mapped (m : IdMap) (v : Nat) : Prop := ∃ x, Maps m v x

/-- glid is the mapping of the table, and else the default. -/
theorem glid_spec (h : Ordered m) (v : Nat) :
    Maps m v (glid (some m) v) ∨ ¬ Mapped m v ∧ glid (some m) v = unmapped m v := by
  by_cases hs : m.iSize = 0
  · refine .inr ⟨fun ⟨x, hx⟩ => ?_, if_pos hs⟩
    have hno : ∀ i, ¬ InTab m i := fun i hi => by
      obtain ⟨h1, h2⟩ := hi
      omega
    cases hx with
    | one hi => exact hno _ hi
    | range hi => exact hno _ hi
  · have hspec := glidSearch_spec h hs v
    have hglid : glid (some m) v = (glidSearch m v).getD (unmapped m v) := if_neg hs
    rw [hglid]
    rcases hf : glidSearch m v with _ | r
    · rw [hf] at hspec
      exact .inr ⟨fun ⟨x, hx⟩ => hspec x hx, rfl⟩
    · rw [hf] at hspec
      exact .inl hspec

theorem glid_mapped (h : Ordered m) (hv : Maps m v x) : glid (some m) v = x := by
  rcases glid_spec h v with hm | ⟨hno, -⟩
  · exact hm.unique h hv
  · exact absurd ⟨x, hv⟩ hno

theorem glid_unmapped (h : Ordered m) (hv : ¬ Mapped m v) : glid (some m) v = unmapped m v := by
  rcases glid_spec h v with hm | ⟨-, he⟩
  · exact absurd ⟨_, hm⟩ hv
  · exact he

/- An entry by which a local id is found: its own, or the start of a range. -/
def Gives (m : IdMap) (i l : Nat) : Prop :=
  (m.tab i).iLoc = l ∨ (m.tab i).iLoc = UF ∧ (m.tab (i + 1)).iLoc = l

instance (m : IdMap) (i l : Nat) : Decidable (Gives m i l) := inferInstanceAs
  (Decidable ((m.tab i).iLoc = l ∨ (m.tab i).iLoc = UF ∧ (m.tab (i + 1)).iLoc = l))

theorem Gives.maps (h : Valid m) (hi : InTab m i) (hl : l ≠ UF) (hg : Gives m i l) :
    Maps m (m.tab i).iRem l := by
  by_cases hu : (m.tab i).iLoc = UF
  · have hend : (m.tab (i + 1)).iLoc = l := by
      rcases hg with he | ⟨-, he⟩
      · exact absurd (he.symm.trans hu) hl
      · exact he
    obtain ⟨hi1, -⟩ := h.range i hi hu
    have hlt := h.sorted i (i + 1) hi hi1 (by omega)
    have hm := Maps.range (v := (m.tab i).iRem) hi hu (Nat.le_refl _) (by omega)
    rw [hend] at hm
    exact hm
  · have hown : (m.tab i).iLoc = l := by
      rcases hg with he | ⟨he, -⟩
      · exact he
      · exact absurd he hu
    have hm := Maps.one hi rfl hu
    rw [hown] at hm
    exact hm

theorem Maps.gives (hm : Maps m v l) : ∃ i, InTab m i ∧ Gives m i l := by
  cases hm with
  | one hi => exact ⟨_, hi, .inl rfl⟩
  | range hi hu => exact ⟨_, hi, .inr ⟨hu, rfl⟩⟩

/- The first entry by which a local id is found. -/
def FirstGives (m : IdMap) (i l : Nat) : Prop :=
  InTab m i ∧ Gives m i l ∧ ∀ j, InTab m j → j < i → ¬ Gives m j l

theorem inTable_spec (m : IdMap) (l : Nat) : match inTable m l with
    | some i => FirstGives m i l
    | none => ∀ i, InTab m i → ¬ Gives m i l := by
  have hspec := firstAt_spec (fun low => (m.tab low).iLoc = l ∨ (m.tab low).iLoc = UF ∧
    (m.tab (low + 1)).iLoc = l) m.iSize TABLE
  have heq : inTable m l = firstAt (fun low => (m.tab low).iLoc = l ∨ (m.tab low).iLoc = UF ∧
    (m.tab (low + 1)).iLoc = l) m.iSize TABLE := rfl
  rw [heq]
  rcases hf : firstAt (fun low => (m.tab low).iLoc = l ∨ (m.tab low).iLoc = UF ∧
    (m.tab (low + 1)).iLoc = l) m.iSize TABLE with _ | i
  · rw [hf] at hspec
    exact fun i hi hg => of_decide_eq_false (hspec i hi.1 hi.2) hg
  · rw [hf] at hspec
    obtain ⟨h1, h2, h3, h4⟩ := hspec
    exact ⟨⟨h1, h2⟩, of_decide_eq_true h3, fun j hj hlt hg =>
      of_decide_eq_false (h4 j hj.1 hlt) hg⟩

/- What rglid answers without its cache. -/
def uncached (idt : Option IdMap) (l : Nat) : Nat :=
  match idt with
  | none => (rglid none l).1
  | some m => if m.iSize = 0 then (rglid (some m) l).1 else (rglidSearch m l).1

/- What is in the cache are answers. -/
structure Good (m : IdMap) : Prop where
  valid : Valid m
  cache : ∀ k, HEADSIZE ≤ k → k < TABLE →
    (m.tab k).iLoc = UF ∨ (m.tab k).iRem = (rglidSearch m (m.tab k).iLoc).1

/- The tables of two maps are the same. -/
structure SameTable (m m' : IdMap) : Prop where
  default : m'.iDefault = m.iDefault
  size : m'.iSize = m.iSize
  cend : m'.iCend = m.iCend
  tab : ∀ i, TABLE ≤ i → m'.tab i = m.tab i

theorem SameTable.symm (h : SameTable m m') : SameTable m' m :=
  ⟨h.default.symm, h.size.symm, h.cend.symm, fun i hi => (h.tab i hi).symm⟩

theorem SameTable.inTab (h : SameTable m m') : InTab m' i ↔ InTab m i := by
  rw [InTab, InTab, h.size]

theorem SameTable.valid (h : SameTable m m') (hv : Valid m)
    (hn : HEADSIZE ≤ m'.iNext ∧ m'.iNext < TABLE) : Valid m' := by
  refine ⟨h.cend.trans hv.cend, hn, fun i j hi hj hlt => ?_, fun i hi hu => ?_⟩
  · rw [h.tab i hi.1, h.tab j hj.1]
    exact hv.sorted i j (h.inTab.mp hi) (h.inTab.mp hj) hlt
  · rw [h.tab i hi.1] at hu
    obtain ⟨h1, h2⟩ := hv.range i (h.inTab.mp hi) hu
    refine ⟨h.inTab.mpr h1, ?_⟩
    rw [h.tab (i + 1) h1.1]
    exact h2

theorem SameTable.maps (h : SameTable m m') (hm : Maps m v x) : Maps m' v x := by
  cases hm with
  | @one i hi hv hu =>
    have hloc := Maps.one (m := m') (v := v) (h.inTab.mpr hi) (by rw [h.tab i hi.1]; exact hv)
      (by rw [h.tab i hi.1]; exact hu)
    rw [h.tab i hi.1] at hloc
    exact hloc
  | @range i hi hu h1 h2 =>
    have hi1 := hi.1
    have hloc := Maps.range (m := m') (v := v) (h.inTab.mpr hi) (by rw [h.tab i hi.1]; exact hu)
      (by rw [h.tab i hi.1]; exact h1) (by rw [h.tab (i + 1) (by omega)]; exact h2)
    rw [h.tab (i + 1) (by omega)] at hloc
    exact hloc

theorem SameTable.unmapped (h : SameTable m m') (v : Nat) :
    unmapped m' v = unmapped m v := by
  rw [Rfs.unmapped, Rfs.unmapped, h.default]

theorem SameTable.glid (h : SameTable m m') (hv : Valid m) (hv' : Valid m') (v : Nat) :
    glid (some m') v = glid (some m) v := by
  rcases glid_spec hv.ordered v with hm | ⟨hno, he⟩
  · exact glid_mapped hv'.ordered (h.maps hm)
  · rw [he, glid_unmapped hv'.ordered fun ⟨x, hx⟩ => hno ⟨x, h.symm.maps hx⟩, h.unmapped]

theorem firstAt_congr {p q : Nat → Bool} (h : ∀ i, low ≤ i → q i = p i) :
    firstAt q n low = firstAt p n low := by
  induction n generalizing low with
  | zero => rfl
  | succ n ih =>
    rw [firstAt, firstAt, h low (Nat.le_refl _), ih fun i hi => h i (by omega)]

theorem SameTable.inTable (h : SameTable m m') (l : Nat) : inTable m' l = inTable m l := by
  rw [Rfs.inTable, Rfs.inTable, h.size]
  refine firstAt_congr fun i hi => ?_
  have ht : TABLE ≤ i := hi
  rw [h.tab i ht, h.tab (i + 1) (by omega)]

/-- The answer depends on the table only. -/
theorem SameTable.answer (h : SameTable m m') (hv : Valid m) (hv' : Valid m') (l : Nat) :
    (rglidSearch m' l).1 = (rglidSearch m l).1 := by
  have hspec := inTable_spec m l
  rw [rglidSearch, rglidSearch, h.inTable]
  rcases hf : Rfs.inTable m l with _ | i
  · simp only [h.glid hv hv', h.unmapped]
    split <;> rfl
  · rw [hf] at hspec
    exact congrArg IdTab.iRem (h.tab i hspec.1.1)

theorem remember_same (h : Valid m) (l r : Nat) : SameTable m (remember m l r) :=
  ⟨rfl, rfl, rfl, fun i hi => by
    have hn := h.next.2
    exact Function.update_of_ne (by omega) _ _⟩

theorem Good.remember (h : Good m) (hr : r = (rglidSearch m l).1) : Good (remember m l r) := by
  have hsame := remember_same h.valid l r
  have hcend := h.valid.cend
  have hnext := h.valid.next
  have hH : HEADSIZE < TABLE := by decide
  have hvalid : Valid (Rfs.remember m l r) := hsame.valid h.valid (by
    simp only [Rfs.remember]
    split <;> omega)
  refine ⟨hvalid, fun k hk hk' => ?_⟩
  rw [hsame.answer h.valid hvalid]
  by_cases he : k = m.iNext
  · subst he
    simp only [Rfs.remember, Function.update_self]
    exact .inr hr
  · have hkeep : (Rfs.remember m l r).tab k = m.tab k := Function.update_of_ne he _ _
    rw [hkeep]
    exact h.cache k hk hk'

/-- The counters do not matter. -/
theorem Good.counters (h : Good m) (hs : SameTable m m') (ht : m'.tab = m.tab)
    (hn : m'.iNext = m.iNext) : Good m' := by
  have hv : Valid m' := hs.valid h.valid (by rw [hn]; exact h.valid.next)
  refine ⟨hv, fun k hk hk' => ?_⟩
  rw [hs.answer h.valid hv, ht]
  exact h.cache k hk hk'

/-- The cache is looked through before the table. -/
theorem rglid_eq (hs : m.iSize ≠ 0) (hm : m' = { m with iTries := m.iTries + 1 }) (l : Nat) :
    rglid (some m) l = match inCache m' l with
      | some low => ((m'.tab low).iRem, some { m' with iHits := m'.iHits + 1 })
      | none => ((rglidSearch m' l).1, some (rglidSearch m' l).2) := by
  subst hm
  exact if_neg hs

/-- A call of rglid gives the answer, from the cache or not, and keeps the cache right. -/
theorem Good.rglid (h : Good m) (hl : l ≠ UF) :
    (rglid (some m) l).1 = uncached (some m) l ∧
      ∃ m', (rglid (some m) l).2 = some m' ∧ Good m' ∧ SameTable m m' := by
  have hself : SameTable m m := ⟨rfl, rfl, rfl, fun _ _ => rfl⟩
  rw [uncached]
  by_cases hs : m.iSize = 0
  · rw [if_pos hs]
    refine ⟨rfl, m, ?_, h, hself⟩
    rw [Rfs.rglid, if_pos hs]
  · rw [if_neg hs]
    obtain ⟨m₁, hm₁⟩ : ∃ m₁, m₁ = { m with iTries := m.iTries + 1 } := ⟨_, rfl⟩
    have hsame₁ : SameTable m m₁ := by
      rw [hm₁]
      exact ⟨rfl, rfl, rfl, fun _ _ => rfl⟩
    have hgood₁ : Good m₁ := h.counters hsame₁ (by rw [hm₁]) (by rw [hm₁])
    have hv₁ : Valid m₁ := hgood₁.valid
    have hans₁ := hsame₁.answer h.valid hv₁ l
    have hcache := firstAt_spec (fun low => (m₁.tab low).iLoc = l) CACHESIZE HEADSIZE
    rw [rglid_eq hs hm₁]
    rcases hf : inCache m₁ l with _ | k
    · refine ⟨hans₁, (rglidSearch m₁ l).2, rfl, ?_⟩
      rw [rglidSearch]
      have hspec := inTable_spec m₁ l
      have htrans : ∀ r, SameTable m (Rfs.remember m₁ l r) := fun r => by
        have hr := remember_same hv₁ l r
        exact ⟨hr.default.trans hsame₁.default, hr.size.trans hsame₁.size,
          hr.cend.trans hsame₁.cend, fun i hi => (hr.tab i hi).trans (hsame₁.tab i hi)⟩
      rcases ht : inTable m₁ l with _ | i
      · by_cases hg : glid (some m₁) l ≠ l
        · simp only [if_pos hg]
          exact ⟨hgood₁.remember (by rw [rglidSearch, ht]; simp only [if_pos hg]), htrans _⟩
        · simp only [if_neg hg]
          exact ⟨hgood₁, hsame₁⟩
      · exact ⟨hgood₁.remember (by rw [rglidSearch, ht]), htrans _⟩
    · rw [inCache] at hf
      rw [hf] at hcache
      obtain ⟨h1, h2, h3, -⟩ := hcache
      have hloc : (m₁.tab k).iLoc = l := of_decide_eq_true h3
      have hans : (m₁.tab k).iRem = (rglidSearch m₁ l).1 := by
        rcases hgood₁.cache k h1 h2 with hu | hans
        · exact absurd (hloc.symm.trans hu) hl
        · rw [hloc] at hans
          exact hans
      exact ⟨hans.trans hans₁, _, rfl,
        hgood₁.counters ⟨rfl, rfl, rfl, fun _ _ => rfl⟩ rfl rfl,
        hsame₁.default, hsame₁.size, hsame₁.cend, hsame₁.tab⟩

end Svr32.Rfs
