import Svr32.Swapalloc.Table
import Mathlib.Data.Fin.Basic

/-! What swalloc finds is free, in a file that may be allocated from. -/
namespace Svr32.Swapalloc
variable {D : Type} {u : List Nat} {size r p q b n : Nat} {e pg : Int}
  {st st' : Swpt} {smi smi' : Smi} {tab tab' : Smi → Swpt} {swappg : Int}

/- A number of pages that nobody uses. -/
def Free (u : List Nat) (b n : Nat) : Prop := ∀ i < n, u[b + i]? = some 0

theorem contig_spec (h : contig u r p = (q, true)) : q = p + r ∧ Free u p r := by
  induction r generalizing p with
  | zero =>
    cases h
    exact ⟨rfl, fun i hi => absurd hi (Nat.not_lt_zero i)⟩
  | succ r ih =>
    rw [contig] at h
    by_cases h0 : u[p]? = some 0
    · rw [if_pos h0] at h
      obtain ⟨hq, hfree⟩ := ih h
      refine ⟨by omega, fun i hi => ?_⟩
      cases i with
      | zero => exact h0
      | succ i =>
        have hnext := hfree i (Nat.lt_of_succ_lt_succ hi)
        rwa [Nat.add_assoc, Nat.add_comm 1 i] at hnext
    · rw [if_neg h0] at h
      cases h

theorem findLoop_spec (hsize : 0 < size) (h : findLoop u size e r p = some (b, q)) :
    (b : Int) ≤ e ∧ q = b + size ∧ Free u b size := by
  induction r generalizing p with
  | zero => cases h
  | succ r ih =>
    rw [findLoop] at h
    by_cases hlt : e < p
    · rw [if_pos hlt] at h
      cases h
    · rw [if_neg hlt] at h
      by_cases h0 : u[p]? = some 0
      · rw [if_pos h0] at h
        cases hc : contig u (size - 1) (p + 1) with
        | mk p' ok =>
          rw [hc] at h
          cases ok with
          | false => exact ih h
          | true =>
            cases h
            obtain ⟨hq, hfree⟩ := contig_spec hc
            refine ⟨by omega, by omega, fun i hi => ?_⟩
            cases i with
            | zero => exact h0
            | succ i =>
              have hnext := hfree i (by omega)
              rwa [Nat.add_assoc, Nat.add_comm 1 i] at hnext
      · rw [if_neg h0] at h
        exact ih h

/-- swapfind returns the first of the pages that it found free, and moves only st_next. -/
theorem swapfind_spec (hsize : 0 < size) (h : swapfind u size st = (pg, st')) :
    (∃ n, st' = { st with stNext := n }) ∧
    (pg < 0 ∨ ∃ b : Nat, pg = b ∧ Free u b size) := by
  unfold swapfind at h
  cases hf : findFrom u size (st.stNpgs - size) st.stNext with
  | some bq =>
    rw [hf] at h
    cases h
    exact ⟨⟨_, rfl⟩, .inr ⟨bq.1, rfl, (findLoop_spec hsize hf).2.2⟩⟩
  | none =>
    rw [hf] at h
    cases hg : findFrom u size (st.stNext - size) 0 with
    | some bq =>
      rw [hg] at h
      cases h
      exact ⟨⟨_, rfl⟩, .inr ⟨bq.1, rfl, (findLoop_spec hsize hg).2.2⟩⟩
    | none =>
      rw [hg] at h
      cases h
      exact ⟨⟨_, rfl⟩, .inl (by decide)⟩

/- A file in use that is not being deleted. -/
def Live (tab : Smi → Swpt) (i : Smi) : Prop :=
  (tab i).stUcnt.isSome = true ∧ (tab i).stIndel = false

/- Pages found free in such a file. -/
def Hit (tab : Smi → Swpt) (size : Nat) (pg : Int) (i : Smi) : Prop :=
  (tab i).stIndel = false ∧ ∃ u, (tab i).stUcnt = some u ∧ ∃ b : Nat, pg = b ∧ Free u b size

/- Tables that differ in st_next only. -/
def Moves (tab tab' : Smi → Swpt) : Prop := ∀ i, ∃ n, tab' i = { tab i with stNext := n }

theorem Moves.refl (tab : Smi → Swpt) : Moves tab tab := fun i => ⟨(tab i).stNext, rfl⟩

theorem Moves.trans {tab'' : Smi → Swpt} (h : Moves tab tab') (h' : Moves tab' tab'') :
    Moves tab tab'' := fun i => by
  obtain ⟨n, hn⟩ := h i
  obtain ⟨n', hn'⟩ := h' i
  exact ⟨n', by rw [hn', hn]⟩

theorem Moves.update {n : Nat} (h : st = { tab smi with stNext := n }) :
    Moves tab (Function.update tab smi st) := fun i => by
  by_cases hi : i = smi
  · subst hi
    exact ⟨n, by rw [Function.update_self, h]⟩
  · exact ⟨(tab i).stNext, by rw [Function.update_of_ne hi]⟩

theorem Moves.hit (h : Moves tab tab') (h' : Hit tab' size pg smi) : Hit tab size pg smi := by
  obtain ⟨n, hn⟩ := h smi
  rw [Hit, hn] at h'
  exact h'

/-- The scan reaches every file. -/
theorem smi_next : ∀ i smi : Smi, i ≠ smi → (i - smi).val = (i - (smi + 1)).val + 1 := by decide

theorem scanTab_skip (h : ¬ Live tab smi) :
    scanTab size (r + 1) smi swappg tab = scanTab size r (smi + 1) swappg tab := by
  rw [scanTab]
  cases hu : (tab smi).stUcnt with
  | none => rfl
  | some u =>
    cases hi : (tab smi).stIndel with
    | true => rfl
    | false => exact absurd ⟨by rw [hu]; rfl, hi⟩ h

theorem scanTab_look (hu : (tab smi).stUcnt = some u) (hi : (tab smi).stIndel = false)
    (hf : swapfind u size (tab smi) = (pg, st)) :
    scanTab size (r + 1) smi swappg tab =
      if 0 ≤ pg then (pg, smi, Function.update tab smi st)
      else scanTab size r (smi + 1) pg (Function.update tab smi st) := by
  rw [scanTab, hu, hi]
  simp only [hf]

/-- A scan finds free pages, or none, or no file to look into. -/
theorem scanTab_spec (hsize : 0 < size)
    (h : scanTab size r smi swappg tab = (pg, smi', tab')) : Moves tab tab' ∧
    (Hit tab size pg smi' ∨ pg < 0 ∨ pg = swappg ∧ ∀ i, (i - smi).val < r → ¬ Live tab i) := by
  induction r generalizing smi swappg tab with
  | zero =>
    cases h
    exact ⟨.refl _, .inr (.inr ⟨rfl, fun i hi => absurd hi (Nat.not_lt_zero _)⟩)⟩
  | succ r ih =>
    by_cases hlive : Live tab smi
    · obtain ⟨u, hu⟩ := Option.isSome_iff_exists.mp hlive.1
      cases hf : swapfind u size (tab smi) with
      | mk pg₁ st =>
        rw [scanTab_look hu hlive.2 hf] at h
        obtain ⟨⟨n, hn⟩, hfound⟩ := swapfind_spec hsize hf
        have hmoves := Moves.update hn
        by_cases h0 : 0 ≤ pg₁
        · rw [if_pos h0] at h
          cases h
          exact ⟨hmoves, .inl ⟨hlive.2, u, hu, hfound.resolve_left (by omega)⟩⟩
        · rw [if_neg h0] at h
          obtain ⟨hmoves', hres⟩ := ih h
          refine ⟨hmoves.trans hmoves', ?_⟩
          rcases hres with hhit | hneg | ⟨rfl, -⟩
          · exact .inl (hmoves.hit hhit)
          · exact .inr (.inl hneg)
          · exact .inr (.inl (by omega))
    · rw [scanTab_skip hlive] at h
      obtain ⟨hmoves, hres⟩ := ih h
      refine ⟨hmoves, hres.imp_right (Or.imp_right (And.imp_right fun hno i hi => ?_))⟩
      by_cases he : i = smi
      · exact he ▸ hlive
      · exact hno i (by rw [smi_next i smi he] at hi; omega)

/-- With a file to look into, what swalloc returns was free. -/
theorem scan_spec {c : Call D} {s : Swap D} (hsize : 0 < c.pglist.length)
    (h : scan c s = (pg, smi', tab')) (hlive : 0 ≤ c.swappg → ∃ i, Live s.swaptab i) :
    Moves s.swaptab tab' ∧ (pg < 0 ∨ Hit s.swaptab c.pglist.length pg smi') := by
  obtain ⟨hmoves, hhit | hneg | ⟨heq, hno⟩⟩ := scanTab_spec hsize h
  · exact ⟨hmoves, .inr hhit⟩
  · exact ⟨hmoves, .inl hneg⟩
  · refine ⟨hmoves, .inl (Int.not_le.mp fun h0 => ?_)⟩
    obtain ⟨i, hi⟩ := hlive (heq ▸ h0)
    exact hno i (i - s.nextswap).isLt hi

end Svr32.Swapalloc

/-! Which free pages swapfind misses: those on both sides of st_next. -/
namespace Svr32.Swapalloc
variable {u : List Nat} {size r p q b : Nat} {e : Int} {st : Swpt}

theorem contig_stop (h : contig u r p = (q, false)) : p ≤ q ∧ q < p + r ∧ u[q]? ≠ some 0 := by
  induction r generalizing p with
  | zero => cases h
  | succ r ih =>
    rw [contig] at h
    by_cases h0 : u[p]? = some 0
    · rw [if_pos h0] at h
      have hq := ih h
      exact ⟨by omega, by omega, hq.2.2⟩
    · rw [if_neg h0] at h
      cases h
      exact ⟨Nat.le_refl _, by omega, h0⟩

theorem Free.page (h : Free u b size) (hb : b ≤ q) (hq : q < b + size) : u[q]? = some 0 := by
  have hi := h (q - b) (by omega)
  rwa [Nat.add_sub_cancel' hb] at hi

/-- A loop that finds nothing has passed over no run that begins where it looks. -/
theorem findLoop_none (hsize : 0 < size) (hr : e + 1 - p ≤ r)
    (h : findLoop u size e r p = none) : ∀ b : Nat, p ≤ b → b ≤ e → ¬ Free u b size := by
  induction r generalizing p with
  | zero =>
    intro b hp he
    omega
  | succ r ih =>
    intro b hp he hfree
    rw [findLoop, if_neg (by omega)] at h
    by_cases h0 : u[p]? = some 0
    · rw [if_pos h0] at h
      cases hc : contig u (size - 1) (p + 1) with
      | mk q ok =>
        rw [hc] at h
        cases ok with
        | true => cases h
        | false =>
          obtain ⟨hpq, hqs, hq⟩ := contig_stop hc
          -- a run that begins before the page in use would contain it
          by_cases hbq : b ≤ q
          · exact hq (hfree.page hbq (by omega))
          · exact ih (by omega) h b (by omega) he hfree
    · rw [if_neg h0] at h
      by_cases hb : b = p
      · exact h0 (hfree.page (Nat.le_of_eq hb) (by omega))
      · exact ih (by omega) h b (by omega) he hfree

theorem findFrom_none (hsize : 0 < size) (h : findFrom u size e p = none) :
    ∀ b : Nat, p ≤ b → b ≤ e → ¬ Free u b size :=
  findLoop_none hsize (by omega) h

theorem findLoop_from (h : findLoop u size e r p = some (b, q)) : p ≤ b := by
  induction r generalizing p with
  | zero => cases h
  | succ r ih =>
    rw [findLoop] at h
    split at h
    · cases h
    · split at h
      · cases hc : contig u (size - 1) (p + 1) with
        | mk p' ok =>
          rw [hc] at h
          cases ok with
          | true =>
            cases h
            exact Nat.le_refl _
          | false =>
            have hp := ih h
            have hs := contig_stop hc
            omega
      · have hp := ih h
        omega

theorem Free.inside (hsize : 0 < size) (h : Free u b size) : b + size ≤ u.length := by
  have hlast := h.page (q := b + size - 1) (by omega) (by omega)
  have hlt := (List.getElem?_eq_some_iff.mp hlast).1
  omega

/- A run of free pages that lies on one side of st_next. -/
def OneSided (u : List Nat) (size : Nat) (st : Swpt) : Prop :=
  ∃ b, Free u b size ∧ (b + size ≤ st.stNext ∨ st.stNext ≤ b)

/-- swapfind returns -1 just when no run lies on one side of st_next. -/
theorem swapfind_none (hsize : 0 < size) (hlen : u.length = st.stNpgs) :
    (swapfind u size st).1 = -1 ↔ ¬ OneSided u size st := by
  rw [swapfind]
  cases hf : findFrom u size (st.stNpgs - size) st.stNext with
  | some bq =>
    have hfree := (findLoop_spec hsize hf).2.2
    have hfrom := findLoop_from hf
    exact iff_of_false (fun he : (bq.1 : Int) = -1 => by omega)
      (not_not.mpr ⟨bq.1, hfree, Or.inr hfrom⟩)
  | none =>
    have hup := findFrom_none hsize hf
    cases hg : findFrom u size (st.stNext - size) 0 with
    | some bq =>
      obtain ⟨hle, -, hfree⟩ := findLoop_spec hsize hg
      exact iff_of_false (fun he : (bq.1 : Int) = -1 => by omega)
        (not_not.mpr ⟨bq.1, hfree, Or.inl (by omega)⟩)
    | none =>
      have hdown := findFrom_none hsize hg
      refine iff_of_true rfl ?_
      rintro ⟨b, hfree, hb | hb⟩
      · exact hdown b (Nat.zero_le b) (by omega) hfree
      · have hin := hfree.inside hsize
        exact hup b hb (by omega) hfree

theorem swapfind_result (u : List Nat) (st : Swpt) (hsize : 0 < size) :
    (swapfind u size st).1 = -1 ∨ ∃ b : Nat, (swapfind u size st).1 = b ∧ Free u b size := by
  rw [swapfind]
  cases hf : findFrom u size (st.stNpgs - size) st.stNext with
  | some bq => exact Or.inr ⟨bq.1, rfl, (findLoop_spec hsize hf).2.2⟩
  | none =>
    cases hg : findFrom u size (st.stNext - size) 0 with
    | some bq => exact Or.inr ⟨bq.1, rfl, (findLoop_spec hsize hg).2.2⟩
    | none => exact Or.inl rfl

/-- swapfind finds free pages inside the file, or returns -1 where there are none, if and
only if the free runs do not all straddle st_next. -/
theorem swapfind_complete_iff (hsize : 0 < size) (hlen : u.length = st.stNpgs) :
    ((∃ b : Nat, (swapfind u size st).1 = b ∧ b + size ≤ st.stNpgs ∧ Free u b size) ∨
        (swapfind u size st).1 = -1 ∧ ∀ b, ¬ Free u b size) ↔
      ∀ b, Free u b size → b < st.stNext → st.stNext < b + size → OneSided u size st := by
  have hnone : _ ↔ ¬ OneSided u size st := swapfind_none hsize hlen
  constructor
  · rintro (⟨b, hb, -, hfree⟩ | ⟨-, hno⟩) b' hfree' - -
    · by_contra hone
      have he := hnone.mpr hone
      omega
    · exact absurd hfree' (hno b')
  · intro h
    obtain he | ⟨b, hb, hfree⟩ := swapfind_result u st hsize
    · refine Or.inr ⟨he, fun b hfree => hnone.mp he ?_⟩
      by_cases hb : b < st.stNext ∧ st.stNext < b + size
      · exact h b hfree hb.1 hb.2
      · exact ⟨b, hfree, by omega⟩
    · exact Or.inl ⟨b, hb, hlen ▸ hfree.inside hsize, hfree⟩

/- Four pages, those in the middle free, and st_next between them. -/
def torn : Swpt := ⟨0, false, some [1, 0, 0, 1], 2, 0, 4, 2⟩

theorem swapfind_complete_iff_torn :
    ((∃ b : Nat, (swapfind [1, 0, 0, 1] 1 torn).1 = b ∧ b + 1 ≤ 4 ∧ Free [1, 0, 0, 1] b 1) ∨
        (swapfind [1, 0, 0, 1] 1 torn).1 = -1 ∧ ∀ b, ¬ Free [1, 0, 0, 1] b 1) ↔
      ∀ b, Free [1, 0, 0, 1] b 1 → b < 2 → 2 < b + 1 → OneSided [1, 0, 0, 1] 1 torn :=
  swapfind_complete_iff (by decide) rfl

/-- Pages 1 and 2 are free, and swapfind does not find them. -/
theorem torn_run_missed : Free [1, 0, 0, 1] 1 2 ∧ (swapfind [1, 0, 0, 1] 2 torn).1 = -1 := by
  refine ⟨?_, by decide⟩
  unfold Free
  decide

end Svr32.Swapalloc
