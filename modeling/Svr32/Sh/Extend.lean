import Mathlib.Data.List.Nodup
import Mathlib.Data.Nat.Find
import Svr32.Sh.World

/-! addblok of sh/blok.c: the stack segment is covered by the arena, and a new one begins. -/
namespace Svr32.Sh
variable {s s1 : State} {m : Mem} {l l1 segs segs1 : List Nat} {a b e p r n base : Nat} {w : World}
  {live items : List (Nat × Nat)}

/-- The unfinished item is a string. -/
def Whole (s : State) : Prop := ∀ b, s.stakbot ≤ b → b < s.staktop → s.mem b ≠ 0

/- No item is in the current stack segment any longer; what is left of it is the unfinished one. -/
structure Covered (w : World) (s1 : State) (l1 segs1 : List Nat) : Prop where
  body : Body { w with s := s1 } l1 segs1
  items : ∀ x ∈ w.items, x.2 = 0 ∨ ∃ b ∈ segs1, b + 4 ≤ x.1 ∧ x.1 + x.2 ≤ stop s1.mem b
  frame : ∀ b, Protected w.live w.items b → s1.mem b = w.s.mem b
  bot : s1.stakbot = w.s.stakbot
  high : w.s.stakbot ≤ s1.bloktop + 8
  unfinished : w.s.stakbot = w.s.staktop ∧ s1.staktop = w.s.staktop ∨
    s1.staktop = w.s.staktop + 1 ∧ s1.staktop ≤ s1.bloktop ∧ s1.mem w.s.staktop = 0 ∧
      ∀ b, w.s.stakbot ≤ b → b < w.s.staktop → s1.mem b = w.s.mem b

theorem Inv.covered_empty (h : Inv w l segs) (he : w.s.stakbas = w.s.staktop) :
    Covered w w.s l segs := by
  have hbot := h.bot
  have hstk := h.stk
  have hbas := h.bas
  refine ⟨h.toBody, ?_, fun _ _ => rfl, rfl, by omega, Or.inl ⟨by omega, rfl⟩⟩
  intro x hx
  rcases h.items x hx with h0 | hcur | hseg
  · exact Or.inl h0
  · exact Or.inl (by omega)
  · exact Or.inr hseg

theorem Protected.where (h : Inv w l segs) (hb : Protected w.live w.items b) :
    b < w.s.bloktop ∨ w.s.stakbas ≤ b ∧ b < w.s.stakbot := by
  rcases hb with ⟨x, hx, hlo, hhi⟩ | ⟨x, hx, hlo, hhi⟩
  · have hsz := h.size x hx
    have hst := h.stop_le (h.mem_live hx)
    omega
  · rcases h.items x hx with h0 | hcur | ⟨c, hc, hin⟩
    · omega
    · omega
    · have hst := h.stop_le (h.mem_segs hc)
      omega

/-- The stack segment becomes a block. -/
theorem Inv.covered_cover (h : Inv w l segs) (hne : w.s.stakbas ≠ w.s.staktop) :
    Covered w (cover w.s) (l ++ [w.s.bloktop]) ((w.s.bloktop + 4) :: segs) := by
  have hbot := h.bot
  have hstk := h.stk
  have hbas := h.bas
  obtain ⟨hrnd, htoplt, htop4, hlink, hbusy, hcl, hsegw, hzero, hframe⟩ :=
    cover_spec h.linked h.topal h.bas (by omega)
  have hlow : ∀ b, b < w.s.bloktop → (cover w.s).mem b = w.s.mem b := fun b hb =>
    hframe b (Or.inl hb)
  have hkept : ∀ a ∈ l, (cover w.s).mem a = w.s.mem a := by
    intro a ha
    have hbd := h.linked.bounds a ha
    exact hlow a (by omega)
  have hsegs : ∀ b ∈ segs, (cover w.s).mem b = w.s.mem b := by
    intro b hb
    have hlt := h.segsize b hb
    have hle := h.stop_le (h.mem_segs hb)
    exact hlow b (by omega)
  have hstop : ∀ u, Owned w.s.mem l u → stop (cover w.s).mem u = stop w.s.mem u := by
    intro u hu
    rw [stop, stop, hkept _ hu.header.1]
  have hseglt : ∀ b ∈ segs, b < w.s.bloktop := by
    intro b hb
    have hlt := h.segsize b hb
    have hle := h.stop_le (h.mem_segs hb)
    omega
  have hnew : w.s.bloktop + 4 ∉ w.live.map Prod.fst ++ segs := by
    intro hm
    obtain ⟨ha, -, -⟩ := (h.owned _ hm).header
    have hbd := h.linked.bounds _ ha
    omega
  have hstopnew : stop (cover w.s).mem (w.s.bloktop + 4) = (cover w.s).bloktop := by
    rw [stop, Nat.add_sub_cancel, hcl]
  constructor
  · constructor
    · exact hlink
    · dsimp only
      rw [nxt_snoc]
      exact h.first
    · exact htop4
    · exact h.begal
    · exact h.pos
    · exact h.incr
    · show Busied (cover w.s).mem (w.s.stakbas - 4) _
      refine ⟨by omega, ?_⟩
      rw [hsegw]
      exact h.busied.congr hsegs
    · refine List.pairwise_cons.2 ⟨fun b hb => ?_, h.sorted⟩
      have hlt := hseglt b hb
      omega
    · intro u hu
      rw [List.mem_append, List.mem_cons] at hu
      have hcase : u ∈ w.live.map Prod.fst ++ segs ∨ u = w.s.bloktop + 4 := by
        rw [List.mem_append]
        rcases hu with hu | hu | hu
        · exact Or.inl (Or.inl hu)
        · exact Or.inr hu
        · exact Or.inl (Or.inr hu)
      rcases hcase with hu | rfl
      · obtain ⟨a, ha, hb, rfl⟩ := h.owned u hu
        refine ⟨a, List.mem_append_left _ ha, ?_, rfl⟩
        rw [busy, hkept a ha]
        exact hb
      · exact ⟨w.s.bloktop, by simp, hbusy, rfl⟩
    · exact List.nodup_middle.2 (List.nodup_cons.2 ⟨hnew, h.nodup⟩)
    · intro x hx
      dsimp only
      rw [hstop _ (h.mem_live hx)]
      exact h.size x hx
    · intro b hb
      dsimp only
      rcases List.mem_cons.1 hb with rfl | hb
      · rw [hstopnew]
        omega
      · rw [hstop _ (h.mem_segs hb)]
        exact h.segsize b hb
  · intro x hx
    rcases h.items x hx with h0 | hcur | ⟨b, hb, hin⟩
    · exact Or.inl h0
    · refine Or.inr ⟨w.s.bloktop + 4, List.mem_cons_self, by omega, ?_⟩
      rw [hstopnew]
      omega
    · refine Or.inr ⟨b, List.mem_cons_of_mem _ hb, ?_⟩
      rwa [hstop _ (h.mem_segs hb)]
  · intro b hb
    have hw := hb.where h
    exact hframe b (by omega)
  · rfl
  · omega
  · exact Or.inr ⟨rfl, htoplt, hzero, fun b hlo hhi => hframe b (by omega)⟩

/-- What alloc keeps: the bytes in use, and the unfinished item, which may be moved. -/
structure Undisturbed (live items : List (Nat × Nat)) (s s' : State) : Prop where
  bytes : ∀ b, Protected live items b → s'.mem b = s.mem b
  length : s'.staktop - s'.stakbot = s.staktop - s.stakbot
  item : ∀ i, i < s.staktop - s.stakbot → s'.mem (s'.stakbot + i) = s.mem (s.stakbot + i)

theorem Undisturbed.trans {s' s'' : State} (h : Undisturbed live items s s')
    (h' : Undisturbed live items s' s'') : Undisturbed live items s s'' := by
  have hlen := h.length
  refine ⟨fun b hb => (h'.bytes b hb).trans (h.bytes b hb), h'.length.trans hlen, ?_⟩
  intro i hi
  rw [h'.item i (by omega), h.item i hi]

theorem Undisturbed.symm {s' : State} (h : Undisturbed live items s s') :
    Undisturbed live items s' s := by
  have hlen := h.length
  refine ⟨fun b hb => (h.bytes b hb).symm, hlen.symm, ?_⟩
  intro i hi
  exact (h.item i (by omega)).symm

/-- An extension leaves what is in use where it is, and moves the unfinished item. -/
theorem Covered.extend (h : Inv w l segs) (hc : Covered w s1 l1 segs1) (hr : r % 4 = 0) (hr0 : 0 < r) :
    Ready { w with s := extend r s1 } (l1 ++ [s1.bloktop]) segs1 ∧
      (∀ b, Protected w.live w.items b → (extend r s1).mem b = w.s.mem b) ∧
      (Undisturbed w.live w.items w.s (extend r s1) ↔ Whole w.s) := by
  have hb := hc.body
  obtain ⟨harena, hblokp, htop, hmem, hlow, hbas, hbot, hstk⟩ :=
    @extend_spec s1 l1 r hb.linked hb.first hb.topal hb.begal hb.pos hr hr0
  have hhigh := hc.high
  have hsegs : ∀ b ∈ segs1, (Sh.extend r s1).mem b = s1.mem b := by
    intro b hbm
    have hlt := hb.segsize b hbm
    have hle := hb.stop_le (hb.mem_segs hbm)
    dsimp only at hlt hle
    exact hlow b (by omega)
  have hkept : ∀ a ∈ l1, (Sh.extend r s1).mem a = s1.mem a := by
    intro a ha
    have hbd := hb.linked.bounds a ha
    dsimp only at hbd
    exact hlow a (by omega)
  have hbody : Body { w with s := Sh.extend r s1 } (l1 ++ [s1.bloktop]) segs1 :=
    hb.move harena.linked harena.first harena.topal rfl rfl rfl
      (fun a ha _ => ⟨List.mem_append_left _ ha, hkept a ha⟩) hsegs
  have hbytes : ∀ b, Protected w.live w.items b → (Sh.extend r s1).mem b = w.s.mem b := by
    intro b hp
    rw [← hc.frame b hp]
    apply hlow
    rcases hp with ⟨x, hx, hlo, hhi⟩ | ⟨x, hx, hlo, hhi⟩
    · have hsz := hb.size x hx
      have hle := hb.stop_le (hb.mem_live hx)
      dsimp only at hsz hle
      omega
    · rcases hc.items x hx with h0 | ⟨c, hcm, hin⟩
      · omega
      · have hle := hb.stop_le (hb.mem_segs hcm)
        dsimp only at hle
        omega
  constructor
  · refine ⟨⟨hbody, harena.top, by dsimp only; omega, by dsimp only; omega, hstk, ?_, ?_, ?_, ?_,
      h.order, h.apart⟩, ?_⟩
    · dsimp only
      have h4 := hb.topal
      dsimp only at h4
      omega
    · intro x hx
      rcases hc.items x hx with h0 | ⟨c, hcm, hin⟩
      · exact Or.inl h0
      · obtain ⟨ha, -, -⟩ := (hb.mem_segs hcm).header
        refine Or.inr (Or.inr ⟨c, hcm, ?_⟩)
        dsimp only
        rwa [stop, hkept _ ha]
    · intro x hx
      have hle := h.below x hx
      dsimp only
      omega
    · intro y hy
      have hle := h.saved y hy
      dsimp only
      omega
    · exact Or.inl (by dsimp only; rw [hblokp]; simp)
  · refine ⟨hbytes, ?_⟩
    have hcb := hc.bot
    have hst := h.stk
    rcases hc.unfinished with ⟨he, hs1⟩ | ⟨hs1, hle, hzero, hsame⟩
    · have hempty : (Sh.extend r s1).staktop = (Sh.extend r s1).stakbot := by
        show (if _ then _ else _ : Nat × Mem).1 = _
        rw [if_neg (by omega)]
        rfl
      exact iff_of_true ⟨hbytes, by omega, fun i hi => by omega⟩ fun b hlo hhi => by omega
    · constructor
      · intro hund
        by_contra hno
        -- the copy ends at the first NUL
        have hex : ∃ i, i < w.s.staktop - w.s.stakbot ∧ w.s.mem (w.s.stakbot + i) = 0 := by
          rw [Whole] at hno
          push Not at hno
          obtain ⟨b, hlo, hhi, hz⟩ := hno
          exact ⟨b - w.s.stakbot, by omega, by rw [Nat.add_sub_cancel' hlo]; exact hz⟩
        obtain ⟨hi, hz⟩ := Nat.find_spec hex
        have hcopy := (@extend_item s1 r (Nat.find hex) (by omega) hle
          (fun i hlt => by
            rw [hcb, hsame _ (by omega) (by omega)]
            exact fun h0 => Nat.find_min hex hlt ⟨by omega, h0⟩)
          (by rw [hcb, hsame _ (by omega) (by omega)]; exact hz)).1
        have hlen := hund.length
        omega
      · intro hwhole
        have hlen : s1.stakbot + (w.s.staktop - w.s.stakbot) = w.s.staktop := by omega
        obtain ⟨h1, h2⟩ := @extend_item s1 r (w.s.staktop - w.s.stakbot) (by omega) hle
          (fun i hi => by
            rw [hcb, hsame _ (by omega) (by omega)]
            exact hwhole _ (by omega) (by omega))
          (by rw [hlen]; exact hzero)
        refine ⟨hbytes, by omega, fun i hi => ?_⟩
        rw [h2 i hi, hcb, hsame _ (by omega) (by omega)]

/-- addblok makes a free block that is larger than what it is asked for, and puts blokp at it. -/
theorem Inv.grow (h : Inv w l segs) (hr : r % 4 = 0) :
    ∃ l' segs', Ready { w with s := addblok base r w.s } l' segs' ∧
      (addblok base r w.s).blokp ∈ l' ∧
      (addblok base r w.s).blokp + r < (addblok base r w.s).mem (addblok base r w.s).blokp ∧
      (addblok base r w.s).mem (addblok base r w.s).blokp = (addblok base r w.s).bloktop ∧
      (∀ b, Protected w.live w.items b → (addblok base r w.s).mem b = w.s.mem b) ∧
      (Undisturbed w.live w.items w.s (addblok base r w.s) ↔ Whole w.s) := by
  have hbot := h.bot
  have hbas := h.bas
  have hpos : w.s.stakbot ≠ 0 := by omega
  obtain ⟨hamt4, hamt⟩ := amount h.incr.1 h.incr.2 hr
  generalize hR : r + w.s.brkincr - ((r + w.s.brkincr) &&& (w.s.brkincr - 1)) = R at hamt4 hamt
  have hcov : ∃ l1 segs1 s1, addblok base r w.s = extend R s1 ∧ Covered w s1 l1 segs1 := by
    by_cases he : w.s.stakbas = w.s.staktop
    · refine ⟨l, segs, w.s, ?_, h.covered_empty he⟩
      rw [addblok.eq_def]
      dsimp only
      rw [if_neg hpos, if_neg fun hne => hne he, hR]
    · refine ⟨_, _, cover w.s, ?_, h.covered_cover he⟩
      rw [addblok.eq_def]
      dsimp only
      rw [if_neg hpos, if_pos he]
      show extend (r + w.s.brkincr - ((r + w.s.brkincr) &&& (w.s.brkincr - 1))) _ = _
      rw [hR]
  obtain ⟨l1, segs1, s1, heq, hc⟩ := hcov
  obtain ⟨hready, hbytes, hund⟩ := hc.extend h hamt4 (by omega)
  have hb := hc.body
  obtain ⟨-, hblokp, htop, hmem, -⟩ :=
    @extend_spec s1 l1 R hb.linked hb.first hb.topal hb.begal hb.pos hamt4 (by omega)
  refine ⟨_, _, by rw [heq]; exact hready, ?_, ?_, ?_, by rw [heq]; exact hbytes,
    by rw [heq]; exact hund⟩
  · rw [heq, hblokp]
    simp
  · rw [heq, hblokp, hmem]
    omega
  · rw [heq, hblokp, hmem, htop]

end Svr32.Sh
