import Svr32.Sh.Extend
import Svr32.Lib.System

/-! free of sh/blok.c and sh/stak.c. -/
namespace Svr32.Sh
variable {s : State} {m m' : Mem} {l segs : List Nat} {a b c e p r n u x y : Nat} {w : World}

/- Memory is written where no word of the chain is, and no list of segments. -/
theorem Ready.write (h : Ready w l segs) (hl : ∀ a ∈ l, m' a = w.s.mem a)
    (ht : m' w.s.bloktop = w.s.mem w.s.bloktop) (hs : ∀ b ∈ segs, m' b = w.s.mem b) :
    Ready { w with s := { w.s with mem := m' } } l segs := by
  have hlink : Linked m' l w.s.bloktop := h.linked.congr fun a ha => by rw [hl a ha]
  have hbody : Body { w with s := { w.s with mem := m' } } l segs :=
    h.toBody.move hlink h.first h.topal rfl rfl rfl (fun a ha _ => ⟨ha, hl a ha⟩) hs
  refine ⟨⟨hbody, ht.trans h.top, h.bas, h.bot, h.stk, h.botal, ?_, h.below, h.saved, h.order,
    h.apart⟩, h.cur⟩
  exact fun x hx => (h.items x hx).move h.toBody rfl rfl fun a ha _ => hl a ha

theorem Body.seg_lt (h : Body w l segs) (hb : b ∈ segs) : b + 4 < w.s.bloktop := by
  have hlt := h.segsize b hb
  have hle := h.stop_le (h.mem_segs hb)
  omega

/-- Above the arena there is only the stack segment. -/
theorem Ready.write_high (h : Ready w l segs) (hm : ∀ b, b < w.s.stakbas → m' b = w.s.mem b) :
    Ready { w with s := { w.s with mem := m' } } l segs := by
  have hbas := h.bas
  apply h.write
  · intro a ha
    have hbd := h.linked.bounds a ha
    exact hm a (by omega)
  · exact hm _ (by omega)
  · intro b hb
    have hlt := h.seg_lt hb
    exact hm b (by omega)

/- Two blocks have no byte in common. -/
theorem Body.disjoint (h : Body w l segs) (hu : Owned w.s.mem l u) (ha : a ∈ l) (hne : a + 4 ≠ u) :
    stop w.s.mem u ≤ a ∨ clear (w.s.mem a) + 4 ≤ u := by
  obtain ⟨hm, -, h4⟩ := hu.header
  have hd := h.linked.disjoint hm ha (by omega)
  rw [stop]
  omega

/-- A byte of a block in use is no word of the chain, and no link of the list of segments unless the
block is such a segment. -/
theorem Body.interior (h : Body w l segs) (hu : Owned w.s.mem l u) (hlo : u ≤ b)
    (hhi : b < stop w.s.mem u) (hseg : u ∈ segs → u + 4 ≤ b) :
    (∀ a ∈ l, a ≠ b) ∧ w.s.bloktop ≠ b ∧ ∀ c ∈ segs, c ≠ b := by
  have hle := h.stop_le hu
  refine ⟨?_, by omega, ?_⟩
  · rintro a ha rfl
    by_cases hau : a + 4 = u
    · omega
    · have hbd := h.linked.bounds a ha
      rcases h.disjoint hu ha hau with hd | hd
      · omega
      · omega
  · rintro c hc rfl
    by_cases hcu : c = u
    · have h4 := hseg (hcu ▸ hc)
      omega
    · obtain ⟨hcm, -, hc4⟩ := (h.mem_segs hc).header
      have hlt := h.segsize c hc
      rw [stop] at hlt
      rcases h.disjoint hu hcm (by omega) with hd | hd
      · omega
      · omega

theorem Body.live_seg (h : Body w l segs) {x : Nat × Nat} (hx : x ∈ w.live) : x.1 ∉ segs := by
  intro hm
  exact (List.nodup_append.1 h.nodup).2.2 x.1 (List.mem_map_of_mem hx) x.1 hm rfl

/-- A byte of a live block or of an item is written. -/
theorem Ready.store (h : Ready w l segs) (hb : Protected w.live w.items b) (v : Nat) :
    Ready { w with s := { w.s with mem := Function.update w.s.mem b v } } l segs := by
  have hbas := h.bas
  have key : ((∀ a ∈ l, a ≠ b) ∧ w.s.bloktop ≠ b ∧ ∀ c ∈ segs, c ≠ b) ∨ w.s.stakbas ≤ b := by
    rcases hb with ⟨x, hx, hlo, hhi⟩ | ⟨x, hx, hlo, hhi⟩
    · have hsz := h.size x hx
      exact Or.inl (h.toBody.interior (h.mem_live hx) hlo (by omega) fun hm =>
        absurd hm (h.toBody.live_seg hx))
    · rcases h.items x hx with h0 | hcur | ⟨c, hc, hin⟩
      · omega
      · exact Or.inr (by omega)
      · exact Or.inl (h.toBody.interior (h.mem_segs hc) (by omega) (by omega) fun _ => by omega)
  rcases key with ⟨h1, h2, h3⟩ | hhigh
  · exact h.write (fun a ha => Function.update_of_ne (h1 a ha) _ _)
      (Function.update_of_ne h2 _ _) fun c hc => Function.update_of_ne (h3 c hc) _ _
  · exact h.write_high fun c hc => Function.update_of_ne (by omega) _ _

/-- Less is in use. -/
theorem Ready.shrink (h : Ready w l segs) {live items : List (Nat × Nat)} (hl : live.Sublist w.live)
    (hi : items ⊆ w.items) : Ready { w with live := live, items := items } l segs := by
  have hsub : (live.map Prod.fst ++ segs).Sublist (w.live.map Prod.fst ++ segs) :=
    (hl.map Prod.fst).append (List.Sublist.refl segs)
  refine ⟨⟨⟨h.linked, h.first, h.topal, h.begal, h.pos, h.incr, h.busied, h.sorted,
    fun u hu => h.owned u (hsub.mem hu), h.nodup.sublist hsub, fun x hx => h.size x (hl.mem hx),
    h.segsize⟩, h.top, h.bas, h.bot, h.stk, h.botal, fun x hx => h.items x (hi hx),
    fun x hx => h.below x (hi hx), h.saved, h.order, fun x hx => h.apart x (hi hx)⟩, h.cur⟩

/-- The bit BUSY of a block is turned off; no live block has its header there, and the segments left
are not of that block. -/
theorem Ready.unmark {segs' : List Nat} (h : Ready w l segs) (ha : a ∈ l)
    (hlive : ∀ x ∈ w.live, x.1 ≠ a + 4) (hsegs : segs'.Sublist segs) (hne : ∀ b ∈ segs', b ≠ a + 4)
    (hitems : ∀ x ∈ w.items, Placed w.s segs' x) (v : Nat)
    (hv : Busied (putw a (clear (w.s.mem a)) w.s.mem) v segs') :
    Ready { w with s := { w.s with mem := putw a (clear (w.s.mem a)) w.s.mem, stakbsy := v } }
      l segs' := by
  have ha4 := h.linked.aligned a ha
  have hbd := h.linked.bounds a ha
  have htop4 := h.topal
  generalize hm : putw a (clear (w.s.mem a)) w.s.mem = m' at hv ⊢
  have hself : clear (m' a) = clear (w.s.mem a) := by
    rw [← hm, putw_self, clear_eq (by omega)]
  have hother : ∀ c ∈ l, c ≠ a → m' c = w.s.mem c := by
    intro c hc hca
    rw [← hm]
    exact putw_word ha4 (h.linked.aligned c hc) hca
  have hclear : ∀ c ∈ l, clear (m' c) = clear (w.s.mem c) := by
    intro c hc
    by_cases hca : c = a
    · rw [hca, hself]
    · rw [hother c hc hca]
  have hstop : ∀ u, Owned w.s.mem l u → stop m' u = stop w.s.mem u := by
    intro u hu
    rw [stop, stop, hclear _ hu.header.1]
  have hsub : (w.live.map Prod.fst ++ segs').Sublist (w.live.map Prod.fst ++ segs) :=
    (List.Sublist.refl _).append hsegs
  refine ⟨⟨⟨h.linked.congr hclear, h.first, h.topal, h.begal, h.pos, h.incr, hv,
    h.sorted.sublist hsegs, ?_, h.nodup.sublist hsub, ?_, ?_⟩, ?_, h.bas, h.bot, h.stk, h.botal, ?_,
    h.below, h.saved, h.order, h.apart⟩, h.cur⟩
  · intro u hu
    obtain ⟨c, hc, hb, rfl⟩ := h.owned u (hsub.mem hu)
    have hca : c ≠ a := by
      rintro rfl
      rcases List.mem_append.1 hu with hu | hu
      · obtain ⟨x, hx, heq⟩ := List.mem_map.1 hu
        exact hlive x hx heq
      · exact hne _ hu rfl
    exact ⟨c, hc, by rw [busy]; dsimp only; rw [hother c hc hca]; exact hb, rfl⟩
  · intro x hx
    dsimp only
    rw [hstop _ (h.mem_live hx)]
    exact h.size x hx
  · intro b hb
    dsimp only
    rw [hstop _ (h.mem_segs (hsegs.mem hb))]
    exact h.segsize b (hsegs.mem hb)
  · dsimp only
    rw [← h.top, ← hm]
    exact putw_word ha4 htop4 (by omega)
  · intro x hx
    rcases hitems x hx with h0 | hcur | ⟨b, hb, hin⟩
    · exact Or.inl h0
    · exact Or.inr (Or.inl hcur)
    · refine Or.inr (Or.inr ⟨b, hb, ?_⟩)
      dsimp only
      rwa [hstop _ (h.mem_segs (hsegs.mem hb))]

/-- A live block is freed. -/
theorem Ready.free (h : Ready w l segs) {x : Nat × Nat} (hx : x ∈ w.live) :
    Ready { w with s := free x.1 w.s, live := w.live.erase x } l segs := by
  have hr := h.shrink (List.erase_sublist : (w.live.erase x).Sublist w.live) (List.Subset.refl w.items)
  rw [Sh.free]
  split
  · obtain ⟨ha, -, h4⟩ := (h.mem_live hx).header
    have hperm := (List.perm_cons_erase hx).map Prod.fst
    have hnd := (hperm.nodup_iff).1 (List.nodup_append.1 h.nodup).1
    have hseg := h.toBody.live_seg hx
    have hfst : x.1 ∉ (w.live.erase x).map Prod.fst := (List.nodup_cons.1 hnd).1
    apply hr.unmark ha
    · intro y hy heq
      apply hfst
      rw [List.mem_map]
      exact ⟨y, hy, by omega⟩
    · exact List.Sublist.refl segs
    · rintro b hb rfl
      rw [Nat.sub_add_cancel h4] at hb
      exact hseg hb
    · exact hr.items
    · apply hr.busied.congr
      intro b hb
      have hne : b ≠ x.1 := fun he => hseg (he ▸ hb)
      have hlt := h.segsize b hb
      have hbd := h.linked.bounds _ ha
      have hd := h.toBody.disjoint (h.mem_segs hb) ha (by omega)
      exact putw_out (by omega)
  · exact hr

/-- The last segment that became a block is freed; no item is in it. -/
theorem Ready.pop (h : Ready w l (c :: segs)) (hitems : ∀ x ∈ w.items, x.2 = 0 ∨ x.1 + x.2 ≤ c ∨
    w.s.stakbas ≤ x.1) :
    Ready { w with s := { Sh.free c w.s with stakbsy := (Sh.free c w.s).mem c } } l segs := by
  obtain ⟨ha, -, h4⟩ := (h.mem_segs List.mem_cons_self).header
  have hbd := h.linked.bounds _ ha
  have hlt := h.toBody.seg_lt List.mem_cons_self
  have hfirst := h.first
  have hpos := h.pos
  have hguard : c ≠ 0 ∧ c < w.s.bloktop ∧ w.s.brkbegin < c := by omega
  obtain ⟨hsc, hsegs⟩ := List.pairwise_cons.1 h.sorted
  have hout : ∀ b ∈ c :: segs, putw (c - 4) (clear (w.s.mem (c - 4))) w.s.mem b = w.s.mem b := by
    intro b hb
    by_cases hbc : b = c
    · rw [hbc]
      exact putw_out (by omega)
    · have hsz := h.segsize b hb
      have hd := h.toBody.disjoint (h.mem_segs hb) ha (by omega)
      exact putw_out (by omega)
  rw [Sh.free, if_pos hguard]
  refine h.unmark ha ?_ (List.sublist_cons_self c segs) ?_ ?_ _ ?_
  · intro x hx he
    apply h.toBody.live_seg hx
    rw [he, Nat.sub_add_cancel h4]
    exact List.mem_cons_self
  · intro b hb he
    have hgt := hsc b hb
    omega
  · intro x hx
    rcases h.items x hx with h0 | hcur | ⟨b, hb, hin⟩
    · exact Or.inl h0
    · exact Or.inr (Or.inl hcur)
    · rcases List.mem_cons.1 hb with rfl | hb
      · have hle := h.toBody.stop_le (h.mem_segs List.mem_cons_self)
        have hbas := h.bas
        rcases hitems x hx with h0 | h1 | h2
        · exact Or.inl h0
        · exact Or.inl (by omega)
        · exact Or.inl (by omega)
      · exact Or.inr (Or.inr ⟨b, hb, hin⟩)
  · dsimp only
    rw [hout c List.mem_cons_self]
    exact h.busied.2.congr fun b hb => hout b (List.mem_cons_of_mem c hb)

/-- tdystak frees the segments above `x`; the items that end below it stay where they are. -/
theorem Ready.unbusy (h : Ready w l segs)
    (hitems : ∀ y ∈ w.items, y.2 = 0 ∨ y.1 + y.2 ≤ x ∨ w.s.stakbas ≤ y.1) :
    ∃ s' segs', Ends (fun f => unbusy f x w.s) s' ∧ Ready { w with s := s' } l segs' ∧
      s'.stakbas = w.s.stakbas ∧ s'.stakbot = w.s.stakbot := by
  induction segs generalizing w with
  | nil =>
    have h0 : w.s.stakbsy = 0 := h.busied
    refine ⟨w.s, [], Ends.now ⟨0, fun f _ => ?_⟩, h, rfl, rfl⟩
    rw [Sh.unbusy, h0, if_neg (Nat.not_lt_zero x)]
  | cons c segs ih =>
    have hc : w.s.stakbsy = c := h.busied.1
    by_cases hx : x < c
    · have hpop := h.pop fun y hy => (hitems y hy).imp id fun h => h.imp (fun h => by omega) id
      have hstk : (Sh.free c w.s).stakbas = w.s.stakbas ∧ (Sh.free c w.s).stakbot = w.s.stakbot := by
        rw [Sh.free]
        split
        · exact ⟨rfl, rfl⟩
        · exact ⟨rfl, rfl⟩
      obtain ⟨s', segs', hends, hready, hbas, hbot⟩ := ih hpop fun y hy => by
        dsimp only
        rw [hstk.1]
        exact hitems y hy
      refine ⟨s', segs', hends.turn ⟨0, fun f _ => ?_⟩, hready, hbas.trans hstk.1, hbot.trans hstk.2⟩
      have hbsy : (Sh.free c w.s).stakbsy = c := by
        rw [Sh.free]
        split
        · exact hc
        · exact hc
      rw [Sh.unbusy, hc, if_pos hx]
      dsimp only
      rw [hbsy]
    · refine ⟨w.s, c :: segs, Ends.now ⟨0, fun f _ => ?_⟩, h, rfl, rfl⟩
      rw [Sh.unbusy, hc, if_neg hx]

/-- tdystak(x), for a position that was saved: what was finished later is dropped. -/
theorem Ready.tdystak (h : Ready w l segs) {l1 l2 : List Nat} (hs : w.saved = l1 ++ x :: l2) :
    ∃ s' segs', Ends (fun f => tdystak f x w.s) s' ∧
      Ready { w with
        s := s', items := w.items.filter fun y => y.1 + y.2 ≤ x, saved := x :: l2 } l segs' := by
  have hx := h.saved x (by rw [hs]; simp)
  have hfil : (w.items.filter fun y => y.1 + y.2 ≤ x) ⊆ w.items := List.filter_sublist.subset
  have hkeep := h.shrink (List.Sublist.refl w.live) hfil
  have hend : ∀ y ∈ w.items.filter (fun y => y.1 + y.2 ≤ x), y.1 + y.2 ≤ x := by
    intro y hy
    simpa using (List.mem_filter.1 hy).2
  obtain ⟨s', segs', ⟨k, hk⟩, hready, hbas, hbot⟩ :=
    @Ready.unbusy _ _ x _ hkeep fun y hy => Or.inr (Or.inl (hend y hy))
  have hsub : (x :: l2).Sublist w.saved := by
    rw [hs]
    exact List.sublist_append_right l1 (x :: l2)
  have hord := h.order.sublist hsub
  refine ⟨{ s' with staktop := max x s'.stakbas, stakbot := max x s'.stakbas }, segs', ⟨k, ?_⟩, ?_⟩
  · intro f hf
    have hu : Sh.unbusy f x w.s = some s' := hk f hf
    show Sh.tdystak f x w.s = _
    rw [Sh.tdystak, hu]
  · have hb := hready.bas
    have h4 := hready.topal
    dsimp only at hb h4
    refine ⟨⟨⟨hready.linked, hready.first, hready.topal, hready.begal, hready.pos, hready.incr,
      hready.busied, hready.sorted, hready.owned, hready.nodup, hready.size, hready.segsize⟩,
      hready.top, hready.bas, by dsimp only; omega, Nat.le_refl _, by dsimp only; omega, ?_, ?_, ?_,
      hord, ?_⟩, hready.cur⟩
    · intro y hy
      have hle := hend y hy
      rcases hready.items y hy with h0 | hcur | hseg
      · exact Or.inl h0
      · refine Or.inr (Or.inl ⟨hcur.1, ?_⟩)
        dsimp only
        omega
      · exact Or.inr (Or.inr hseg)
    · intro y hy
      have hle := hend y hy
      dsimp only
      omega
    · intro y hy
      have hal := h.saved y (hsub.mem hy)
      dsimp only
      rcases List.mem_cons.1 hy with rfl | hy
      · omega
      · have hge := List.rel_of_pairwise_cons hord hy
        omega
    · intro y hy z hz
      exact h.apart y (hfil hy) z (hsub.mem hz)

/-- getstak and endstak: an item of `n` bytes is finished. -/
theorem Ready.finish (h : Ready w l segs) {e : Nat} (he : w.s.stakbot + n ≤ e) (he4 : e % 4 = 0) :
    Ready { w with
      s := { w.s with stakbot := e, staktop := e }
      items := (w.s.stakbot, n) :: w.items } l segs := by
  have hbot := h.bot
  refine ⟨⟨⟨h.linked, h.first, h.topal, h.begal, h.pos, h.incr, h.busied, h.sorted, h.owned, h.nodup,
    h.size, h.segsize⟩, h.top, h.bas, by dsimp only; omega, Nat.le_refl _, he4, ?_, ?_, ?_, h.order, ?_⟩,
    h.cur⟩
  · intro y hy
    rcases List.mem_cons.1 hy with rfl | hy
    · exact Or.inr (Or.inl ⟨hbot, he⟩)
    · rcases h.items y hy with h0 | hcur | hseg
      · exact Or.inl h0
      · refine Or.inr (Or.inl ⟨hcur.1, ?_⟩)
        dsimp only
        omega
      · exact Or.inr (Or.inr hseg)
  · intro y hy
    rcases List.mem_cons.1 hy with rfl | hy
    · exact he
    · have hle := h.below y hy
      dsimp only
      omega
  · intro y hy
    have hle := h.saved y hy
    dsimp only
    omega
  · intro y hy z hz
    rcases List.mem_cons.1 hy with rfl | hy
    · exact Or.inr (h.saved z hz).1
    · exact h.apart y hy z hz

/-- The position stakbot is saved. -/
theorem Ready.save (h : Ready w l segs) : Ready { w with saved := w.s.stakbot :: w.saved } l segs := by
  refine ⟨⟨⟨h.linked, h.first, h.topal, h.begal, h.pos, h.incr, h.busied, h.sorted, h.owned, h.nodup,
    h.size, h.segsize⟩, h.top, h.bas, h.bot, h.stk, h.botal, h.items, h.below, ?_, ?_, ?_⟩, h.cur⟩
  · intro y hy
    rcases List.mem_cons.1 hy with rfl | hy
    · exact ⟨Nat.le_refl _, h.botal⟩
    · exact h.saved y hy
  · exact List.pairwise_cons.2 ⟨fun y hy => (h.saved y hy).1, h.order⟩
  · intro y hy z hz
    rcases List.mem_cons.1 hz with rfl | hz
    · exact Or.inl (h.below y hy)
    · exact h.apart y hy z hz

theorem Ready.locstak (h : Ready w l segs) : Ready { w with s := locstak w.s } l segs := by
  refine ⟨⟨⟨h.linked, h.first, h.topal, h.begal, h.pos, ?_, h.busied, h.sorted, h.owned, h.nodup,
    h.size, h.segsize⟩, h.top, h.bas, h.bot, h.stk, h.botal, h.items, h.below, h.saved, h.order,
    h.apart⟩, h.cur⟩
  have hi := h.incr
  have hcase : (Sh.locstak w.s).brkincr = w.s.brkincr + 256 ∨
      (Sh.locstak w.s).brkincr = w.s.brkincr := by
    rw [Sh.locstak]
    split
    · exact Or.inl rfl
    · exact Or.inr rfl
  dsimp only
  omega

theorem Ready.pushstak (h : Ready w l segs) (v : Nat) : Ready { w with s := pushstak v w.s } l segs := by
  have hbot := h.bot
  have hstk := h.stk
  have hw := @Ready.write_high (Function.update w.s.mem w.s.staktop v) _ _ _ h fun b hb =>
    Function.update_of_ne (by omega) _ _
  exact ⟨⟨⟨hw.linked, hw.first, hw.topal, hw.begal, hw.pos, hw.incr, hw.busied, hw.sorted, hw.owned,
    hw.nodup, hw.size, hw.segsize⟩, hw.top, hw.bas, hw.bot, Nat.le_succ_of_le hstk, hw.botal,
    hw.items, hw.below, hw.saved, hw.order, hw.apart⟩, hw.cur⟩

end Svr32.Sh

/-! sh/blok.c and sh/stak.c: any run of the calls, from the call of addblok in main on. -/
namespace Svr32.Sh
open Svr32.Lib
variable {base : Nat} {l segs : List Nat} {w w' : World}

inductive Step (base : Nat) : World → World → Prop
  | alloc {w : World} {n p : Nat} {s' : State} : Ends (fun f => alloc base n f w.s) (p, s') →
      Step base w { w with s := s', live := (p, n) :: w.live }
  | free {w : World} {x : Nat × Nat} : x ∈ w.live →
      Step base w { w with s := free x.1 w.s, live := w.live.erase x }
  | store {w : World} {b v : Nat} : Protected w.live w.items b →
      Step base w { w with s := { w.s with mem := Function.update w.s.mem b v } }
  | pushstak {w : World} {c : Nat} : Step base w { w with s := pushstak c w.s }
  | getstak {w : World} {asize : Nat} : Step base w { w with
      s := (getstak asize w.s).2, items := ((getstak asize w.s).1, asize) :: w.items }
  | endstak {w : World} {argp : Nat} : w.s.stakbot ≤ argp → Step base w { w with
      s := (endstak argp w.s).2, items := ((endstak argp w.s).1, argp + 1 - w.s.stakbot) :: w.items }
  | locstak {w : World} : Step base w { w with s := locstak w.s }
  | savstak {w : World} : Step base w { w with saved := w.s.stakbot :: w.saved }
  | tdystak {w : World} {x : Nat} {l1 l2 : List Nat} {s' : State} : w.saved = l1 ++ x :: l2 →
      Ends (fun f => tdystak f x w.s) s' → Step base w { w with
        s := s', items := w.items.filter fun y => y.1 + y.2 ≤ x, saved := x :: l2 }

/- What addblok makes of variables that are 0; BRKINCR is 512. -/
def first (base : Nat) (m : Mem) : State :=
  addblok base 0 ⟨m, 512, 0, 0, 0, 0, 0, 0, 0⟩

theorem Ends.unique {α : Type*} {g : Nat → Option α} {x y : α} (h : Ends g x) (h' : Ends g y) :
    x = y := by
  obtain ⟨n, hn⟩ := h
  obtain ⟨k, hk⟩ := h'
  have heq := (hn (max n k) (Nat.le_max_left n k)).symm.trans (hk (max n k) (Nat.le_max_right n k))
  exact Option.some.inj heq

/-- Two runs of bytes have none in common. -/
def Apart (x y : Nat × Nat) : Prop := ∀ b, x.1 ≤ b → b < x.1 + x.2 → ¬ (y.1 ≤ b ∧ b < y.1 + y.2)

/-- The chain is in order and comes back to its beginning, and the blocks on it that are in use are
large enough and apart from each other, from the finished items and from the unfinished one. -/
structure Sound (w : World) (l : List Nat) : Prop where
  chain : Linked w.s.mem l w.s.bloktop
  first : nxt l w.s.bloktop = w.s.brkbegin
  top : w.s.mem w.s.bloktop = w.s.brkbegin + 1
  live : ∀ x ∈ w.live, x.1 - 4 ∈ l ∧ busy w.s.mem (x.1 - 4) ∧ 4 ≤ x.1 ∧
    x.1 + x.2 ≤ clear (w.s.mem (x.1 - 4))
  apart : w.live.Pairwise Apart
  items : ∀ x ∈ w.live, ∀ y ∈ w.items, Apart x y
  item : ∀ x ∈ w.live, Apart x (w.s.stakbot, w.s.staktop - w.s.stakbot)

theorem Ready.sound (h : Ready w l segs) : Sound w l := by
  have hdis : ∀ x ∈ w.live, ∀ u, Owned w.s.mem l u → u ≠ x.1 →
      stop w.s.mem x.1 ≤ u ∨ stop w.s.mem u ≤ x.1 := by
    intro x hx u hu hne
    obtain ⟨hm, -, h4⟩ := hu.header
    rcases h.toBody.disjoint (h.mem_live hx) hm (by omega) with hd | hd
    · exact Or.inl (by omega)
    · exact Or.inr (by rw [stop]; omega)
  refine ⟨h.linked, h.first, h.top, ?_, ?_, ?_, ?_⟩
  · intro x hx
    obtain ⟨hm, hb, h4⟩ := (h.mem_live hx).header
    exact ⟨hm, hb, h4, h.size x hx⟩
  · have hnd := List.nodup_append.1 h.nodup
    have hpw : w.live.Pairwise fun x y => x.1 ≠ y.1 := List.pairwise_map.1 hnd.1
    apply hpw.imp_of_mem
    intro x y hx hy hne b hlo hhi
    have hsx := h.size x hx
    have hsy := h.size y hy
    have hd := hdis x hx y.1 (h.mem_live hy) hne.symm
    omega
  · intro x hx y hy b hlo hhi hc
    have hsx := h.size x hx
    have hle := h.stop_le (h.mem_live hx)
    have hbas := h.bas
    rcases h.items y hy with h0 | hcur | ⟨c, hcm, hin⟩
    · omega
    · omega
    · have hne : c ≠ x.1 := fun he => h.toBody.live_seg hx (he ▸ hcm)
      have hd := hdis x hx c (h.mem_segs hcm) hne
      omega
  · intro x hx b hlo hhi hc
    have hsx := h.size x hx
    have hle := h.stop_le (h.mem_live hx)
    have hbas := h.bas
    have hbot := h.bot
    dsimp only at hc
    omega

/- The shell at its start, and then with the item a, NUL, b unfinished. -/
def fresh : World := ⟨first 4 fun _ => 0, [], [], []⟩

end Svr32.Sh
