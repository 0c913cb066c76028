import Svr32.Cron.Rotate

/-! el_first as a whole: the index advances to the first event, which is then taken. -/
namespace Svr32.Cron
open Svr32.Lib Svr32.Lib.Linked
variable {s s' : El} {bs : List Block} {t time : Int}

/- The first index entry is at `t`. -/
theorem Kept.first_mark (h : Kept s bs t) :
    ∃ ia k, s.index.head? = some ia ∧ at? ia s.keys = some k ∧ k.time = t := by
  obtain ⟨b₀, ms, hf, -, hi, hm⟩ := h.marked
  have hdu := h.du
  obtain ⟨n, hn⟩ : ∃ n, (s.DU - 1).toNat = n + 1 := ⟨(s.DU - 2).toNat, by omega⟩
  rw [hn, ladder, List.cons_append] at hm
  obtain ⟨m, ms', rfl, ht, -⟩ := List.map_eq_cons_iff.1 hm
  have hmem : m ∈ bs := List.mem_of_mem_filter (p := Block.marked) (by rw [hf]; simp)
  obtain ⟨p, q, rfl⟩ := List.append_of_mem hmem
  exact ⟨m.key.addr, m.key, by rw [hi]; rfl, h.shape.at_key, ht⟩

/-- The index can advance to the time: it has more than two intervals, and the last of the marks
does not go past the end of time. -/
def Room (s : El) (t time : Int) : Prop :=
  t < time → 3 ≤ s.DU ∧ t + ((time - 1 - t) / s.DT + s.DU - 1) * s.DT ≤ INFINITY

theorem Room.next (h : Room s t time) (hdt : 1 ≤ s.DT) (hlt : t < time) :
    t + (s.DU - 1) * s.DT ≤ INFINITY ∧ Room s (t + s.DT) time := by
  obtain ⟨hdu, hroom⟩ := h hlt
  have hq : 0 ≤ (time - 1 - t) / s.DT := Int.ediv_nonneg (by omega) (by omega)
  constructor
  · have hmul : 0 ≤ (time - 1 - t) / s.DT * s.DT := Int.mul_nonneg hq (by omega)
    have he : ((time - 1 - t) / s.DT + s.DU - 1) * s.DT =
        (time - 1 - t) / s.DT * s.DT + (s.DU - 1) * s.DT := by
      rw [← Int.add_mul]
      congr 1
      omega
    omega
  · intro hlt'
    refine ⟨hdu, ?_⟩
    have hsub : (time - 1 - (t + s.DT)) / s.DT = (time - 1 - t) / s.DT - 1 := by
      have hs : time - 1 - (t + s.DT) = (time - 1 - t) + (-1) * s.DT := by omega
      rw [hs, Int.add_mul_ediv_right _ _ (by omega)]
      omega
    rw [hsub]
    have he : ((time - 1 - t) / s.DT - 1 + s.DU - 1) * s.DT =
        ((time - 1 - t) / s.DT + s.DU - 1) * s.DT - s.DT := by
      rw [show (time - 1 - t) / s.DT - 1 + s.DU - 1 =
        ((time - 1 - t) / s.DT + s.DU - 1) - 1 by omega, Int.sub_mul, Int.one_mul]
    omega

theorem mem_events {ns : List Notice} {f : Face} :
    f ∈ events ns ↔ f.isdummy = false ∧ ∃ n ∈ ns, n.face = f := by
  rw [events, List.mem_filter, List.mem_map, Bool.not_eq_true', and_comm]

/-- As long as there is room, the index advances until its first interval has the time. -/
theorem advance_spec {n : Nat} (h : Kept s bs t) (hlate : ∀ f ∈ events s.notices, time ≤ f.time)
    (hroom : Room s t time) (hn : time - t < n) (hn0 : 0 < n) :
    ∃ s' bs' t', advance time n s = some s' ∧ Kept s' bs' t' ∧ time ≤ t' ∧
      events s'.notices = events s.notices ∧
      s' = { s with index := s'.index, notices := s'.notices, keys := s'.keys } := by
  induction n generalizing s bs t with
  | zero => cases hn0
  | succ n ih =>
    obtain ⟨ia, k, hi, hk, ht⟩ := h.first_mark
    by_cases hlt : t < time
    · obtain ⟨hdu, -⟩ := hroom hlt
      obtain ⟨htop, hroom'⟩ := hroom.next h.dt hlt
      have hdt := h.dt
      obtain ⟨u, cs, hrot, hu, hev, heq⟩ := rotate_spec h hdu (fun m hm hr => by
        have hle := hlate m.face (mem_events.2 ⟨hr, m, hm, rfl⟩)
        have hle' : time ≤ m.time := hle
        omega) htop
      have hDT : u.DT = s.DT := by rw [heq]
      have hDU : u.DU = s.DU := by rw [heq]
      have hroomu : Room u (t + s.DT) time := by
        rw [Room, hDT, hDU]
        exact hroom'
      obtain ⟨s', bs', t', had, hk', hle, hev', heq'⟩ := ih hu (hev ▸ hlate) hroomu (by omega)
        (by omega)
      refine ⟨s', bs', t', ?_, hk', hle, hev'.trans hev, ?_⟩
      · rw [advance]
        simp only [Option.bind_eq_bind, hi, Option.bind_some, hk, ht, if_pos hlt, shift,
          if_neg (show ¬ s.DU = 2 by omega), hrot, had]
      · rw [heq', heq]
    · refine ⟨s, bs, t, ?_, h, by omega, rfl, rfl⟩
      rw [advance]
      simp only [Option.bind_eq_bind, hi, Option.bind_some, hk, ht, if_neg hlt]

theorem find_events (ns : List Notice) :
    (ns.map Notice.face).find? (fun f => !f.isdummy) = (events ns).head? := by
  rw [events, List.head?_filter]

/-- el_first gives the first event; the others stay, in their order. -/
theorem elFirst_spec {f : Face} {fs : List Face} (h : Sound s bs t)
    (hev : events s.notices = f :: fs) (hroom : Room s t f.time) :
    ∃ s' bs' t', elFirst s = some (s', some f.event) ∧ Sound s' bs' t' ∧
      events s'.notices = fs ∧ s'.NLIM = s.NLIM := by
  have hcur : s.current = some f.addr := by
    rw [h.current, faces, find_events, hev]
    rfl
  -- the first event is the first notice that is not a dummy
  have hfirst : ∀ (u : El), events u.notices = f :: fs → ∃ L cur R, u.notices = L ++ cur :: R ∧
      cur.face = f ∧ (∀ m ∈ L, m.isdummy = true) ∧ cur.isdummy = false ∧ events R = fs := by
    intro u hu
    rw [events] at hu
    obtain ⟨l₁, l₂, he, hl, hreal, hfs⟩ := List.filter_eq_cons_iff.1 hu
    obtain ⟨L, R', hLR, hL, hR⟩ := List.map_eq_append_iff.1 he
    obtain ⟨cur, R, rfl, hc, hR⟩ := List.map_eq_cons_iff.1 hR
    refine ⟨L, cur, R, hLR, hc, fun m hm => ?_, ?_, ?_⟩
    · have hn := hl m.face (hL ▸ List.mem_map_of_mem hm)
      simpa [Notice.face] using hn
    · have hr : cur.face.isdummy = false := by
        rw [hc]
        simpa using hreal
      exact hr
    · rw [events, hR, hfs]
  have hat : ∀ (u : El) (L : List Notice) (cur : Notice) (R : List Notice), Distinct u.notices →
      u.notices = L ++ cur :: R → cur.face = f → at? f.addr u.notices = some cur := by
    intro u L cur R hd hu hc
    have ha : f.addr = cur.addr := by rw [← hc]; rfl
    rw [hu] at hd ⊢
    rw [ha]
    exact at?_at hd
  obtain ⟨L, cur, R, hs, hc, -, -, -⟩ := hfirst s hev
  have hsort : ∀ g ∈ events s.notices, f.time ≤ g.time := by
    have hp := (h.timeline.sorted).filter fun f => !f.isdummy
    rw [faces, ← events, hev] at hp
    rw [hev]
    exact List.forall_mem_cons.2 ⟨Int.le_refl _, fun g hg => ((List.pairwise_cons.1 hp).1 g hg).1⟩
  have hrange : f.time < INFINITY := by
    have hmem : f ∈ events s.notices := by rw [hev]; exact List.mem_cons_self
    obtain ⟨hr, n, hn, rfl⟩ := mem_events.1 hmem
    exact (h.timeline.real n.face (List.mem_map_of_mem hn) hr).2
  have hinf : INFINITY = 2147483647 := rfl
  have hlb := h.lb
  have hlbr := h.lb_range
  obtain ⟨u, cs, t', had, hu, hle, hevu, hequ⟩ := advance_spec (n := 2 ^ 32) h.toKept hsort hroom
    (by omega) (by omega)
  obtain ⟨L', cur', R', hs', hc', hL', hreal', hR'⟩ := hfirst u (hevu.trans hev)
  have hcuru : Sound u cs t' := ⟨hu, by
    rw [hequ]
    simp only
    rw [h.current, faces, faces, find_events, find_events, hevu]⟩
  obtain ⟨v, ds, htake, hv, hvn, hveq⟩ := takeFirst_spec hcuru hs' hL' hreal'
  refine ⟨v, ds, t', ?_, hv, ?_, ?_⟩
  · have hidx : s.index ≠ [] := by
      obtain ⟨ia, k, hi, -, -⟩ := h.first_mark
      intro h0
      rw [h0] at hi
      cases hi
    have hevent : cur'.event = f.event := by rw [← hc']; rfl
    have htime : cur.time = f.time := by rw [← hc]; rfl
    rw [elFirst, if_neg hidx, hcur]
    simp only [Option.bind_eq_bind, hat s L cur R h.shape.distinct hs hc, Option.bind_some, htime,
      had, hat u L' cur' R' hu.shape.distinct hs' hc', htake, hevent]
  · have hL0 : events L' = [] := by
      rw [events, List.filter_eq_nil_iff]
      intro g hg
      obtain ⟨m, hm, rfl⟩ := List.mem_map.1 hg
      rw [Notice.face, hL' m hm]
      exact Bool.false_ne_true
    rw [hvn, ← hR', events, List.map_append, List.filter_append, ← events, ← events, hL0]
    rfl
  · rw [hveq]
    simp only
    rw [hequ]

end Svr32.Cron
