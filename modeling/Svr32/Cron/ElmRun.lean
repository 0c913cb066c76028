import Svr32.Cron.Remove
import Svr32.Cron.Add

/-! What the event list is for: the events in the order in which they are due, and those due at
the same time in the order in which they were added. -/
namespace Svr32.Cron
variable {p q l₁ l₂ L R : List Face} {e f : Face}

/- Of the events in the order in which they were added, the first of those that are due first. -/
def front (p : List Face) : Option Face := p.find? fun f => p.all fun g => f.time ≤ g.time

/-- `q` are the events `p` in order of time; those of one time are in the same order in both. -/
def Stable (p q : List Face) : Prop :=
  q.Pairwise (fun f g => f.time ≤ g.time) ∧
    ∀ τ : Int, q.filter (fun f => f.time == τ) = p.filter fun f => f.time == τ

theorem Stable.mem (h : Stable p q) : f ∈ q ↔ f ∈ p := by
  have hf := congrArg (fun l => f ∈ l) (h.2 f.time)
  simpa [List.mem_filter] using hf

theorem Stable.nil : Stable [] [] := ⟨List.Pairwise.nil, fun _ => rfl⟩

theorem Stable.add (h : Stable p (L ++ R)) (hL : ∀ g ∈ L, g.time ≤ e.time)
    (hR : ∀ g ∈ R, e.time < g.time) : Stable (p ++ [e]) (L ++ e :: R) := by
  obtain ⟨hl, hr, hlr⟩ := List.pairwise_append.1 h.1
  refine ⟨List.pairwise_append.2 ⟨hl, List.pairwise_cons.2 ⟨fun g hg => ?_, hr⟩,
    fun g hg k hk => ?_⟩, fun τ => ?_⟩
  · exact Int.le_of_lt (hR g hg)
  · rcases List.mem_cons.1 hk with rfl | hk
    · exact hL g hg
    · exact hlr g hg k hk
  · have hτ := h.2 τ
    rw [List.filter_append] at hτ
    rw [List.filter_append, List.filter_append, ← hτ, List.append_assoc]
    congr 1
    by_cases he : e.time = τ
    · have hnil : R.filter (fun f => f.time == τ) = [] := by
        refine List.filter_eq_nil_iff.2 fun g hg => ?_
        have hlt := hR g hg
        simp only [beq_iff_eq]
        omega
      rw [List.filter_cons_of_pos (by simpa using he), hnil,
        List.filter_cons_of_pos (by simpa using he)]
      rfl
    · rw [List.filter_cons_of_neg (by simpa using he), List.filter_cons_of_neg (by simpa using he)]
      simp

/-- The first of the events in order is the one that `front` names. -/
theorem Stable.front (h : Stable p (f :: q)) : front p = some f := by
  have hfilter := h.2 f.time
  rw [List.filter_cons_of_pos (by simp)] at hfilter
  obtain ⟨m₁, m₂, he, hm, -, -⟩ := List.filter_eq_cons_iff.1 hfilter.symm
  have hle : ∀ g ∈ p, f.time ≤ g.time := by
    intro g hg
    rcases List.mem_cons.1 (h.mem.2 hg) with rfl | hg
    · exact Int.le_refl _
    · exact (List.pairwise_cons.1 h.1).1 g hg
  have hfront : ∀ g : Face, (p.all fun k => decide (g.time ≤ k.time)) = true ↔
      ∀ k ∈ p, g.time ≤ k.time := by
    intro g
    rw [List.all_eq_true]
    simp only [decide_eq_true_eq]
  have hfp : f ∈ p := h.mem.1 List.mem_cons_self
  rw [Cron.front]
  conv_lhs => rw [he]
  refine Lib.Linked.find?_stop (fun g hg => ?_) ?_
  · rw [← he, Bool.eq_false_iff]
    intro hall
    have hgf := (hfront g).1 hall f hfp
    have hfg := hle g (by rw [he]; exact List.mem_append_left _ hg)
    have hne := hm g hg
    simp only [beq_iff_eq] at hne
    omega
  · rw [← he]
    exact (hfront f).2 hle

theorem filter_erase (P : Face → Bool) (p : List Face) (f : Face) :
    (p.erase f).filter P = if P f then (p.filter P).erase f else p.filter P := by
  induction p with
  | nil => simp
  | cons g p ih =>
    by_cases hg : g = f
    · subst hg
      rw [List.erase_cons_head]
      by_cases hP : P g = true
      · rw [if_pos hP, List.filter_cons_of_pos hP, List.erase_cons_head]
      · rw [if_neg hP, List.filter_cons_of_neg hP]
    · rw [List.erase_cons_tail (by simpa using hg), List.filter_cons, List.filter_cons, ih]
      split <;> split <;> simp [List.erase_cons_tail, hg]

/-- An event is taken out of both. -/
theorem Stable.erase (h : Stable p (l₁ ++ f :: l₂)) (hf : f ∉ l₁) :
    Stable (p.erase f) (l₁ ++ l₂) := by
  refine ⟨h.1.sublist (List.Sublist.append_left (List.sublist_cons_self f l₂) l₁), fun τ => ?_⟩
  have hτ := h.2 τ
  rw [filter_erase, ← hτ, List.filter_append, List.filter_append]
  by_cases he : f.time = τ
  · rw [if_pos (by simpa using he), List.filter_cons_of_pos (by simpa using he),
      List.erase_append_right _ (fun hm => hf (List.mem_of_mem_filter hm)), List.erase_cons_head]
  · rw [if_neg (by simpa using he), List.filter_cons_of_neg (by simpa using he)]

theorem Stable.filter (h : Stable p q) (P : Face → Bool) : Stable (p.filter P) (q.filter P) := by
  refine ⟨h.1.filter P, fun τ => ?_⟩
  rw [List.filter_comm, h.2 τ, List.filter_comm]

/- What el_remove is asked to leave. -/
def without (p : List Face) (id flag : Int) : List Face :=
  if flag ≠ 0 then
    match front (p.filter fun f => f.id == id) with
    | some f => p.erase f
    | none => p
  else p.filter fun f => !(f.id == id)

theorem Stable.remaining (h : Stable p q) (id flag : Int) :
    Stable (without p id flag) (remaining id flag q) := by
  rw [without, Cron.remaining]
  split
  · have hid := h.filter fun f => f.id == id
    cases hq : q.filter fun f => f.id == id with
    | nil =>
      have hp : (p.filter fun f => f.id == id) = [] := by
        refine List.eq_nil_iff_forall_not_mem.2 fun f hf => ?_
        have hfq := hid.mem.2 hf
        rw [hq] at hfq
        cases hfq
      have hno : ∀ f ∈ q, ¬ (f.id == id) = true := List.filter_eq_nil_iff.1 hq
      have hnone : Cron.front [] = none := rfl
      rw [hp, hnone, List.eraseP_of_forall_not hno]
      exact h
    | cons f fs =>
      rw [hq] at hid
      obtain ⟨m₁, m₂, rfl, hm, hf, -⟩ := List.filter_eq_cons_iff.1 hq
      have herase : (m₁ ++ f :: m₂).eraseP (fun g => g.id == id) = m₁ ++ m₂ := by
        rw [List.eraseP_append_right _ hm]
        exact congrArg _ (List.eraseP_cons_of_pos (p := fun g : Face => g.id == id) hf)
      rw [hid.front, herase]
      exact h.erase fun hmem => hm f hmem hf
  · exact h.filter _

end Svr32.Cron

/-! Runs of el_add, el_remove and el_first from el_init on. -/
namespace Svr32.Cron
open Svr32.Lib Svr32.Lib.Linked
variable {s s' : El} {bs : List Block} {p : List Face}

/- The list of el_init: the dummy notices, each with a key. -/
def bare : Nat → List Int → List Block
  | _, [] => []
  | a, t :: ts => ⟨dummyKey a t, [], dummy a t⟩ :: bare (a + 1) ts

section bare
variable (a : Nat) (ts : List Int)

theorem notesOf_bare : notesOf (bare a ts) = ts.mapIdx fun i t => dummy (a + i) t := by
  induction ts generalizing a with
  | nil => rfl
  | cons t ts ih =>
    rw [bare, notesOf_cons, ih, List.mapIdx_cons]
    simp only [Nat.add_zero, Nat.add_assoc, Nat.add_comm 1, List.nil_append]

theorem keys_bare : (bare a ts).map Block.key = ts.mapIdx fun i t => dummyKey (a + i) t := by
  induction ts generalizing a with
  | nil => rfl
  | cons t ts ih =>
    rw [bare, List.map_cons, ih, List.mapIdx_cons]
    simp only [Nat.add_zero, Nat.add_assoc, Nat.add_comm 1]

theorem ok_bare : ∀ b ∈ bare a ts, b.Ok := by
  induction ts generalizing a with
  | nil => exact fun _ hb => (nomatch hb)
  | cons t ts ih =>
    exact List.forall_mem_cons.2 ⟨⟨rfl, rfl, rfl, rfl, fun _ hn => (nomatch hn)⟩, ih (a + 1)⟩

theorem addrs_bare : (notesOf (bare a ts)).map addr = List.range' a ts.length ∧
    ((bare a ts).map Block.key).map addr = List.range' a ts.length := by
  induction ts generalizing a with
  | nil => exact ⟨rfl, rfl⟩
  | cons t ts ih =>
    rw [bare, notesOf_cons, List.nil_append, List.map_cons, List.map_cons, List.map_cons,
      (ih (a + 1)).1, (ih (a + 1)).2]
    exact ⟨rfl, rfl⟩

theorem marks_bare : marks (bare a ts) = List.range' a ts.length := by
  induction ts generalizing a with
  | nil => rfl
  | cons t ts ih =>
    rw [bare, marks_cons, ih]
    rfl

theorem events_bare : events (notesOf (bare a ts)) = [] := by
  induction ts generalizing a with
  | nil => rfl
  | cons t ts ih =>
    rw [bare, notesOf_cons, List.nil_append, events_cons, ih]
    rfl

theorem times_bare : (((notesOf (bare a ts)).map Notice.face).filter Face.isdummy).map Face.time =
    ts := by
  induction ts generalizing a with
  | nil => rfl
  | cons t ts ih =>
    rw [bare, notesOf_cons, List.nil_append, List.map_cons]
    exact congrArg (t :: ·) (ih (a + 1))

theorem sorted_bare (hts : ts.Pairwise (· ≤ ·)) :
    ((notesOf (bare a ts)).map Notice.face).Pairwise Earlier := by
  induction ts generalizing a with
  | nil => exact List.Pairwise.nil
  | cons t ts ih =>
    obtain ⟨ht, hts⟩ := List.pairwise_cons.1 hts
    rw [bare, notesOf_cons, List.nil_append, List.map_cons]
    refine List.pairwise_cons.2 ⟨fun f hf => ⟨?_, fun hr => (nomatch hr)⟩, ih (a + 1) hts⟩
    obtain ⟨n, hn, rfl⟩ := List.mem_map.1 hf
    rw [notesOf_bare] at hn
    obtain ⟨i, hi, rfl⟩ := List.mem_mapIdx.1 hn
    exact ht _ (List.getElem_mem hi)

end bare

theorem ladder_mem {dt : Int} (hdt : 0 ≤ dt) {n : Nat} {t x : Int} (hx : x ∈ ladder dt n t) :
    t ≤ x ∧ x ≤ t + (n - 1) * dt := by
  induction n generalizing t with
  | zero => cases hx
  | succ n ih =>
    have hmul : 0 ≤ (n : Int) * dt := Int.mul_nonneg (by omega) hdt
    have hn : ((n + 1 : Nat) - 1 : Int) * dt = n * dt := by
      congr 1
      omega
    rw [hn]
    rcases List.mem_cons.1 hx with rfl | hx
    · omega
    · obtain ⟨hl, hr⟩ := ih hx
      have hs : ((n : Int) - 1) * dt = n * dt - dt := by rw [Int.sub_mul, Int.one_mul]
      omega

theorem ladder_sorted {dt : Int} (hdt : 0 ≤ dt) (n : Nat) (t : Int) :
    (ladder dt n t).Pairwise (· ≤ ·) := by
  induction n generalizing t with
  | zero => exact List.Pairwise.nil
  | succ n ih =>
    refine List.pairwise_cons.2 ⟨fun x hx => ?_, ih (t + dt)⟩
    have hx := (ladder_mem hdt hx).1
    omega

theorem ladder_length (dt : Int) (n : Nat) (t : Int) : (ladder dt n t).length = n := by
  induction n generalizing t with
  | zero => rfl
  | succ n ih => rw [ladder, List.length_cons, ih]

/- The marks of el_init, as long as the clock does not overflow. -/
theorem ticks_eq {dt : Int} (hdt : 0 ≤ dt) {n : Nat} {t : Int} (ht : -2 ^ 31 ≤ t)
    (htop : t + n * dt ≤ INFINITY) : ticks dt n t = ladder dt n (t + dt) := by
  induction n generalizing t with
  | zero => rfl
  | succ n ih =>
    have hmul : 0 ≤ (n : Int) * dt := Int.mul_nonneg (by omega) hdt
    have hs : ((n + 1 : Nat) : Int) * dt = n * dt + dt := by
      rw [Int.natCast_succ, Int.add_mul, Int.one_mul]
    have hinf : INFINITY = 2147483647 := rfl
    have hi : i32 (t + dt) = t + dt := i32_eq (by omega) (by omega)
    rw [ticks, hi, ladder, ih (by omega) (by omega)]

/- What is known of a list that el_init has made. -/
structure Begin (du lb dt nlim : Int) : Prop where
  intervals : 1 ≤ du
  width : 1 ≤ dt
  limit : 1 ≤ nlim
  bound : -2 ^ 31 ≤ lb
  top : lb + du * dt ≤ INFINITY

theorem elInit_spec {du lb dt nlim : Int} (h : Begin du lb dt nlim) (s : El) :
    ∃ bs, Sound (elInit du lb dt nlim s) bs (lb + dt) ∧
      events (elInit du lb dt nlim s).notices = [] := by
  obtain ⟨hdu, hdt, hnlim, hlb, htop⟩ := h
  have hcast : (du.toNat : Int) = du := Int.toNat_of_nonneg (by omega)
  have hinf : INFINITY = 2147483647 := rfl
  have hdt0 : 0 ≤ dt := by omega
  have hticks : ticks dt du.toNat lb = ladder dt du.toNat (lb + dt) :=
    ticks_eq hdt0 hlb (by rw [hcast]; exact htop)
  obtain ⟨ts, hts⟩ : ∃ ts, ts = lb :: (ladder dt du.toNat (lb + dt) ++ [INFINITY]) := ⟨_, rfl⟩
  have hlen : ts.length = du.toNat + 2 := by
    rw [hts, List.length_cons, List.length_append, ladder_length]
    rfl
  have hmul : 0 ≤ (du - 1) * dt := Int.mul_nonneg (by omega) hdt0
  have hlast : lb + dt + (du - 1) * dt = lb + du * dt := by
    rw [Int.sub_mul, Int.one_mul]
    omega
  have hmem : ∀ x ∈ ladder dt du.toNat (lb + dt), lb ≤ x ∧ x ≤ INFINITY := by
    intro x hx
    obtain ⟨hl, hr⟩ := ladder_mem hdt0 hx
    rw [hcast] at hr
    omega
  have hsort : ts.Pairwise (· ≤ ·) := by
    rw [hts]
    refine List.pairwise_cons.2 ⟨fun x hx => ?_, List.pairwise_append.2
      ⟨ladder_sorted hdt0 _ _, List.pairwise_singleton _ _, fun x hx y hy => ?_⟩⟩
    · rcases List.mem_append.1 hx with hx | hx
      · exact (hmem x hx).1
      · rw [List.mem_singleton.1 hx]
        omega
    · rw [List.mem_singleton.1 hy]
      exact (hmem x hx).2
  have hinit : elInit du lb dt nlim s =
      { DU := du + 1, LB := lb, DT := dt, NLIM := nlim, notices := notesOf (bare s.fresh ts),
        keys := (bare s.fresh ts).map Block.key, index := (marks (bare s.fresh ts)).tail,
        current := none, fresh := s.fresh + (du.toNat + 2) } := by
    have hindex : (marks (bare s.fresh ts)).tail =
        (List.range (du.toNat + 1)).map fun i => s.fresh + (i + 1) := by
      rw [marks_bare, hlen, List.range'_succ, List.tail_cons, List.range'_eq_map_range]
      exact List.map_congr_left fun i _ => by omega
    rw [elInit, if_neg (by omega), hticks, ← hts, notesOf_bare, keys_bare, hindex]
  obtain ⟨hna, hka⟩ := addrs_bare s.fresh ts
  refine ⟨bare s.fresh ts, ?_, by rw [hinit]; exact events_bare s.fresh ts⟩
  rw [hinit]
  refine ⟨⟨⟨rfl, rfl, ok_bare s.fresh ts, ?_, ?_, ?_, ?_⟩, ?_, hdt, ?_, hlb, ?_, ⟨?_, ?_, ?_⟩, rfl⟩,
    ?_⟩
  · rw [Distinct]
    simp only
    rw [hna]
    exact List.nodup_range'
  · rw [Distinct]
    simp only
    rw [hka]
    exact List.nodup_range'
  · intro n hn
    have ha : n.addr ∈ List.range' s.fresh ts.length := hna ▸ List.mem_map_of_mem hn
    obtain ⟨-, hlt⟩ := List.mem_range'_1.1 ha
    simp only
    omega
  · intro k hk
    have ha : k.addr ∈ List.range' s.fresh ts.length := hka ▸ List.mem_map_of_mem hk
    obtain ⟨-, hlt⟩ := List.mem_range'_1.1 ha
    simp only
    omega
  · simp only
    omega
  · simp only
    omega
  · simp only
    rw [show du + 1 - 2 = du - 1 by omega, hlast]
    exact htop
  · exact sorted_bare s.fresh ts hsort
  · intro f hf hr
    have hno := List.filter_eq_nil_iff.1 (events_bare s.fresh ts) f hf
    rw [hr] at hno
    exact (hno rfl).elim
  · rw [show du + 1 - 1 = du by omega, ← hts]
    exact times_bare s.fresh ts
  · rw [faces, find_events, events_bare]
    rfl

inductive Call where
  | add (event : Nat) (time id : Int)
  | remove (id flag : Int)
  | first

/- A call, and the event that it returns. -/
def call (s : El) : Call → Option (El × Option Nat)
  | .add event time id => (elAdd s event time id).map fun s => (s, none)
  | .remove id flag => (elRemove s id flag).map fun s => (s, none)
  | .first => elFirst s

/- What a call is for: `p` are the events that are present, in the order they were added, and `a`
tells the new one from the others. -/
def after (a : Nat) (p : List Face) : Call → List Face × Option Nat
  | .add event time id => (p ++ [⟨a, time, id, event, false⟩], none)
  | .remove id flag => (without p id flag, none)
  | .first =>
    match front p with
    | some f => (p.erase f, some f.event)
    | none => (p, none)

/- The time of the first index entry. -/
def firstMark (s : El) : Int :=
  ((s.index.head?.bind fun a => at? a s.keys).map Key.time).getD 0

/-- The calls that the list manager carries out as it should. -/
def Good (s : El) : Call → Prop
  | .add _ time _ => s.LB ≤ time ∧ time < INFINITY ∧ 2 ≤ s.NLIM
  | .remove id flag => events s.notices = [] ∨ remaining id flag (events s.notices) ≠ []
  | .first => ∀ f ∈ (events s.notices).head?, Room s (firstMark s) f.time

/- A run of good calls after el_init, with the events that should be present. -/
inductive Run (du lb dt nlim : Int) : El → List Face → Prop
  | init (s : El) : Run du lb dt nlim (elInit du lb dt nlim s) []
  | step {s s' : El} {p : List Face} (c : Call) (out : Option Nat) : Run du lb dt nlim s p →
      Good s c → call s c = some (s', out) → Run du lb dt nlim s' (after s.fresh p c).1

/-- The list is well formed and has the events, those due first in front. -/
structure Listing (s : El) (p : List Face) : Prop where
  sound : ∃ bs t, Sound s bs t
  stable : Stable p (events s.notices)

/-- A good call does what it is for, and leaves a well-formed list. -/
theorem Listing.call {c : Call} (h : Listing s p) (hc : Good s c) :
    ∃ s', call s c = some (s', (after s.fresh p c).2) ∧ Listing s' (after s.fresh p c).1 := by
  obtain ⟨⟨bs, t, hs⟩, hp⟩ := h
  cases c with
  | add event time id =>
    obtain ⟨hlb, hinf, hN⟩ := hc
    obtain ⟨s', bs', L, R, hadd, hs', -, hf, hf', hL, hR⟩ := @elAdd_spec _ _ _ _ event id hs hN
      hlb hinf
    refine ⟨s', by rw [Cron.call, hadd]; rfl, ⟨bs', t, hs'⟩, ?_⟩
    have hev : events s.notices = L.filter (fun f => !f.isdummy) ++
        R.filter fun f => !f.isdummy := by
      rw [← List.filter_append, ← hf]
      rfl
    have hev' : events s'.notices = L.filter (fun f => !f.isdummy) ++
        ⟨s.fresh, time, id, event, false⟩ :: R.filter fun f => !f.isdummy := by
      rw [events, ← faces, hf', List.filter_append]
      rfl
    rw [hev] at hp
    rw [hev']
    exact hp.add (fun g hg => hL g (List.mem_of_mem_filter hg))
      fun g hg => hR g (List.mem_of_mem_filter hg)
  | remove id flag =>
    obtain ⟨s', bs', hrem, hs', hev, -⟩ := elRemove_spec hs hc
    refine ⟨s', by rw [Cron.call, hrem]; rfl, ⟨bs', t, hs'⟩, ?_⟩
    rw [hev]
    exact hp.remaining id flag
  | first =>
    have hmark : firstMark s = t := by
      obtain ⟨ia, k, hi, hk, ht⟩ := hs.first_mark
      rw [firstMark, hi, Option.bind_some, hk]
      exact ht
    cases hev : events s.notices with
    | nil =>
      have hp0 : p = [] := by
        refine List.eq_nil_iff_forall_not_mem.2 fun f hf => ?_
        have hm := hp.mem.2 hf
        rw [hev] at hm
        cases hm
      have hcur := hs.current
      rw [faces, find_events, hev] at hcur
      subst hp0
      refine ⟨s, ?_, ⟨bs, t, hs⟩, hp⟩
      rw [Cron.call, elFirst, hcur]
      split <;> rfl
    | cons f fs =>
      have hroom := hc f (by rw [hev]; rfl)
      rw [hmark] at hroom
      obtain ⟨s', bs', t', hfirst, hs', hev', -⟩ := elFirst_spec hs hev hroom
      rw [hev] at hp
      have hafter : after s.fresh p .first = (p.erase f, some f.event) := by
        rw [after, hp.front]
      rw [hafter]
      refine ⟨s', hfirst, ⟨bs', t', hs'⟩, ?_⟩
      rw [hev']
      exact @Stable.erase p [] fs f hp (by rintro ⟨⟩)

/-- As long as the calls are good, el_first returns the event that is due first, el_remove takes
what it is asked to take, and the list is well formed. -/
theorem elm_run {du lb dt nlim : Int} (hi : Begin du lb dt nlim) (h : Run du lb dt nlim s p) :
    Listing s p ∧ ∀ c, Good s c → ∃ s',
      call s c = some (s', (after s.fresh p c).2) ∧ Listing s' (after s.fresh p c).1 := by
  have hl : Listing s p := by
    induction h with
    | init s =>
      obtain ⟨bs, hs, hev⟩ := elInit_spec hi s
      exact ⟨⟨bs, _, hs⟩, hev ▸ Stable.nil⟩
    | step c out _ hg hc ih =>
      obtain ⟨s', hc', hs'⟩ := ih.call hg
      rw [hc] at hc'
      cases hc'
      exact hs'
  exact ⟨hl, fun c hg => hl.call hg⟩

def nothing : El := ⟨0, 0, 0, 0, [], [], [], none, 0⟩

/- An event at five, and intervals of ten from zero on. -/
def one : El := (elAdd (elInit 2 0 10 4 nothing) 1 5 7).getD nothing

theorem elm_run_one : Listing one [⟨4, 5, 7, 1, false⟩] ∧ ∀ c, Good one c → ∃ s',
    call one c = some (s', (after one.fresh [⟨4, 5, 7, 1, false⟩] c).2) ∧
      Listing s' (after one.fresh [⟨4, 5, 7, 1, false⟩] c).1 :=
  @elm_run one _ 2 0 10 4
    ⟨by decide, by decide, by decide, by decide, by decide⟩
    (.step (.add 1 5 7) none (.init nothing) ⟨by decide, by decide, by decide⟩ rfl)

/-- When el_remove takes the last event, it looks for `current` past the end of the list. -/
theorem last_event_not_removed :
    let s := elInit 8 0 86400 10 nothing
    ∃ s', call s (.add 1 100 7) = some (s', none) ∧ events s'.notices = [⟨10, 100, 7, 1, false⟩] ∧
      call s' (.remove 7 1) = none := by
  refine ⟨_, rfl, ?_, ?_⟩ <;> decide

end Svr32.Cron
