import Svr32.Malloc.Mfree
import Svr32.Semaphore.Run

/-! The undo entries against what the processes have done: with every vector inside its
set, the entries of a process for the sets that live are its SEM_UNDO operations since. -/
namespace Svr32.Semaphore
open Svr32.Lib Svr32.Ipc
variable {info : Seminfo} {pt : ProcTab} {w : World} {p : Nat} {k : Tables}

/- The id of the set in the slot `s`. -/
def setId (info : Seminfo) (k : Tables) (s : Nat) : Int :=
  (k.sema s).perm.seq * info.semmni + s

/- The units of semmap that belong to the set in the slot `s`. -/
def units (k : Tables) (s : Nat) : Set Nat :=
  Set.Ico ((k.sema s).semBase + 1) ((k.sema s).semBase + 1 + (k.sema s).semNsems)

def Live (k : Tables) (s : Nat) : Prop := (k.sema s).perm.allocated = true

/- The sets that live share no semaphore with each other and none with the free map. -/
structure Mapped (info : Seminfo) (k : Tables) (es : List (Span Nat)) : Prop where
  holds : Malloc.Holds k.semmap es
  pool : Lib.cover es ⊆ Set.Ico 1 (info.semmns + 1)
  slot : ∀ s, Live k s → s < info.semmni
  size : ∀ s, Live k s → 0 < (k.sema s).semNsems ∧ (k.sema s).semNsems ≤ info.semmsl
  inPool : ∀ s, Live k s → units k s ⊆ Set.Ico 1 (info.semmns + 1)
  apart : ∀ s, Live k s → Disjoint (units k s) (Lib.cover es)
  disjoint : ∀ s s', Live k s → Live k s' → s ≠ s' → Disjoint (units k s) (units k s')

/-- Two slots with one id are one slot, whatever happened in between. -/
theorem setId_slot {k' : Tables} {s s' : Nat} (hs : s < info.semmni) (hs' : s' < info.semmni)
    (h : setId info k s = setId info k' s') : s = s' := by
  have hmod : ∀ (a : Nat) (t : Nat), t < info.semmni →
      ((a * info.semmni + t : Int) % info.semmni) = t := by
    intro a t ht
    rw [Int.add_comm, Int.add_mul_emod_self_right]
    exact Int.emod_eq_of_lt (by omega) (by omega)
  simp only [setId] at h
  have h₁ := hmod (k.sema s).perm.seq s hs
  have h₂ := hmod (k'.sema s').perm.seq s' hs'
  rw [h, h₂] at h₁
  omega

/- The entries are of sets that live, and each is the ledger with the other sign. -/
structure Booked (info : Seminfo) (w : World) : Prop where
  mapped : ∃ es, Mapped info w.k es
  calls : ∀ p c, w.call p = some c → c.args.s < info.semmni ∧
    ∃ k, c.args.semid = setId info k c.args.s
  live : ∀ p key, aoeOf (entriesOf p w.k.undo) key ≠ 0 → ∃ s num, Live w.k s ∧
    num < (w.k.sema s).semNsems ∧ key = toLex (setId info w.k s, (num : Int))
  booked : ∀ p s num, Live w.k s → num < (w.k.sema s).semNsems →
    aoeOf (entriesOf p w.k.undo) (toLex (setId info w.k s, (num : Int))) =
      -w.ledger p ((w.k.sema s).semBase + num)

theorem Mapped.congr {es : List (Span Nat)} {k' : Tables} (h : Mapped info k es)
    (hs : k'.sema = k.sema) (hm : k'.semmap = k.semmap) : Mapped info k' es := by
  obtain ⟨h₁, h₂, h₃, h₄, h₅, h₆, h₇⟩ := h
  simp only [Live, units, ← hs, ← hm] at *
  exact ⟨h₁, h₂, h₃, h₄, h₅, h₆, h₇⟩

/-- Semaphores of different sets are different. -/
theorem Mapped.index_ne {es : List (Span Nat)} (h : Mapped info k es) {s s' num num' : Nat}
    (hs : Live k s) (hs' : Live k s') (hne : s ≠ s') (hn : num < (k.sema s).semNsems)
    (hn' : num' < (k.sema s').semNsems) :
    ((k.sema s).semBase + num : Int) ≠ (k.sema s').semBase + num' := by
  intro he
  have hm : (k.sema s).semBase + 1 + num ∈ units k s := ⟨by omega, by omega⟩
  have hm' : (k.sema s).semBase + 1 + num ∈ units k s' := ⟨by omega, by omega⟩
  exact Set.disjoint_left.mp (h.disjoint s s' hs hs' hne) hm hm'

theorem undoSum_eq {done : List Sembuf} {id : Int} {base num : Nat}
    (h : ∀ op ∈ done, op.semNum < 2 ^ 15) :
    undoSum id (toLex (id, (num : Int))) done = undoOn base (base + num) done := by
  induction done with
  | nil => rfl
  | cons op done ih =>
    have hop := h op List.mem_cons_self
    have hi : i16 op.semNum = op.semNum := i16_eq (by omega) (by omega)
    have hiff : (toLex (id, (op.semNum : Int)) = toLex (id, (num : Int))) ↔
        ((base + op.semNum : Int) = base + num) := by
      simp
    simp only [undoSum, undoOn, hi, hiff]
    rw [ih fun op' hop' => h op' (List.mem_cons_of_mem op hop')]

theorem undoSum_other {done : List Sembuf} {id id' num : Int} (h : id' ≠ id) :
    undoSum id (toLex (id', num)) done = 0 := by
  induction done with
  | nil => rfl
  | cons op done ih =>
    have hne : ¬ (op.undo = true ∧ toLex (id, i16 op.semNum) = toLex (id', num)) := by
      intro he
      have hk := toLex_inj.mp he.2
      simp only [Prod.mk.injEq] at hk
      exact h hk.1.symm
    rw [undoSum, ih, if_neg hne, add_zero]

theorem undoSum_ne {done : List Sembuf} {id : Int} {key : Int ×ₗ Int}
    (h : undoSum id key done ≠ 0) : ∃ op ∈ done, toLex (id, i16 op.semNum) = key := by
  induction done with
  | nil => exact absurd rfl h
  | cons op done ih =>
    by_cases hop : op.undo = true ∧ toLex (id, i16 op.semNum) = key
    · exact ⟨op, List.mem_cons_self, hop.2⟩
    · rw [undoSum, if_neg hop, add_zero] at h
      obtain ⟨op', hop', he⟩ := ih h
      exact ⟨op', List.mem_cons_of_mem op hop', he⟩

theorem undoOn_out {ops : List Sembuf} {base : Nat} {i : Int}
    (h : ∀ op ∈ ops, (base + op.semNum : Int) ≠ i) : undoOn base i ops = 0 := by
  induction ops with
  | nil => rfl
  | cons op ops ih =>
    rw [undoOn, ih fun op' hop' => h op' (List.mem_cons_of_mem op hop'),
      if_neg fun he => h op List.mem_cons_self he.2, add_zero]

/-- A step that leaves the sets, the entries and the ledger alone. -/
theorem Booked.same (h : Booked info w) {w' : World} (hs : w'.k.sema = w.k.sema)
    (hm : w'.k.semmap = w.k.semmap) (he : ∀ q, entriesOf q w'.k.undo = entriesOf q w.k.undo)
    (hl : w'.ledger = w.ledger) (hc : ∀ q c, w'.call q = some c → w.call q = some c ∨
      c.args.s < info.semmni ∧ ∃ k, c.args.semid = setId info k c.args.s) : Booked info w' := by
  obtain ⟨es, hes⟩ := h.mapped
  refine ⟨⟨es, hes.congr hs hm⟩, fun q c hq => (hc q c hq).elim (h.calls q c) id,
    fun q key hk => ?_, fun q s num hv hn => ?_⟩
  · simp only [Live, setId, hs]
    exact h.live q key (he q ▸ hk)
  · simp only [Live, hs] at hv hn
    simp only [setId, hs, he, hl]
    exact h.booked q s num hv hn

/-- A call that has performed its operations has them in its entries and in the ledger. -/
theorem Booked.performed (h : Booked info w) {a : Args} {r : Tables × Stop × List Sembuf}
    (hr : r.2.1 = .ok) (ht : Performed info p a.semid (w.k.sema a.s).semBase w.k r.2.2 r.1)
    (hlive : Live w.k a.s) (hid : a.semid = setId info w.k a.s)
    (hnum : ∀ op ∈ r.2.2, op.semNum < (w.k.sema a.s).semNsems) : Booked info (w.turn p a r) := by
  obtain ⟨es, hes⟩ := h.mapped
  have hsl := info.semmsl_lt
  have hsmall : ∀ op ∈ r.2.2, op.semNum < 2 ^ 15 := fun op hop => by
    have h₁ := hnum op hop
    have h₂ := (hes.size a.s hlive).2
    omega
  have hcall : ∀ q c, (w.turn p a r).call q = some c → w.call q = some c := by
    intro q c hq
    by_cases hqp : q = p
    · simp [World.turn, hqp, hr] at hq
    · simpa only [World.turn, Function.update_of_ne hqp] using hq
  have hsema : (w.turn p a r).k.sema = w.k.sema := ht.sema
  have haoe := fun key => ht.undoes.aoe key
  refine ⟨⟨es, hes.congr ht.sema ht.semmap⟩, fun q c hq => h.calls q c (hcall q c hq),
    fun q key hk => ?_, fun q s num hv hn => ?_⟩
  · simp only [Live, setId, hsema]
    by_cases hqp : q = p
    · subst hqp
      change aoeOf (entriesOf q r.1.undo) key ≠ 0 at hk
      by_cases h0 : aoeOf (entriesOf q w.k.undo) key = 0
      · rw [haoe, h0] at hk
        obtain ⟨op, hop, hkey⟩ := (@undoSum_ne r.2.2 a.semid key) (by omega)
        refine ⟨a.s, op.semNum, hlive, hnum op hop, ?_⟩
        have hlt := hsmall op hop
        rw [← hkey, hid, i16_eq (by omega) (by omega)]
        rfl
      · exact h.live q key h0
    · change aoeOf (entriesOf q r.1.undo) key ≠ 0 at hk
      rw [ht.others q hqp] at hk
      exact h.live q key hk
  · simp only [Live, hsema] at hv hn
    simp only [setId, hsema]
    have hold := h.booked q s num hv hn
    simp only [setId] at hold
    show aoeOf (entriesOf q r.1.undo) _ = -(w.turn p a r).ledger q _
    simp only [World.turn, if_pos hr]
    by_cases hqp : q = p
    · subst hqp
      rw [haoe, hold, Function.update_self]
      by_cases hsa : s = a.s
      · subst hsa
        have hsum := (@undoSum_eq _ a.semid (w.k.sema a.s).semBase num) hsmall
        rw [hid, setId] at hsum
        rw [hid, setId, hsum]
        omega
      · have hne : setId info w.k s ≠ a.semid := by
          intro he
          exact hsa (setId_slot (hes.slot s hv) (hes.slot a.s hlive) (he.trans hid))
        have hsum : undoSum a.semid (toLex (setId info w.k s, (num : Int))) r.2.2 = 0 :=
          undoSum_other hne
        simp only [setId] at hsum
        rw [hsum, undoOn_out fun op hop => hes.index_ne hlive hv (Ne.symm hsa) (hnum op hop) hn]
        omega
    · rw [ht.others q hqp, Function.update_of_ne hqp]
      exact hold

/-- A turn of semop, if its operations are inside its set. -/
theorem Booked.turn (h : Booked info w) {a : Args} {r : Tables × Stop × List Sembuf}
    (ht : Turn info p a.semid (w.k.sema a.s).semBase w.k r)
    (hcall : a.s < info.semmni ∧ ∃ k, a.semid = setId info k a.s)
    (hok : r.2.1 = .ok → Live w.k a.s ∧ a.semid = setId info w.k a.s ∧
      ∀ op ∈ r.2.2, op.semNum < (w.k.sema a.s).semNsems) : Booked info (w.turn p a r) := by
  by_cases hr : r.2.1 = .ok
  · obtain ⟨hlive, hid, hnum⟩ := hok hr
    exact h.performed hr (ht.ok hr).1 hlive hid hnum
  · have hsame : r.1.sema = w.k.sema ∧ r.1.semmap = w.k.semmap := by
      obtain ⟨k', s, seen⟩ := r
      cases s with
      | ok => exact absurd rfl hr
      | err e => exact ⟨(ht.err e rfl).1.sema, (ht.err e rfl).1.semmap⟩
      | sleep c =>
        obtain ⟨k₁, op, done, hk, -, hres, -, -⟩ := ht.sleep c rfl
        simp only at hk
        subst hk
        exact ⟨(Tables.sema_setCnt c _ k₁).trans hres.sema,
          (Tables.semmap_setCnt c _ k₁).trans hres.semmap⟩
    refine h.same hsame.1 hsame.2 (ht.untouched hr).2 ?_ fun q c hq => ?_
    · simp only [World.turn, if_neg hr]
    · by_cases hqp : q = p
      · simp only [World.turn, hqp, Function.update_self] at hq
        split at hq
        · cases hq
          exact .inr hcall
        · cases hq
      · simp only [World.turn, Function.update_of_ne hqp] at hq
        exact .inl hq

theorem Cleared.aoe {id low high : Int} {k k' : Tables} (h : Cleared info id low high k k')
    (q : Nat) (key : Int ×ₗ Int) : aoeOf (entriesOf q k'.undo) key =
      if outside id low high key = true then aoeOf (entriesOf q k.undo) key else 0 := by
  rw [h.entries q]
  exact (@look_filter _ _ _ Undo.key Undo.unAoe) _ key

theorem outside_key {id low high id' num : Int} :
    outside id low high (toLex (id', num)) = true ↔ (id' = id → low ≤ num → high < num) :=
  outside_iff

theorem Cleared.aoe_keep {id low high id' num : Int} {k k' : Tables}
    (h : Cleared info id low high k k') (q : Nat) (hn : id' = id → low ≤ num → high < num) :
    aoeOf (entriesOf q k'.undo) (toLex (id', num)) =
      aoeOf (entriesOf q k.undo) (toLex (id', num)) := by
  rw [h.aoe, if_pos (outside_key.mpr hn)]

theorem Cleared.aoe_drop {id low high num : Int} {k k' : Tables}
    (h : Cleared info id low high k k') (q : Nat) (hl : low ≤ num) (hh : num ≤ high) :
    aoeOf (entriesOf q k'.undo) (toLex (id, num)) = 0 := by
  rw [h.aoe, if_neg fun ho => absurd (outside_key.mp ho rfl hl) (not_lt.mpr hh)]

/-- SETVAL and SETALL: the entries go and the count begins anew. -/
theorem Booked.cleared (h : Booked info w) {k' : Tables} {s : Nat} {low high : Int}
    (hlive : Live w.k s) (hc : Cleared info (setId info w.k s) low high w.k k')
    (hsema : k'.sema = w.k.sema) (hmap : k'.semmap = w.k.semmap) {ledger : Nat → Int → Int}
    (hin : ∀ q (num : Nat), num < (w.k.sema s).semNsems →
      ledger q ((w.k.sema s).semBase + num) =
        if low ≤ num ∧ num ≤ high then 0 else w.ledger q ((w.k.sema s).semBase + num))
    (hout : ∀ q s' (num : Nat), s' ≠ s → Live w.k s' → num < (w.k.sema s').semNsems →
      ledger q ((w.k.sema s').semBase + num) = w.ledger q ((w.k.sema s').semBase + num)) :
    Booked info { w with k := k', ledger := ledger } := by
  obtain ⟨es, hes⟩ := h.mapped
  refine ⟨⟨es, hes.congr hsema hmap⟩, h.calls, fun q key hk => ?_, fun q s' num hv hn => ?_⟩
  · simp only [Live, setId, hsema]
    simp only [hc.aoe] at hk
    split at hk
    · exact h.live q key hk
    · exact absurd rfl hk
  · simp only [Live, hsema] at hv hn
    have hold := h.booked q s' num hv hn
    have hid : setId info k' s' = setId info w.k s' := by simp only [setId, hsema]
    have hbase : (k'.sema s').semBase = (w.k.sema s').semBase := by rw [hsema]
    simp only [hid, hbase]
    by_cases hss : s' = s
    · subst hss
      rw [hin q num hn]
      by_cases hr : low ≤ num ∧ num ≤ high
      · rw [if_pos hr, hc.aoe_drop q hr.1 hr.2, neg_zero]
      · rw [if_neg hr, hc.aoe_keep q fun _ hl => by omega]
        exact hold
    · have hne : setId info w.k s' ≠ setId info w.k s := fun he =>
        hss (setId_slot (hes.slot s' hv) (hes.slot s hlive) he)
      rw [hc.aoe_keep q fun he => absurd he hne, hout q s' num hss hv hn]
      exact hold

/-- A slot that is given up: its units may come back to the map. -/
theorem Mapped.remove {es : List (Span Nat)} (h : Mapped info k es) {s : Nat} (hlive : Live k s)
    {k' : Tables} {perm : Perm} (hperm : perm.allocated = false)
    (hsema : k'.sema = Function.update k.sema s { k.sema s with perm := perm })
    {m : Malloc.Mfreed}
    (hm : Malloc.mfree k.semmap (k.sema s).semNsems ((k.sema s).semBase + 1) = some m)
    (hmap : k'.semmap = m.map) : ∃ es', Mapped info k' es' := by
  have hlt := info.semmns_lt
  obtain ⟨hpos, -⟩ := h.size s hlive
  have hmem : (k.sema s).semBase + (k.sema s).semNsems ∈ units k s := ⟨by omega, by omega⟩
  have hbound := (h.inPool s hlive hmem).2
  obtain ⟨r, hr, hcase⟩ := Malloc.mfree_puts h.holds hpos (Nat.le_add_left 1 _) (by omega)
    (h.apart s hlive)
  rw [hm] at hr
  cases hr
  have hother : ∀ s', Live k' s' → s' ≠ s ∧ Live k s' ∧ k'.sema s' = k.sema s' := by
    intro s' hv
    by_cases hss : s' = s
    · simp only [Live, hsema, hss, Function.update_self, hperm] at hv
      cases hv
    · have he : k'.sema s' = k.sema s' := by rw [hsema, Function.update_of_ne hss]
      exact ⟨hss, by rwa [Live, he] at hv, he⟩
  have hunits : ∀ s', Live k' s' → units k' s' = units k s' := fun s' hv => by
    simp only [units, (hother s' hv).2.2]
  have hrest : ∀ es', Malloc.Holds k'.semmap es' → Lib.cover es' ⊆ units k s ∪ Lib.cover es →
      Mapped info k' es' := by
    intro es' hh hcov
    refine ⟨hh, hcov.trans (Set.union_subset (h.inPool s hlive) h.pool), fun s' hv =>
      h.slot s' (hother s' hv).2.1, fun s' hv => ?_, fun s' hv => ?_, fun s' hv => ?_,
      fun s₁ s₂ h₁ h₂ hne => ?_⟩
    · rw [(hother s' hv).2.2]
      exact h.size s' (hother s' hv).2.1
    · rw [hunits s' hv]
      exact h.inPool s' (hother s' hv).2.1
    · rw [hunits s' hv]
      refine Set.disjoint_of_subset_right hcov (Set.disjoint_union_right.mpr
        ⟨?_, h.apart s' (hother s' hv).2.1⟩)
      exact h.disjoint s' s (hother s' hv).2.1 hlive (hother s' hv).1
    · rw [hunits s₁ h₁, hunits s₂ h₂]
      exact h.disjoint s₁ s₂ (hother s₁ h₁).2.1 (hother s₂ h₂).2.1 hne
  cases hcase with
  | inl ho => exact ⟨es, hrest es (by rw [hmap, ho.2]; exact h.holds) Set.subset_union_right⟩
  | inr ho =>
    obtain ⟨-, es', hh, hcov⟩ := ho
    exact ⟨es', hrest es' (by rw [hmap]; exact hh) hcov.le⟩

theorem Booked.rmid (h : Booked info w) {k' : Tables} {s : Nat} (hlive : Live w.k s)
    (hc : Cleared info (setId info w.k s) 0 (w.k.sema s).semNsems w.k k') {perm : Perm}
    (hperm : perm.allocated = false)
    (hsema : k'.sema = Function.update w.k.sema s { w.k.sema s with perm := perm })
    (hmap : ∃ es, Mapped info k' es) : Booked info { w with k := k' } := by
  obtain ⟨es, hes⟩ := h.mapped
  have hother : ∀ s', s' ≠ s → k'.sema s' = w.k.sema s' := fun s' hss => by
    rw [hsema, Function.update_of_ne hss]
  have hgone : ¬ Live k' s := by
    simp only [Live, hsema, Function.update_self, hperm]
    exact Bool.false_ne_true
  refine ⟨hmap, h.calls, fun q key hk => ?_, fun q s' num hv hn => ?_⟩
  · simp only [hc.aoe] at hk
    split at hk
    · rename_i hout
      obtain ⟨s', num, hv, hn, hkey⟩ := h.live q key hk
      have hss : s' ≠ s := by
        intro he
        rw [hkey, outside_key] at hout
        have hlt := hout (by rw [he]) (by omega)
        rw [he] at hn
        omega
      refine ⟨s', num, ?_, ?_, ?_⟩
      · rwa [Live, hother s' hss]
      · rwa [hother s' hss]
      · rw [hkey]
        simp only [setId, hother s' hss]
    · exact absurd rfl hk
  · have hss : s' ≠ s := fun he => hgone (he ▸ hv)
    have hv' : Live w.k s' := by
      have hv' : Live k' s' := hv
      rwa [Live, hother s' hss] at hv'
    have hn' : num < (w.k.sema s').semNsems := by
      have hn' : num < (k'.sema s').semNsems := hn
      rwa [hother s' hss] at hn'
    have hne : setId info w.k s' ≠ setId info w.k s := fun he =>
      hss (setId_slot (hes.slot s' hv') (hes.slot s hlive) he)
    have hid : setId info k' s' = setId info w.k s' := by simp only [setId, hother s' hss]
    simp only [hid, hother s' hss]
    rw [hc.aoe_keep q fun he => absurd he hne]
    exact h.booked q s' num hv' hn'

/-- Slots may be dropped from the account without harm. -/
theorem Mapped.sub {es : List (Span Nat)} (h : Mapped info k es) {k' : Tables}
    (hm : k'.semmap = k.semmap) (hold : ∀ s, Live k' s → Live k s ∧
      (k'.sema s).semBase = (k.sema s).semBase ∧ (k'.sema s).semNsems = (k.sema s).semNsems) :
    Mapped info k' es := by
  have hunits : ∀ s, Live k' s → units k' s = units k s := fun s hs => by
    simp only [units, (hold s hs).2.1, (hold s hs).2.2]
  refine ⟨hm ▸ h.holds, h.pool, fun s hs => h.slot s (hold s hs).1, fun s hs => ?_, fun s hs => ?_,
    fun s hs => ?_, fun s s' hs hs' hne => ?_⟩
  · rw [(hold s hs).2.2]
    exact h.size s (hold s hs).1
  · rw [hunits s hs]
    exact h.inPool s (hold s hs).1
  · rw [hunits s hs]
    exact h.apart s (hold s hs).1
  · rw [hunits s hs, hunits s' hs']
    exact h.disjoint s s' (hold s hs).1 (hold s' hs').1 hne

/-- A new set gets units of its own. -/
theorem Mapped.create {es : List (Span Nat)} (h : Mapped info k es) {s n a : Nat} {perm : Perm}
    {m : Malloc.Map} (hs : s < info.semmni) (hn : 0 < n) (hle : n ≤ info.semmsl)
    (hm : Malloc.malloc k.semmap n = some (a, m)) (ha : a ≠ 0) :
    ∃ es', Mapped info
      { k with semmap := m, sema := Function.update k.sema s ⟨perm, a - 1, n⟩ } es' := by
  have htake := Malloc.malloc_takes h.holds hn hm
  obtain ⟨h1, es', hh, hin, hcov⟩ := htake.resolve_left fun h0 => ha h0.1
  generalize hk : ({ k with semmap := m, sema := Function.update k.sema s ⟨perm, a - 1, n⟩ } :
    Tables) = k'
  have hnew : k'.sema s = ⟨perm, a - 1, n⟩ := by rw [← hk]; exact Function.update_self ..
  have hother : ∀ s', s' ≠ s → k'.sema s' = k.sema s' := fun s' hne => by
    rw [← hk]
    exact Function.update_of_ne hne _ _
  have hlive : ∀ s', s' ≠ s → Live k' s' → Live k s' := fun s' hne hv => by
    rwa [Live, hother s' hne] at hv
  have hunits : ∀ s', s' ≠ s → units k' s' = units k s' := fun s' hne => by
    simp only [units, hother s' hne]
  have hmine : units k' s = Set.Ico a (a + n) := by
    simp only [units, hnew, Nat.sub_add_cancel h1]
  have hsub : Lib.cover es' ⊆ Lib.cover es := hcov ▸ Set.sdiff_subset
  have hdisj : ∀ s', s' ≠ s → Live k' s' → Disjoint (units k' s) (units k' s') := by
    intro s' hne hv
    rw [hmine, hunits s' hne]
    exact (Set.disjoint_of_subset_right hin (h.apart s' (hlive s' hne hv))).symm
  refine ⟨es', by rw [← hk]; exact hh, hsub.trans h.pool, fun s' hv => ?_, fun s' hv => ?_,
    fun s' hv => ?_, fun s' hv => ?_, fun s₁ s₂ h₁ h₂ hne => ?_⟩
  · by_cases hss : s' = s
    · exact hss ▸ hs
    · exact h.slot s' (hlive s' hss hv)
  · by_cases hss : s' = s
    · rw [hss, hnew]
      exact ⟨hn, hle⟩
    · rw [hother s' hss]
      exact h.size s' (hlive s' hss hv)
  · by_cases hss : s' = s
    · rw [hss, hmine]
      exact hin.trans h.pool
    · rw [hunits s' hss]
      exact h.inPool s' (hlive s' hss hv)
  · by_cases hss : s' = s
    · rw [hss, hmine, hcov]
      exact Set.disjoint_sdiff_right
    · rw [hunits s' hss]
      exact Set.disjoint_of_subset_right hsub (h.apart s' (hlive s' hss hv))
  · by_cases h₁s : s₁ = s
    · subst h₁s
      exact hdisj s₂ hne.symm h₂
    · by_cases h₂s : s₂ = s
      · subst h₂s
        exact (hdisj s₁ h₁s h₁).symm
      · rw [hunits s₁ h₁s, hunits s₂ h₂s]
        exact h.disjoint s₁ s₂ (hlive s₁ h₁s h₁) (hlive s₂ h₂s h₂) hne

/-- Steps that change slots: the sets that live stay what they are, and a new one has no
entries yet. -/
theorem Booked.slots (h : Booked info w) {k' : Tables} (hundo : k'.undo = w.k.undo)
    (hmap : ∃ es, Mapped info k' es) {ledger : Nat → Int → Int}
    (hkeep : ∀ s, Live w.k s → Live k' s ∧ setId info k' s = setId info w.k s ∧
      (k'.sema s).semBase = (w.k.sema s).semBase ∧
      (k'.sema s).semNsems = (w.k.sema s).semNsems)
    (hnew : ∀ s, Live k' s → ¬ Live w.k s → ∀ q (num : Nat), num < (k'.sema s).semNsems →
      ledger q ((k'.sema s).semBase + num) = 0)
    (hled : ∀ q s (num : Nat), Live w.k s → num < (w.k.sema s).semNsems →
      ledger q ((w.k.sema s).semBase + num) = w.ledger q ((w.k.sema s).semBase + num)) :
    Booked info { w with k := k', ledger := ledger } := by
  obtain ⟨es, hes⟩ := h.mapped
  obtain ⟨es', hes'⟩ := hmap
  refine ⟨⟨es', hes'⟩, h.calls, fun q key hk => ?_, fun q s num hv hn => ?_⟩
  · simp only [hundo] at hk
    obtain ⟨s, num, hv, hn, hkey⟩ := h.live q key hk
    obtain ⟨hv', hid, -, hsize⟩ := hkeep s hv
    refine ⟨s, num, hv', ?_, by rw [hid]; exact hkey⟩
    simp only [hsize]
    exact hn
  · simp only at hv hn ⊢
    rw [hundo]
    by_cases hv₀ : Live w.k s
    · obtain ⟨-, hid, hbase, hsize⟩ := hkeep s hv₀
      rw [hsize] at hn
      rw [hid, hbase, hled q s num hv₀ hn]
      exact h.booked q s num hv₀ hn
    · rw [hnew s hv hv₀ q num hn, neg_zero]
      by_contra hne
      obtain ⟨s', num', hv', -, hkey⟩ := h.live q _ hne
      have hids := toLex_inj.mp hkey
      simp only [Prod.mk.injEq] at hids
      have hss := setId_slot (hes'.slot s hv) (hes.slot s' hv') hids.1
      exact hv₀ (hss ▸ hv')

theorem Booked.set (h : Booked info w) {s : Nat} {perm : Perm} (hlive : Live w.k s)
    (hperm : perm.allocated = true) (hseq : perm.seq = (w.k.sema s).perm.seq) :
    Booked info { w with k := { w.k with
      sema := Function.update w.k.sema s { w.k.sema s with perm := perm } } } := by
  obtain ⟨es, hes⟩ := h.mapped
  generalize hk : ({ w.k with
    sema := Function.update w.k.sema s { w.k.sema s with perm := perm } } : Tables) = k'
  have hsame : ∀ s', setId info k' s' = setId info w.k s' ∧
      (k'.sema s').semBase = (w.k.sema s').semBase ∧
      (k'.sema s').semNsems = (w.k.sema s').semNsems := by
    intro s'
    by_cases hss : s' = s <;> simp [setId, ← hk, hss, hseq]
  have hiff : ∀ s', Live k' s' ↔ Live w.k s' := by
    intro s'
    by_cases hss : s' = s
    · rw [hss]
      exact ⟨fun _ => hlive, fun _ => by simp only [Live, ← hk, Function.update_self, hperm]⟩
    · simp [Live, ← hk, hss]
  exact h.slots (by rw [← hk]) ⟨es, hes.sub (by rw [← hk]) fun s' hv => ⟨(hiff s').mp hv,
    (hsame s').2⟩⟩ (fun s' hv => ⟨(hiff s').mpr hv, hsame s'⟩)
    (fun s' hv hv₀ => absurd ((hiff s').mp hv) hv₀) fun _ _ _ _ _ => rfl

/-- A slot that was free and stays free. -/
theorem Booked.free (h : Booked info w) {k' : Tables} {s : Nat} {sp : SemidDs}
    (hfree : (w.k.sema s).perm.allocated = false) (hsp : sp.perm.allocated = false)
    (hsema : k'.sema = Function.update w.k.sema s sp) (hundo : k'.undo = w.k.undo)
    (hmap : k'.semmap = w.k.semmap) : Booked info { w with
      k := k', ledger := fun p i => if World.Created info w.k k' i then 0 else w.ledger p i } := by
  obtain ⟨es, hes⟩ := h.mapped
  have hother : ∀ s', s' ≠ s → k'.sema s' = w.k.sema s' := fun s' hss => by
    rw [hsema, Function.update_of_ne hss]
  have hlive : ∀ s', Live k' s' → Live w.k s' ∧ s' ≠ s := by
    intro s' hv
    by_cases hss : s' = s
    · simp only [Live, hsema, hss, Function.update_self, hsp] at hv
      cases hv
    · rw [Live, hother s' hss] at hv
      exact ⟨hv, hss⟩
  have hlive' : ∀ s', Live w.k s' → Live k' s' ∧ s' ≠ s := by
    intro s' hv
    have hss : s' ≠ s := by
      intro he
      rw [Live, he, hfree] at hv
      cases hv
    exact ⟨by rwa [Live, hother s' hss], hss⟩
  have hno : ∀ i, ¬ World.Created info w.k k' i := by
    intro i hc
    obtain ⟨s', -, hf, ht, -⟩ := hc
    have hv := (hlive s' ht).1
    rw [Live, hf] at hv
    cases hv
  refine h.slots hundo ⟨es, hes.sub hmap fun s' hv => ?_⟩ (fun s' hv => ?_)
    (fun s' hv hv₀ => absurd (hlive s' hv).1 hv₀) fun q s' num _ _ => if_neg (hno _)
  · rw [hother s' (hlive s' hv).2]
    exact ⟨(hlive s' hv).1, rfl, rfl⟩
  · obtain ⟨hv', hss⟩ := hlive' s' hv
    refine ⟨hv', ?_, by rw [hother s' hss], by rw [hother s' hss]⟩
    simp only [setId, hother s' hss]

theorem Booked.get (h : Booked info w) {k' : Tables} (he : GetEffect info w.k k') :
    Booked info { w with
      k := k', ledger := fun p i => if World.Created info w.k k' i then 0 else w.ledger p i } := by
  obtain ⟨es, hes⟩ := h.mapped
  cases he with
  | same =>
    have hno : ∀ i, ¬ World.Created info w.k w.k i := by
      intro i hc
      obtain ⟨s, -, hf, ht, -⟩ := hc
      rw [hf] at ht
      cases ht
    refine h.same rfl rfl (fun _ => rfl) ?_ fun _ _ hc => .inl hc
    funext q i
    exact if_neg (hno i)
  | failed hs hfree hperm => exact h.free hfree (by exact hperm) rfl rfl rfl
  | full hs hfree hperm hn hm =>
    have hm' := (Malloc.malloc_takes hes.holds hn hm).resolve_right fun h0 => by omega
    exact h.free hfree (by exact hperm) rfl rfl hm'.2
  | @created s n a perm m hs hfree hperm hseq hn hle hm ha =>
    obtain ⟨es', hes'⟩ := @Mapped.create _ _ _ hes _ _ _ perm _ hs hn hle hm ha
    generalize hk : ({ w.k with
      semmap := m, sema := Function.update w.k.sema s ⟨perm, a - 1, n⟩ } : Tables) = k' at hes' ⊢
    have hnew : k'.sema s = ⟨perm, a - 1, n⟩ := by rw [← hk]; exact Function.update_self ..
    have hother : ∀ s', s' ≠ s → k'.sema s' = w.k.sema s' := fun s' hne => by
      rw [← hk]
      exact Function.update_of_ne hne _ _
    have hlive : Live k' s := by rw [Live, hnew, hperm]
    have hold : ∀ s', Live w.k s' → Live k' s' ∧ s' ≠ s := by
      intro s' hv
      have hss : s' ≠ s := by
        intro he
        rw [Live, he, hfree] at hv
        cases hv
      exact ⟨by rwa [Live, hother s' hss], hss⟩
    refine h.slots (by rw [← hk]) ⟨es', hes'⟩ (fun s' hv => ?_) (fun s' hv hv₀ q num hnum => ?_)
      fun q s' num hv hnum => ?_
    · obtain ⟨hv', hss⟩ := hold s' hv
      refine ⟨hv', ?_, by rw [hother s' hss], by rw [hother s' hss]⟩
      simp only [setId, hother s' hss]
    · have hss : s' = s := by
        by_contra hss
        exact hv₀ (by rwa [Live, hother s' hss] at hv)
      subst hss
      exact if_pos ⟨s', hs, hfree, hv, by omega, by omega⟩
    · obtain ⟨hv', hss⟩ := hold s' hv
      refine if_neg fun hc => ?_
      obtain ⟨s₂, -, hf, ht, hlo, hhi⟩ := hc
      have hs₂ : s₂ = s := by
        by_contra hne
        rw [hother s₂ hne, hf] at ht
        cases ht
      subst hs₂
      have hnum' : num < (k'.sema s').semNsems := by rw [hother s' hss]; exact hnum
      have hbase : (k'.sema s').semBase = (w.k.sema s').semBase := by rw [hother s' hss]
      have hne := @Mapped.index_ne _ _ _ hes' _ _ _
        ((w.k.sema s').semBase + num - (k'.sema s₂).semBase) hv'
        hlive hss hnum' (by omega)
      rw [hbase] at hne
      omega

end Svr32.Semaphore
