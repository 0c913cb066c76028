import Svr32.Stream.QueueMove
import Mathlib.Algebra.Order.BigOperators.Group.List
import Mathlib.Algebra.Order.Group.Nat

/-! Every run keeps a queue in order: its links, its classes, its count and QFULL. -/
namespace Svr32.Stream
open Svr32.Lib
variable {s s' : Streams} {ls ls' ch ch' : Nat → List Nat} {q bp m n : Nat}
  {l pre post : List Nat} {a : Act}

/- The sum of bsize[] over the blocks queued. -/
def Streams.Weighs (s : Streams) (q n : Nat) : Prop :=
  ∃ l ch, Seg s.pool.next (s.q q).qFirst l ∧ (∀ m ∈ l, Seg s.pool.cont (some m) (ch m)) ∧
    n = (weights s.pool ch l).sum

/- Only putq, putbq, getq, rmvq and flushq are used on `q`, and its weight fits into q_count. -/
def Fit (q : Nat) (a : Act) (s' : Streams) : Prop :=
  ¬ a.inserts q ∧ ∀ n, s'.Weighs q n → n < 65536

theorem Good.weighs_iff (h : Good s ls ch) : s.Weighs q n ↔ n = (weights s.pool ch (ls q)).sum := by
  constructor
  · intro hw
    obtain ⟨l, ch', hs, hc, rfl⟩ := hw
    have hl : l = ls q := hs.unique (h.lists.queue q).seg
    subst hl
    have hsame : weights s.pool ch' (ls q) = weights s.pool ch (ls q) :=
      List.map_congr_left fun m hm => by rw [(hc m hm).unique (h.lists.msg q m hm).seg]
    rw [hsame]
  · exact fun hn => ⟨ls q, ch, (h.lists.queue q).seg, fun m hm => (h.lists.msg q m hm).seg, hn⟩

/- The queue `q` has the messages `l`, in order. -/
structure Orderly (s : Streams) (q : Nat) (l : List Nat) : Prop where
  linked : Deque s.pool.next s.pool.prev (s.q q).qFirst (s.q q).qLast l
  sorted : Sorted s.pool l
  count : ∀ n, s.Weighs q n ↔ n = (s.q q).qCount.toNat
  full : (s.q q).qfull = true ↔ (s.q q).qHiwat ≤ (s.q q).qCount

theorem Good.orderly (h : Good s ls ch) (ho : Order s ch q (ls q)) : Orderly s q (ls q) := by
  refine ⟨h.lists.queue q, ho.sorted, fun n => ?_, ho.full⟩
  rw [h.weighs_iff, Queue.toNat_count (h.count q) ho.fits]

/- What the routines do to a queue with the messages `l`: putq puts a message behind those of its
   class, putbq in front of them, getq takes the first one, and flushq keeps what is no data. -/
structure Routines (s : Streams) (q : Nat) (l : List Nat) : Prop where
  putq : ∀ bp bl, Idle s bp bl → (s.q q).qCount.toNat + s.pool.weight bl < 65536 →
    ∃ s', putq q bp s = some s' ∧ Orderly s' q
      (l.filter (fun x => s.pool.cls bp ≤ s.pool.cls x) ++
        bp :: l.filter fun x => ¬ s.pool.cls bp ≤ s.pool.cls x)
  putbq : ∀ bp bl, Idle s bp bl → (s.q q).qCount.toNat + s.pool.weight bl < 65536 →
    ∃ s', putbq q bp s = some s' ∧ Orderly s' q
      (l.filter (fun x => s.pool.cls bp < s.pool.cls x) ++
        bp :: l.filter fun x => ¬ s.pool.cls bp < s.pool.cls x)
  getq : ∃ s', getq q s = some (l.head?, s') ∧ Orderly s' q l.tail
  rmvq : ∀ m ∈ l, ∃ s', rmvq q m s = some s' ∧ Orderly s' q (l.erase m)
  flushq : ∀ flag, ∃ s', flushq q flag s = some s' ∧ Orderly s' q
    (l.filter fun m => !flag && !datamsg (s.pool.btype m))

theorem filter_split {p : Nat → Prop} [DecidablePred p] (hpre : ∀ x ∈ pre, p x)
    (hpost : ∀ x ∈ post, ¬ p x) : (pre ++ post).filter (fun x => p x) = pre ∧
      (pre ++ post).filter (fun x => ¬ p x) = post := by
  rw [List.filter_append, List.filter_append]
  refine ⟨?_, ?_⟩
  · rw [List.filter_eq_self.mpr fun x hx => decide_eq_true (hpre x hx),
      List.filter_eq_nil_iff.mpr fun x hx => by simp [hpost x hx], List.append_nil]
  · rw [List.filter_eq_nil_iff.mpr fun x hx => by simp [hpre x hx], List.filter_eq_self.mpr
      fun x hx => decide_eq_true (hpost x hx), List.nil_append]

theorem Acted.orderly (h : Acted a s s' ls ls' ch) (hins : ¬ a.inserts q)
    (hfit : (weights s.pool ch (ls' q)).sum < 65536) (ho : Order s ch q (ls q)) :
    Orderly s' q (ls' q) :=
  h.good.orderly (h.order q hins hfit ho)

/-- A smaller list weighs no more. -/
theorem weights_sublist {k : Pool} {l l' : List Nat} (h : l.Sublist l') :
    (weights k ch l).sum ≤ (weights k ch l').sum :=
  (h.map _).sum_le_sum fun _ _ => Nat.zero_le _

theorem Order.rename (h : Order s ch q l) (hc : ∀ m ∈ l, ch' m = ch m) : Order s ch' q l := by
  have hw : weights s.pool ch' l = weights s.pool ch l :=
    List.map_congr_left fun m hm => by rw [hc m hm]
  exact ⟨h.hiwat, by rw [hw]; exact h.fits, h.sorted, h.full⟩

theorem Good.routines (h : Good s ls ch) (ho : Order s ch q (ls q)) : Routines s q (ls q) := by
  have hcount := Queue.toNat_count (h.count q) ho.fits
  have hput : ∀ {bp : Nat} {bl : List Nat}, Idle s bp bl →
      (s.q q).qCount.toNat + s.pool.weight bl < 65536 →
      ∃ ch', Good s ls ch' ∧ Loose s ls ch' bp ∧ Order s ch' q (ls q) ∧
        (weights s.pool ch' (ls q)).sum + s.pool.weight (ch' bp) < 65536 := by
    intro bp bl hb hfit
    obtain ⟨hg, hl, hbl⟩ := h.loose hb
    have hsame : ∀ m ∈ ls q, Function.update ch bp bl m = ch m := fun m hm =>
      Function.update_of_ne (fun he : m = bp => hl.not_mem q (he ▸ hm)) _ _
    have ho' := ho.rename hsame
    refine ⟨_, hg, hl, ho', ?_⟩
    rw [← Queue.toNat_count (hg.count q) ho'.fits, hbl]
    exact hfit
  refine ⟨fun bp bl hb hfit => ?_, fun bp bl hb hfit => ?_, ?_, fun m hm => ?_, fun flag => ?_⟩
  · obtain ⟨ch', hg, hl, ho', hlt⟩ := hput hb hfit
    obtain ⟨s', pre, post, heq, hsplit, hcls, hm⟩ := putq_acted hg hl q
    obtain ⟨hpre, hpost⟩ := hcls ho.sorted
    obtain ⟨h1, h2⟩ := filter_split hpre hpost
    rw [hsplit, ← weights_middle] at hlt
    have hord := hm.orderly (q := q) (by simp [Act.inserts])
      (by rwa [Function.update_self]) ho'
    rw [Function.update_self] at hord
    refine ⟨s', heq, ?_⟩
    rw [hsplit, h1, h2]
    exact hord
  · obtain ⟨ch', hg, hl, ho', hlt⟩ := hput hb hfit
    obtain ⟨s', pre, post, heq, hsplit, hpre, hcls, hm⟩ := putbq_acted hg hl q
    obtain ⟨h1, h2⟩ := filter_split hpre (hcls ho.sorted)
    rw [hsplit, ← weights_middle] at hlt
    have hord := hm.orderly (q := q) (by simp [Act.inserts])
      (by rwa [Function.update_self]) ho'
    rw [Function.update_self] at hord
    refine ⟨s', heq, ?_⟩
    rw [hsplit, h1, h2]
    exact hord
  · obtain ⟨s', heq, hm⟩ := getq_acted h q
    have hord := hm.orderly (q := q) (by simp [Act.inserts]) (by
      rw [Function.update_self]
      exact Nat.lt_of_le_of_lt (weights_sublist (List.tail_sublist _)) ho.fits) ho
    rw [Function.update_self] at hord
    exact ⟨s', heq, hord⟩
  · obtain ⟨pre, post, hsplit⟩ := List.append_of_mem hm
    obtain ⟨s', heq, hmv⟩ := rmvq_acted h hsplit
    have hnd := (h.lists.queue q).nodup
    have herase : (ls q).erase m = pre ++ post := by
      rw [hsplit] at hnd ⊢
      have hno := (List.nodup_cons.mp (List.perm_middle.nodup_iff.mp hnd)).1
      rw [List.erase_append_right _ fun hp => hno (List.mem_append_left post hp),
        List.erase_cons_head]
    have hsub : (pre ++ post).Sublist (ls q) := herase ▸ List.erase_sublist
    have hord := hmv.orderly (q := q) (by simp [Act.inserts]) (by
      rw [Function.update_self]
      exact Nat.lt_of_le_of_lt (weights_sublist hsub) ho.fits) ho
    rw [Function.update_self] at hord
    exact ⟨s', heq, herase ▸ hord⟩
  · obtain ⟨s', l', heq, hsame, hm⟩ := flushq_acted h q flag
    have hl' := hsame ho.sorted
    subst hl'
    have hord := hm.orderly (q := q) (by simp [Act.inserts]) (by
      rw [Function.update_self]
      exact Nat.lt_of_le_of_lt (weights_sublist List.filter_sublist) ho.fits) ho
    rw [Function.update_self] at hord
    exact ⟨s', heq, hord⟩

/-- The invariant of a queue in every run. -/
theorem run_order (h : (streams (Fit q)).Reachable s) :
    ∃ ls ch, Good s ls ch ∧ (0 < (s.q q).qHiwat → Order s ch q (ls q)) := by
  refine System.invariant (fun s => ∃ ls ch, Good s ls ch ∧ (0 < (s.q q).qHiwat →
    Order s ch q (ls q))) (fun s hs => ?_) (fun s s' hI hst => ?_) h
  · refine ⟨_, _, boot_good hs, fun hhi => ⟨hhi, by simp [weights], .nil, ?_⟩⟩
    rw [(hs.flags q).1, hs.count q]
    exact ⟨by rintro ⟨⟩, fun hle => absurd hhi (BitVec.not_lt.mpr hle)⟩
  · obtain ⟨ls, ch, hg, ho⟩ := hI
    obtain ⟨a, hst, hins, hfit⟩ := hst
    obtain ⟨ls', ch', hc, hm⟩ := step_acted hg hst
    refine ⟨ls', ch', hm.good, fun hhi => ?_⟩
    rw [hm.hiwat] at hhi
    refine hm.order q hins ?_ ((ho hhi).rename (hc q))
    rw [← hm.weigh]
    exact hfit _ (hm.good.weighs_iff.mpr rfl)

/-- Every run keeps a queue in order, and the routines do to it what they are for. -/
theorem queue_run (h : (streams (Fit q)).Reachable s) (hhi : 0 < (s.q q).qHiwat) :
    ∃ l, Orderly s q l ∧ Routines s q l := by
  obtain ⟨ls, ch, hg, ho⟩ := run_order h
  exact ⟨ls q, hg.orderly (ho hhi), hg.routines (ho hhi)⟩

/- Queues with a q_hiwat of 8, and one message. -/
def oneMessage : Streams where
  pool := { mb := fun _ => ⟨none, none, none, 0, 0, some 0⟩, db := fun _ => ⟨none, 0, 4, 1, 0, 0⟩
            mbfreelist := none, dbfreelist := fun _ => none, dbaCnt := fun _ => 0
            dbaLo := fun _ => 0, dbaMed := fun _ => 0, nmblock := 1, mem := fun _ => 0 }
  q := fun _ => ⟨none, none, none, none, 0, 8, 4, true, false, false, false, false, false, false⟩
  nqueue := 2
  qhead := none
  qtail := none
  qrunflag := false

theorem oneMessage_boot : Boot oneMessage := by
  refine ⟨fun _ => ⟨rfl, rfl⟩, fun _ => rfl, fun _ => ⟨rfl, rfl, rfl⟩, ⟨rfl, rfl⟩, fun q b => ?_,
    fun _ => 0, fun _ => Nat.zero_lt_two, nofun⟩
  exact ⟨nofun, nofun⟩

/- The message is put. -/
def onePut : Streams := (putq 0 0 oneMessage).get rfl

theorem onePut_step : Step (.putq 0 0) oneMessage onePut := by
  have hidle : Idle oneMessage 0 [0] := by
    refine ⟨⟨⟨rfl, rfl⟩, fun b _ => ⟨0, rfl⟩, by decide, by decide⟩, fun q m b hq => ?_⟩
    obtain ⟨l, hs, hm⟩ := hq
    have hl : l = [] := hs.unique rfl
    rw [hl] at hm
    cases hm
  exact .putq hidle (Option.some_get _).symm

theorem onePut_reachable : (streams (Fit 0)).Reachable onePut := by
  refine System.reachable_step (System.reachable_init oneMessage_boot)
    ⟨.putq 0 0, onePut_step, by simp [Act.inserts], fun n hn => ?_⟩
  obtain ⟨l, ch, hs, hc, rfl⟩ := hn
  have hl : l = [0] := hs.unique ⟨rfl, rfl⟩
  subst hl
  have hch : ch 0 = [0] := (hc 0 (by simp)).unique ⟨rfl, rfl⟩
  simp only [weights, List.map_cons, List.map_nil, hch]
  decide

theorem queue_run_onePut : 0 < (onePut.q 0).qHiwat ∧ ∃ l, Orderly onePut 0 l ∧ Routines onePut 0 l :=
  ⟨by decide, queue_run onePut_reachable (by decide)⟩

end Svr32.Stream

/-! Flow control loses no wakeup: who was refused by canput is enabled when the queue drains. -/
namespace Svr32.Stream
open Svr32.Lib
variable {s s' t t' : Streams} {ls ch : Nat → List Nat} {q w x b : Nat} {a : Act}

/-- Lists, counts and flags go together in every run. -/
theorem run_good {C : Act → Streams → Prop} (h : (streams C).Reachable s) :
    ∃ ls ch, Good s ls ch := by
  refine System.invariant (fun s => ∃ ls ch, Good s ls ch) (fun s hs => ⟨_, _, boot_good hs⟩)
    (fun s s' hI hst => ?_) h
  obtain ⟨ls, ch, hg⟩ := hI
  obtain ⟨a, hst, -⟩ := hst
  obtain ⟨ls', ch', -, hm⟩ := step_acted hg hst
  exact ⟨ls', ch', hm.good⟩

/- The queue is enabled, and on the run list. -/
def Streams.Enabled (s : Streams) (b : Nat) : Prop :=
  (s.q b).qenab = true ∧ ∃ l, Seg s.link s.qhead l ∧ b ∈ l

theorem Good.enabled (h : Good s ls ch) (hb : (s.q b).qenab) : s.Enabled b := by
  obtain ⟨rl, hr⟩ := h.run
  exact ⟨hb, rl, hr.seg, (hr.enab b).mp hb⟩

/-- Where QWANTW goes, the nearest back queue is enabled. -/
theorem Good.clear (h : Good s ls ch) (hst : Step a s s') (hon : (s.q q).qwantw)
    (hoff : ¬ (s'.q q).qwantw) (hn : Nearest s q b) : s'.Enabled b := by
  obtain ⟨ls', ch', -, hm⟩ := step_acted h hst
  exact hm.good.enabled (hm.woke q hon hoff b hn)

end Svr32.Stream
