import Svr32.Stream.Flush
import Svr32.Lib.System

/-! Runs of the queue routines. Modules own the messages that are on no queue, and leave the
others alone. -/
namespace Svr32.Stream
open Svr32.Lib
variable {s s' t : Streams} {ls ls' ch ch' : Nat → List Nat} {q bp m x b : Nat}
  {l l' rl fr pre post : List Nat} {v : Queue} {flag : Bool}

/- The messages of a queue, and the blocks of a message. -/
def Streams.Queued (s : Streams) (q m : Nat) : Prop :=
  ∃ l, Seg s.pool.next (s.q q).qFirst l ∧ m ∈ l

def Streams.Within (s : Streams) (m b : Nat) : Prop := ∃ l, Seg s.pool.cont (some m) l ∧ b ∈ l

/- A message of the blocks `l` that no queue has a block of. -/
structure Idle (s : Streams) (bp : Nat) (l : List Nat) : Prop where
  msg : Msg s.pool bp l
  apart : ∀ q m b, s.Queued q m → s.Within m b → b ∉ l

inductive Act
  | putq (q bp : Nat)
  | putbq (q bp : Nat)
  | insq (q : Nat) (emp : Option Nat) (mp : Nat)
  | getq (q : Nat)
  | rmvq (q mp : Nat)
  | flushq (q : Nat) (flag : Bool)
  | canput (q : Option Nat)
  | qenable (q : Nat)
  | noenable (q : Nat) (b : Bool)
  | queuerun
  | other

inductive Step : Act → Streams → Streams → Prop
  | putq {s s' : Streams} {q bp : Nat} {l : List Nat} : Idle s bp l → putq q bp s = some s' →
    Step (.putq q bp) s s'
  | putbq {s s' : Streams} {q bp : Nat} {l : List Nat} : Idle s bp l → putbq q bp s = some s' →
    Step (.putbq q bp) s s'
  | insq {s s' : Streams} {q mp : Nat} {emp : Option Nat} {l : List Nat} : Idle s mp l →
    (∀ e, emp = some e → s.Queued q e) → insq q emp mp s = some s' → Step (.insq q emp mp) s s'
  | getq {s s' : Streams} {q : Nat} {r : Option Nat} : getq q s = some (r, s') →
    Step (.getq q) s s'
  | rmvq {s s' : Streams} {q mp : Nat} : s.Queued q mp → rmvq q mp s = some s' →
    Step (.rmvq q mp) s s'
  | flushq {s s' : Streams} {q : Nat} {flag : Bool} : flushq q flag s = some s' →
    Step (.flushq q flag) s s'
  | canput {s s' : Streams} {q : Option Nat} {r : Bool} : canput q s = some (r, s') →
    Step (.canput q) s s'
  | qenable {s s' : Streams} {q : Nat} : qenable q s = some s' → Step (.qenable q) s s'
  | noenable {s : Streams} (q : Nat) (b : Bool) :
    Step (.noenable q b) s (s.setQ q { s.q q with qnoenb := b })
  | queuerun {s s' : Streams} {q : Nat} : runq s = some (q, s') → Step .queuerun s s'
  | other {s : Streams} (k : Pool) : k.nmblock = s.pool.nmblock →
    (∀ q m, s.Queued q m → k.next m = s.pool.next m ∧ k.prev m = s.pool.prev m ∧
      ∀ b, s.Within m b → k.view b = s.pool.view b) → Step .other s { s with pool := k }

/- Nothing is queued, and nobody waits. -/
structure Boot (s : Streams) : Prop where
  ends : ∀ q, (s.q q).qFirst = none ∧ (s.q q).qLast = none
  count : ∀ q, (s.q q).qCount = 0
  flags : ∀ q, (s.q q).qfull = false ∧ (s.q q).qwantw = false ∧ (s.q q).qenab = false
  run : s.qhead = none ∧ s.qtail = none
  wired : Wired s

def streams (C : Act → Streams → Prop) : System Streams where
  init := Boot
  step s s' := ∃ a, Step a s s' ∧ C a s'

/- Lists, counts and flags go together in every run. -/
structure Good (s : Streams) (ls ch : Nat → List Nat) : Prop where
  lists : Lists s ls ch
  run : ∃ rl, RunList s rl
  wired : Wired s
  count : ∀ q, (s.q q).qCount = BitVec.ofNat 16 (weights s.pool ch (ls q)).sum
  quiet : ∀ q, 0 < (s.q q).qHiwat → ls q = [] → (s.q q).qfull = false ∧ (s.q q).qwantw = false

theorem boot_good (h : Boot s) : Good s (fun _ => []) fun _ => [] := by
  refine ⟨⟨fun q => ?_, nofun, nofun⟩, ⟨[], h.run.1, h.run.2, List.nodup_nil, fun q => ?_⟩,
    h.wired, fun q => h.count q, fun q _ _ => ⟨(h.flags q).1, (h.flags q).2.1⟩⟩
  · rw [(h.ends q).1, (h.ends q).2]
    exact Deque.nil _ _
  · simp [(h.flags q).2.2]

theorem Lists.queued_iff (h : Lists s ls ch) : s.Queued q m ↔ m ∈ ls q := by
  constructor
  · intro hm
    obtain ⟨l, hs, hm⟩ := hm
    exact (hs.unique (h.queue q).seg) ▸ hm
  · exact fun hm => ⟨ls q, (h.queue q).seg, hm⟩

theorem Lists.within_iff (h : Lists s ls ch) (hm : m ∈ ls q) : s.Within m b ↔ b ∈ ch m := by
  constructor
  · intro hb
    obtain ⟨l, hs, hb⟩ := hb
    exact (hs.unique (h.msg q m hm).seg) ▸ hb
  · exact fun hb => ⟨ch m, (h.msg q m hm).seg, hb⟩

/-- What is known of the queued messages does not depend on the others. -/
theorem Good.rename (h : Good s ls ch) (hc : ∀ q, ∀ m ∈ ls q, ch' m = ch m) : Good s ls ch' := by
  refine ⟨⟨h.lists.queue, fun q m hm => ?_, fun q q' m m' b hm hm' => ?_⟩, h.run, h.wired,
    fun q => ?_, h.quiet⟩
  · rw [hc q m hm]
    exact h.lists.msg q m hm
  · rw [hc q m hm, hc q' m' hm']
    exact h.lists.apart q q' m m' b hm hm'
  · have hw : weights s.pool ch' (ls q) = weights s.pool ch (ls q) :=
      List.map_congr_left fun m hm => by rw [hc q m hm]
    rw [hw]
    exact h.count q

/-- A message that no queue has is loose, with its own blocks. -/
theorem Good.loose (h : Good s ls ch) (hb : Idle s bp l) :
    Good s ls (Function.update ch bp l) ∧ Loose s ls (Function.update ch bp l) bp ∧
      Function.update ch bp l bp = l := by
  have hne : ∀ q, ∀ m ∈ ls q, m ≠ bp := fun q m hm he => by
    have hin := (h.lists.within_iff hm).mpr (h.lists.msg q m hm).head_mem
    exact hb.apart q m m (h.lists.queued_iff.mpr hm) hin (he ▸ hb.msg.head_mem)
  have hch : ∀ q, ∀ m ∈ ls q, Function.update ch bp l m = ch m := fun q m hm =>
    Function.update_of_ne (hne q m hm) _ _
  refine ⟨h.rename hch, ⟨?_, fun q m hm b hbm => ?_⟩, Function.update_self _ _ _⟩
  · rw [Function.update_self]
    exact hb.msg
  · rw [hch q m hm] at hbm
    rw [Function.update_self]
    exact hb.apart q m b (h.lists.queued_iff.mpr hm) ((h.lists.within_iff hm).mpr hbm)

theorem weights_perm {k : Pool} (h : l.Perm l') :
    (weights k ch l).sum = (weights k ch l').sum :=
  (h.map _).sum_eq

/- A queue with q_hiwat > 0 whose weight fits into q_count: classes in order, and QFULL as the
   count says. -/
structure Order (s : Streams) (ch : Nat → List Nat) (q : Nat) (l : List Nat) : Prop where
  hiwat : 0 < (s.q q).qHiwat
  fits : (weights s.pool ch l).sum < 65536
  sorted : Sorted s.pool l
  full : (s.q q).qfull = true ↔ (s.q q).qHiwat ≤ (s.q q).qCount

/- The queue that an action takes messages off. -/
def Act.takes (a : Act) (q : Nat) : Prop :=
  a = .getq q ∨ (∃ mp, a = .rmvq q mp) ∨ ∃ flag, a = .flushq q flag

def Act.inserts (a : Act) (q : Nat) : Prop := ∃ emp mp, a = .insq q emp mp

/- What one action does. -/
structure Acted (a : Act) (s s' : Streams) (ls ls' ch : Nat → List Nat) : Prop where
  good : Good s' ls' ch
  order : ∀ q, ¬ a.inserts q → (weights s.pool ch (ls' q)).sum < 65536 →
    Order s ch q (ls q) → Order s' ch q (ls' q)
  weigh : ∀ q, weights s'.pool ch (ls' q) = weights s.pool ch (ls' q)
  woke : ∀ q, Woke q s s'
  drain : ∀ q, a.takes q → (s'.q q).qCount ≤ (s'.q q).qLowat → (s'.q q).qwantw = false
  wiring : ∀ x, (s'.q x).wiring = (s.q x).wiring
  hiwat : ∀ x, (s'.q x).qHiwat = (s.q x).qHiwat

/- Flow control `v` fits the messages `l'` of the queue `q`. -/
structure Suits (s : Streams) (ls ch : Nat → List Nat) (q : Nat) (l' fr : List Nat) (v : Queue) :
    Prop where
  wiring : v.wiring = (s.q q).wiring
  hiwat : v.qHiwat = (s.q q).qHiwat
  count : v.qCount = BitVec.ofNat 16 (weights s.pool ch l').sum
  quiet : 0 < v.qHiwat → l' = [] → v.qfull = false ∧ v.qwantw = false
  apart : ∀ x, ∀ m ∈ Function.update ls q l' x, ∀ f ∈ fr, ∀ b ∈ ch m, b ∉ ch f

theorem Did.view_mem (hd : Did ls ch q l' fr v s s') (hs : Suits s ls ch q l' fr v)
    (hm : m ∈ Function.update ls q l' x) (hb : b ∈ ch m) :
    s'.pool.view b = s.pool.view b :=
  hd.view b fun f hf => hs.apart x m hm f hf b hb

theorem Good.did (h : Good s ls ch) (hd : Did ls ch q l' fr v s s')
    (hs : Suits s ls ch q l' fr v) : Good s' (Function.update ls q l') ch := by
  have hwire := hd.wiring hs.wiring
  have hweights : ∀ x, weights s'.pool ch (Function.update ls q l' x) =
      weights s.pool ch (Function.update ls q l' x) := fun x =>
    weights_congr fun m hm b hb => hd.view_mem hs hm hb
  refine ⟨hd.lists, hd.run, h.wired.congr hwire hd.size, fun x => ?_, fun x => ?_⟩
  · rw [hweights x]
    by_cases hx : x = q
    · rw [hx, Function.update_self, ← hs.count, ← hd.self]
      rfl
    · rw [Function.update_of_ne hx, ← h.count x]
      exact congrArg (fun u => u.qCount) (hd.others x hx)
  · by_cases hx : x = q
    · rw [hx, Function.update_self]
      have hq := hs.quiet
      rw [← hd.self] at hq
      exact hq
    · rw [Function.update_of_ne hx]
      have hq := h.quiet x
      have hcore := hd.others x hx
      have hhi : (s'.q x).qHiwat = (s.q x).qHiwat := congrArg (fun u => u.qHiwat) hcore
      have hfull : (s'.q x).qfull = (s.q x).qfull := congrArg (fun u => u.qfull) hcore
      rw [hhi, hfull, Queue.core_wantw hcore]
      exact hq

/-- An operation on one queue, as far as the others and their order are concerned. -/
theorem Good.acted {a : Act} (h : Good s ls ch) (hd : Did ls ch q l' fr v s s')
    (hs : Suits s ls ch q l' fr v) (hwoke : Woke q s s') (htakes : ∀ x, a.takes x → x = q)
    (hdrain : a.takes q → v.qCount ≤ v.qLowat → v.qwantw = false)
    (horder : ¬ a.inserts q → (weights s.pool ch l').sum < 65536 → Order s ch q (ls q) →
      Sorted s.pool l' ∧ (v.qfull = true ↔ v.qHiwat ≤ v.qCount)) :
    Acted a s s' ls (Function.update ls q l') ch := by
  have hhi : ∀ x, (s'.q x).qHiwat = (s.q x).qHiwat := fun x => by
    by_cases hx : x = q
    · rw [hx, ← hs.hiwat, ← hd.self]
      rfl
    · exact congrArg (fun u => u.qHiwat) (hd.others x hx)
  have hview : ∀ x, ∀ m ∈ Function.update ls q l' x, ∀ b ∈ ch m,
      s'.pool.view b = s.pool.view b := fun x m hm b hb => hd.view_mem hs hm hb
  have hsorted : ∀ x, Sorted s.pool (Function.update ls q l' x) →
      Sorted s'.pool (Function.update ls q l' x) := fun x hx =>
    hx.congr fun m hm => hview x m hm m (hd.lists.msg x m hm).head_mem
  refine ⟨h.did hd hs, fun x hins hfit ho => ?_, fun x => weights_congr (hview x), fun x => ?_,
    fun x hx => ?_, hd.wiring hs.wiring, hhi⟩
  · have hfit' := hfit
    rw [← (@weights_congr s.pool s'.pool) (hview x)] at hfit'
    by_cases hx : x = q
    · subst hx
      rw [Function.update_self] at hfit
      obtain ⟨hsort, hfull⟩ := horder hins hfit ho
      rw [← hd.self] at hfull
      refine ⟨by rw [hhi]; exact ho.hiwat, hfit', hsorted x ?_, hfull⟩
      rw [Function.update_self]
      exact hsort
    · have hcore := hd.others x hx
      have hfull : (s'.q x).qfull = (s.q x).qfull := congrArg (fun u => u.qfull) hcore
      have hcount : (s'.q x).qCount = (s.q x).qCount := congrArg (fun u => u.qCount) hcore
      refine ⟨by rw [hhi]; exact ho.hiwat, hfit', hsorted x ?_, ?_⟩
      · rw [Function.update_of_ne hx]
        exact ho.sorted
      · rw [hfull, hhi, hcount]
        exact ho.full
  · by_cases hx : x = q
    · exact hx ▸ hwoke
    · intro hon hoff
      rw [Queue.core_wantw (hd.others x hx)] at hoff
      exact absurd hon hoff
  · have he := htakes x hx
    subst he
    have hdr := hdrain hx
    rw [← hd.self] at hdr
    exact hdr

namespace Queue

theorem add_count {c w : Nat} (hc : v.qCount = BitVec.ofNat 16 c) :
    (v.add w).qCount = BitVec.ofNat 16 (c + w) := by
  rw [BitVec.ofNat_add, ← hc]
  rfl

theorem sub_count {c w : Nat} (hc : v.qCount = BitVec.ofNat 16 (c + w)) :
    (v.sub w).qCount = BitVec.ofNat 16 c := by
  have hsub : (v.sub w).qCount = v.qCount - BitVec.ofNat 16 w := rfl
  rw [hsub, hc, BitVec.ofNat_add, BitVec.add_sub_cancel]

theorem toNat_count {c : Nat} (hc : v.qCount = BitVec.ofNat 16 c) (h : c < 65536) :
    v.qCount.toNat = c := by
  rw [hc, BitVec.toNat_ofNat, Nat.mod_eq_of_lt h]

/-- QFULL says that the count is not below q_hiwat. -/
theorem add_full {c w : Nat} (hc : v.qCount = BitVec.ofNat 16 c) (hlt : c + w < 65536)
    (hf : v.qfull = true ↔ v.qHiwat ≤ v.qCount) :
    (v.add w).qfull = true ↔ (v.add w).qHiwat ≤ (v.add w).qCount := by
  have hle : v.qCount ≤ (v.add w).qCount := by
    rw [BitVec.le_def, toNat_count hc (by omega), toNat_count (add_count hc) hlt]
    omega
  have hfull : (v.add w).qfull = (v.qfull || decide (v.qHiwat ≤ (v.add w).qCount)) := rfl
  rw [hfull, Bool.or_eq_true, decide_eq_true_iff, hf]
  exact ⟨fun h => h.elim (fun h => BitVec.le_trans h hle) id, .inr⟩

theorem sub_full {c w : Nat} (hc : v.qCount = BitVec.ofNat 16 (c + w)) (hlt : c + w < 65536)
    (hf : v.qfull = true ↔ v.qHiwat ≤ v.qCount) :
    (v.sub w).qfull = true ↔ (v.sub w).qHiwat ≤ (v.sub w).qCount := by
  have hle : (v.sub w).qCount ≤ v.qCount := by
    rw [BitVec.le_def, toNat_count hc hlt, toNat_count (sub_count hc) (by omega)]
    omega
  have hfull : (v.sub w).qfull = (v.qfull && !decide ((v.sub w).qCount < v.qHiwat)) := rfl
  rw [hfull, Bool.and_eq_true, hf, Bool.not_eq_true', decide_eq_false_iff_not, BitVec.not_lt]
  exact ⟨And.right, fun h => ⟨BitVec.le_trans h hle, h⟩⟩

/-- An empty queue is not full, and nobody waits to write. -/
theorem sub_zero {w : Nat} (hz : (v.sub w).qCount = 0) (hhi : 0 < v.qHiwat) :
    (v.sub w).qfull = false := by
  have hfull : (v.sub w).qfull = (v.qfull && !decide ((v.sub w).qCount < v.qHiwat)) := rfl
  rw [hfull, hz, decide_eq_true hhi, Bool.not_true, Bool.and_false]

theorem low_zero (hz : v.qCount = 0) : v.low.qwantw = false := by
  have hle : v.qCount ≤ v.qLowat := by
    rw [hz, BitVec.le_def]
    exact Nat.zero_le _
  rw [low_of_le hle]

theorem low_drained (h : v.low.qCount ≤ v.low.qLowat) : v.low.qwantw = false := by
  have hle : v.qCount ≤ v.qLowat := h
  rw [low_of_le hle]

theorem addAll_count {c : Nat} (ws : List Nat) (hc : v.qCount = BitVec.ofNat 16 c) :
    (v.addAll ws).qCount = BitVec.ofNat 16 (c + ws.sum) := by
  induction ws generalizing v c with
  | nil => exact hc
  | cons w ws ih =>
    rw [List.sum_cons, ← Nat.add_assoc]
    exact ih (add_count hc)

theorem addAll_full {c : Nat} (ws : List Nat) (hc : v.qCount = BitVec.ofNat 16 c)
    (hlt : c + ws.sum < 65536) (hf : v.qfull = true ↔ v.qHiwat ≤ v.qCount) :
    (v.addAll ws).qfull = true ↔ (v.addAll ws).qHiwat ≤ (v.addAll ws).qCount := by
  induction ws generalizing v c with
  | nil => exact hf
  | cons w ws ih =>
    rw [List.sum_cons, ← Nat.add_assoc] at hlt
    exact ih (add_count hc) hlt (add_full hc (by omega) hf)

end Queue

end Svr32.Stream
