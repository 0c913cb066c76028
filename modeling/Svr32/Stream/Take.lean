import Svr32.Stream.Flow

/-! getq, rmvq and flushq: what they take off a queue, and what flushq leaves. -/
namespace Svr32.Stream
open Svr32.Lib
variable {s s' t : Streams} {k k' : Pool} {ls ch : Nat → List Nat} {q bp m x : Nat}
  {l l' rl pre post : List Nat} {v : Queue}

theorem Deque.next_head {next prev : Nat → Option Nat} {f la : Option Nat} {l : List Nat} {a : Nat}
    (h : Deque next prev f la (a :: l)) : next a = l.head? :=
  (@Deque.next_eq _ _ _ _ _ []) h

/-- The first message is taken off. -/
theorem unlinkFirst_spec (h : Lists s ls ch) (hl : ls q = bp :: l) :
    Removed q bp [] l s (clearLinks bp (unlinkFirst q bp s)) := by
  have hq := h.queue q
  rw [hl] at hq
  have hn : s.pool.next bp = l.head? := Deque.next_head hq
  cases l with
  | nil =>
    have heq : unlinkFirst q bp s = s.setQ q { s.q q with qFirst := none, qLast := none } := by
      rw [unlinkFirst, hn]
      rfl
    rw [heq]
    refine ⟨(@relinked_of _ _ _ none none) (by simp [clearLinks]) rfl rfl ⟨rfl, rfl, rfl⟩,
      fun y hy => ?_, fun y hy => ?_, ?_, ?_⟩
    · simp [clearLinks, hy]
    · simp [clearLinks, hy]
    · simp [clearLinks, Streams.setQ]
    · simp [clearLinks, Streams.setQ]
  | cons n l =>
    have heq : unlinkFirst q bp s = { s.setQ q { s.q q with qFirst := some n } with
        pool := s.pool.setPrev n none } := by
      rw [unlinkFirst, hn]
      rfl
    rw [heq]
    refine ⟨(@relinked_of _ _ _ (some n) (s.q q).qLast) (by simp [clearLinks]) rfl rfl
      ⟨rfl, rfl, rfl⟩, fun y hy => ?_, fun y hy => ?_, ?_, ?_⟩
    · simp [clearLinks, hy]
    · by_cases hyn : y = n
      · simp [clearLinks, hyn, hyn ▸ hy]
      · simp [clearLinks, hy, hyn, Ne.symm hyn]
    · simp [clearLinks, Streams.setQ]
    · simp [clearLinks, Streams.setQ]

/-- A message is taken from where it is. -/
theorem unlink_spec (h : Lists s ls ch) (hl : ls q = pre ++ bp :: post) :
    Removed q bp pre post s (clearLinks bp (unlink q bp s)) := by
  have hq := h.queue q
  rw [hl] at hq
  have hn : s.pool.next bp = post.head? := hq.next_eq
  have hp : s.pool.prev bp = pre.getLast? := hq.prev_eq
  have hnd := (List.nodup_cons.mp (List.perm_middle.nodup_iff.mp hq.nodup)).1
  rcases List.eq_nil_or_concat' pre with rfl | ⟨r, z, rfl⟩
  · cases post with
    | nil =>
      have heq : unlink q bp s = s.setQ q { s.q q with qFirst := none, qLast := none } := by
        simp only [unlink, hn, hp]
        simp [Streams.setQ]
      rw [heq]
      refine ⟨(@relinked_of _ _ _ none none) (by simp [clearLinks]) rfl rfl
        ⟨rfl, rfl, rfl⟩, fun y hy => ?_, fun y hy => ?_, ?_, ?_⟩
      all_goals simp [clearLinks, Streams.setQ]
      all_goals simp [hy]
    | cons n post =>
      have heq : unlink q bp s = { s.setQ q { s.q q with qFirst := some n } with
          pool := s.pool.setPrev n none } := by
        simp only [unlink, hn, hp]
        rfl
      rw [heq]
      refine ⟨(@relinked_of _ _ _ (some n) (s.q q).qLast) (by simp [clearLinks]) rfl rfl
        ⟨rfl, rfl, rfl⟩, fun y hy => ?_, fun y hy => ?_, ?_, ?_⟩
      · simp [clearLinks, hy]
      · by_cases hyn : y = n
        · simp [clearLinks, hyn, hyn ▸ hy]
        · simp [clearLinks, hy, hyn, Ne.symm hyn]
      · simp [clearLinks, Streams.setQ]
      · simp [clearLinks, Streams.setQ]
  · cases post with
    | nil =>
      have heq : unlink q bp s = { s.setQ q { s.q q with qLast := some z } with
          pool := s.pool.setNext z none } := by
        simp only [unlink, hn, hp, List.getLast?_concat]
        rfl
      rw [heq]
      refine ⟨(@relinked_of _ _ _ (s.q q).qFirst (some z)) (by simp [clearLinks]) rfl rfl
        ⟨rfl, rfl, rfl⟩, fun y hy => ?_, fun y hy => ?_, ?_, ?_⟩
      · by_cases hyz : y = z
        · simp [clearLinks, hyz, hyz ▸ hy]
        · simp [clearLinks, hy, hyz, Ne.symm hyz]
      · simp [clearLinks, hy]
      · simp [clearLinks, Streams.setQ]
      · simp [clearLinks, Streams.setQ]
    | cons n post =>
      have hzn : z ≠ n := by
        intro he
        have hnd' := hq.nodup
        rw [List.append_assoc] at hnd'
        have hz := (List.nodup_append.mp hnd').2.1
        simp [he] at hz
      have heq : unlink q bp s = { s with
          pool := (s.pool.setNext z (some n)).setPrev n (some z) } := by
        simp only [unlink, hn, hp, List.getLast?_concat]
        rfl
      rw [heq]
      refine ⟨(@relinked_of _ _ _ (s.q q).qFirst (s.q q).qLast) (by simp [clearLinks]) rfl
        (Function.update_eq_self _ _).symm ⟨rfl, rfl, rfl⟩, fun y hy => ?_, fun y hy => ?_, ?_, ?_⟩
      · by_cases hyz : y = z
        · simp [clearLinks, hyz, hyz ▸ hy]
        · simp [clearLinks, hy, hyz, Ne.symm hyz]
      · by_cases hyn : y = n
        · simp [clearLinks, hyn, hyn ▸ hy]
        · simp [clearLinks, hy, hyn, Ne.symm hyn]
      · simp [clearLinks]
      · simp [clearLinks]

theorem Streams.setQ_setQ (q : Nat) (u v : Queue) (s : Streams) :
    (s.setQ q u).setQ q v = s.setQ q v := by
  simp [Streams.setQ]

theorem unlinkFirst_msg (h : Msg s.pool m l) (q bp : Nat) :
    Msg (unlinkFirst q bp s).pool m l ∧
      (unlinkFirst q bp s).pool.weight l = s.pool.weight l := by
  have hv : (unlinkFirst q bp s).pool.view = s.pool.view := by
    unfold unlinkFirst
    split <;> simp
  have hn : (unlinkFirst q bp s).pool.nmblock = s.pool.nmblock := by
    unfold unlinkFirst
    split <;> rfl
  exact ⟨h.congr (fun b _ => by rw [hv]) hn, weight_congr fun b _ => by rw [hv]⟩

theorem getq_none (hf : (s.q q).qFirst = none) : getq q s =
    (lowWater q (s.setQ q { s.q q with qwantr := true })).bind fun s => some (none, s) := by
  unfold getq
  split
  · rfl
  · rename_i h
    cases hf.symm.trans h

theorem getq_some (hf : (s.q q).qFirst = some bp) : getq q s =
    (subCount q bp (unlinkFirst q bp s)).bind fun u =>
      (lowWater q (clearLinks bp (u.setQ q { u.q q with qwantr := false }))).bind fun u =>
        some (some bp, u) := by
  unfold getq
  split
  · rename_i h
    cases hf.symm.trans h
  · rename_i h
    cases hf.symm.trans h
    rfl

/-- getq takes the first message, if there is one. -/
theorem getq_spec (h : Lists s ls ch) (hr : RunList s rl) (hw : Wired s) (q : Nat) :
    (ls q = [] ∧ ∃ s', getq q s = some (none, s') ∧ Woke q s s' ∧
      Did ls ch q [] [] { (s.q q).meter with qwantr := true }.low s s') ∨
    ∃ bp l s', ls q = bp :: l ∧ getq q s = some (some bp, s') ∧ Woke q s s' ∧
      Did ls ch q l [] { (s.q q).meter.sub (s.pool.weight (ch bp)) with qwantr := false }.low
        s s' := by
  have hfirst := (h.queue q).first_eq
  cases hl : ls q with
  | nil =>
    rw [hl] at hfirst
    have hf : (s.q q).qFirst = none := hfirst
    have hrel : Relinked q s s := ⟨rfl, rfl, fun _ => rfl, fun _ _ => ⟨rfl, rfl⟩, rfl, rfl, rfl⟩
    have hsame : Lists s (Function.update ls q []) ch := by
      rw [← hl, Function.update_eq_self]
      exact h
    obtain ⟨s', heq, hd, hwoke⟩ := take_end hrel hr hw hsame (s.q q).qCount (s.q q).qfull true
    have hlow : lowWater q (s.setQ q { s.q q with qwantr := true }) = some s' := heq
    exact .inl ⟨rfl, s', by rw [getq_none hf, hlow, Option.bind_some], hwoke, hd⟩
  | cons bp l =>
    rw [hl] at hfirst
    have hf : (s.q q).qFirst = some bp := hfirst
    have hi := unlinkFirst_spec h hl
    have hlt : Lists (clearLinks bp (unlinkFirst q bp s)) (Function.update ls q l) ch :=
      @Lists.remove _ _ _ _ _ _ [] _ h hl hi
    obtain ⟨hm, hweight⟩ := unlinkFirst_msg (h.msg q bp (by simp [hl])) q bp
    obtain ⟨s', heq, hd, hwoke⟩ := take_end hi.toRelinked hr hw hlt
      (((unlinkFirst q bp s).q q).sub ((unlinkFirst q bp s).pool.weight (ch bp))).qCount
      (((unlinkFirst q bp s).q q).sub ((unlinkFirst q bp s).pool.weight (ch bp))).qfull false
    refine .inr ⟨bp, l, s', rfl, ?_, hwoke, ?_⟩
    · rw [getq_some hf, subCount_eq hm, Option.bind_some, Streams.setQ_setQ, Streams.setQ_self]
      exact congrArg (fun o => Option.bind o fun u => some (some bp, u)) heq
    · have hv : { (s.q q).meter with
          qCount := (((unlinkFirst q bp s).q q).sub (s.pool.weight (ch bp))).qCount
          qfull := (((unlinkFirst q bp s).q q).sub (s.pool.weight (ch bp))).qfull
          qwantr := false } =
          { (s.q q).meter.sub (s.pool.weight (ch bp)) with qwantr := false } := by
        rw [← hi.toRelinked.meter q]
        rfl
      rw [hweight, hv] at hd
      exact hd

theorem unlink_msg (h : Msg s.pool m l) (q mp : Nat) :
    Msg (clearLinks mp (unlink q mp s)).pool m l ∧
      (clearLinks mp (unlink q mp s)).pool.weight l = s.pool.weight l := by
  have hv : (clearLinks mp (unlink q mp s)).pool.view = s.pool.view := by
    simp only [clearLinks, Pool.view_setPrev, Pool.view_setNext]
    unfold unlink
    dsimp only
    split <;> split <;> simp
  have hn : (clearLinks mp (unlink q mp s)).pool.nmblock = s.pool.nmblock := by
    simp only [clearLinks, Pool.nmblock_setPrev, Pool.nmblock_setNext]
    unfold unlink
    dsimp only
    split <;> split <;> rfl
  exact ⟨h.congr (fun b _ => by rw [hv]) hn, weight_congr fun b _ => by rw [hv]⟩

/-- rmvq takes the message that it is told to. -/
theorem rmvq_spec (h : Lists s ls ch) (hr : RunList s rl) (hw : Wired s)
    (hl : ls q = pre ++ bp :: post) : ∃ s', rmvq q bp s = some s' ∧ Woke q s s' ∧
      Did ls ch q (pre ++ post) [] ((s.q q).meter.sub (s.pool.weight (ch bp))).low s s' := by
  have hi := unlink_spec h hl
  obtain ⟨hm, hweight⟩ := unlink_msg (h.msg q bp (by simp [hl])) q bp
  obtain ⟨s', heq, hd, hwoke⟩ := take_end hi.toRelinked hr hw (h.remove hl hi)
    (((clearLinks bp (unlink q bp s)).q q).sub (s.pool.weight (ch bp))).qCount
    (((clearLinks bp (unlink q bp s)).q q).sub (s.pool.weight (ch bp))).qfull
    ((clearLinks bp (unlink q bp s)).q q).qwantr
  refine ⟨s', ?_, hwoke, ?_⟩
  · rw [rmvq, subCount_eq hm, hweight]
    exact heq
  · have hmeter := hi.toRelinked.meter q
    have hv : { (s.q q).meter with
        qCount := (((clearLinks bp (unlink q bp s)).q q).sub (s.pool.weight (ch bp))).qCount
        qfull := (((clearLinks bp (unlink q bp s)).q q).sub (s.pool.weight (ch bp))).qfull
        qwantr := ((clearLinks bp (unlink q bp s)).q q).qwantr } =
        (s.q q).meter.sub (s.pool.weight (ch bp)) := by
      rw [← hmeter]
      rfl
    rw [hv] at hd
    exact hd

end Svr32.Stream
