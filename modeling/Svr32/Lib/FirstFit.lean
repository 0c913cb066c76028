import Mathlib.Data.List.Basic

/-! First fit in a row of blocks with headers of `k` cells. Free blocks that are next to each
other are joined on the way. -/
namespace Svr32.Lib

structure Blk where
  len : Nat
  busy : Bool

variable {k sz n o p : Nat} {l r : List Blk}

/- The cells that blocks take, with their headers. -/
def span (k : Nat) : List Blk → Nat
  | [] => 0
  | b :: r => k + b.len + span k r

theorem length_le_span (hk : 0 < k) (l : List Blk) : l.length ≤ span k l := by
  induction l with
  | nil => exact Nat.le_refl _
  | cons b r ih =>
    rw [List.length_cons, span]
    omega

/- The bodies of the busy blocks, the first header being at `o`. -/
def busyAt (k : Nat) : Nat → List Blk → List (Nat × Nat)
  | _, [] => []
  | o, ⟨n, true⟩ :: r => (o + k, n) :: busyAt k (o + k + n) r
  | o, ⟨n, false⟩ :: r => busyAt k (o + k + n) r

/- A free block takes in the free blocks behind it. -/
def absorb (k : Nat) : Nat → List Blk → Nat × List Blk
  | n, [] => (n, [])
  | n, ⟨m, false⟩ :: r => absorb k (n + k + m) r
  | n, ⟨m, true⟩ :: r => (n, ⟨m, true⟩ :: r)

theorem absorb_length (k n : Nat) (l : List Blk) : (absorb k n l).2.length ≤ l.length := by
  induction l generalizing n with
  | nil => exact Nat.le_refl _
  | cons b r ih =>
    rcases b with ⟨m, _ | _⟩
    · exact Nat.le_trans (ih _) (Nat.le_succ _)
    · exact Nat.le_refl _

/- First fit: where the new block is, and the blocks then. -/
def place (k sz : Nat) : Nat → List Blk → Option Nat × List Blk
  | _, [] => (none, [])
  | o, ⟨n, true⟩ :: r =>
    ((place k sz (o + k + n) r).1, ⟨n, true⟩ :: (place k sz (o + k + n) r).2)
  | o, ⟨n, false⟩ :: r =>
    if sz + k ≤ (absorb k n r).1 then
      (some (o + k), ⟨sz, true⟩ :: ⟨(absorb k n r).1 - (sz + k), false⟩ :: (absorb k n r).2)
    else if sz ≤ (absorb k n r).1 then (some (o + k), ⟨(absorb k n r).1, true⟩ :: (absorb k n r).2)
    else ((place k sz (o + k + (absorb k n r).1) (absorb k n r).2).1,
      ⟨(absorb k n r).1, false⟩ :: (place k sz (o + k + (absorb k n r).1) (absorb k n r).2).2)
termination_by _ l => l.length
decreasing_by
  · exact Nat.lt_succ_self _
  · exact Nat.lt_succ_of_le (absorb_length _ _ _)

theorem absorb_span (k n : Nat) (l : List Blk) :
    (absorb k n l).1 + span k (absorb k n l).2 = n + span k l := by
  induction l generalizing n with
  | nil => rfl
  | cons b r ih =>
    rcases b with ⟨m, _ | _⟩
    · rw [absorb, ih, span]
      simp only
      omega
    · rfl

theorem absorb_busy (k n o : Nat) (l : List Blk) :
    busyAt k (o + (absorb k n l).1) (absorb k n l).2 = busyAt k (o + n) l := by
  induction l generalizing n with
  | nil => rfl
  | cons b r ih =>
    rcases b with ⟨m, _ | _⟩
    · rw [absorb, ih, busyAt, Nat.add_assoc, Nat.add_assoc, Nat.add_assoc]
    · rfl

theorem absorb_mono {n' : Nat} (h : n ≤ n') (l : List Blk) :
    (absorb k n l).1 ≤ (absorb k n' l).1 := by
  induction l generalizing n n' with
  | nil => exact h
  | cons b r ih =>
    rcases b with ⟨m, _ | _⟩
    · exact ih (by omega)
    · exact h

theorem absorb_le (k n : Nat) (l : List Blk) : n ≤ (absorb k n l).1 := by
  induction l generalizing n with
  | nil => exact Nat.le_refl _
  | cons b r ih =>
    rcases b with ⟨m, _ | _⟩
    · have hrest := ih (n + k + m)
      rw [absorb]
      omega
    · exact Nat.le_refl _

/-- Free blocks at the front are all taken in. -/
theorem absorb_run {run post : List Blk} (h : ∀ b ∈ run, b.busy = false) :
    n + span k run ≤ (absorb k n (run ++ post)).1 := by
  induction run generalizing n with
  | nil =>
    rw [List.nil_append, span]
    exact absorb_le k n post
  | cons b r ih =>
    rcases b with ⟨m, _ | _⟩
    · have hrest := @ih (n + k + m) fun b hb => h b (List.mem_cons_of_mem _ hb)
      rw [List.cons_append, absorb, span]
      simp only
      omega
    · exact absurd (h _ List.mem_cons_self) nofun

/-- A free block behind is taken in, or left as it is. -/
theorem absorb_suffix {pre : List Blk} {m : Nat} (h : l = pre ++ ⟨m, false⟩ :: r) :
    (absorb k m r).1 ≤ (absorb k n l).1 ∨
      ∃ pre', (absorb k n l).2 = pre' ++ ⟨m, false⟩ :: r := by
  induction l generalizing n pre with
  | nil => exact absurd h.symm (List.append_ne_nil_of_right_ne_nil _ (List.cons_ne_nil _ _))
  | cons b t ih =>
    rcases b with ⟨x, _ | _⟩
    · rw [absorb]
      cases pre with
      | nil =>
        cases h
        exact .inl (absorb_mono (by omega) _)
      | cons y pre =>
        rw [List.cons_append] at h
        exact ih (List.cons.inj h).2
    · exact .inr ⟨pre, h⟩

theorem place_span (k sz o : Nat) (l : List Blk) : span k (place k sz o l).2 = span k l := by
  fun_induction place k sz o l with
  | case1 => rfl
  | case2 o n r ih => rw [span, span, ih]
  | case3 o n r h =>
    have ha := absorb_span k n r
    simp only [span]
    omega
  | case4 o n r h h' =>
    have ha := absorb_span k n r
    simp only [span]
    omega
  | case5 o n r h h' ih =>
    have ha := absorb_span k n r
    simp only [span, ih]
    omega

/-- The busy blocks stay as they are, and the new one is large enough. -/
theorem place_busy (k sz o : Nat) (l : List Blk) :
    match place k sz o l with
    | (none, l') => busyAt k o l' = busyAt k o l
    | (some p, l') => ∃ n pre post, sz ≤ n ∧ busyAt k o l = pre ++ post ∧
      busyAt k o l' = pre ++ (p, n) :: post := by
  fun_induction place k sz o l with
  | case1 => rfl
  | case2 o n r ih =>
    rcases hp : place k sz (o + k + n) r with ⟨_ | p, l'⟩
    · rw [hp] at ih
      simp only [busyAt] at ih ⊢
      rw [ih]
    · rw [hp] at ih
      obtain ⟨m, pre, post, hm, hold, hnew⟩ := ih
      refine ⟨m, (o + k, n) :: pre, post, hm, ?_, ?_⟩
      · rw [busyAt, hold, List.cons_append]
      · simp only [busyAt]
        rw [hnew, List.cons_append]
  | case3 o n r h =>
    have hb := absorb_busy k n (o + k) r
    refine ⟨sz, [], busyAt k (o + k + n) r, Nat.le_refl sz, rfl, ?_⟩
    have ho : o + k + sz + k + ((absorb k n r).1 - (sz + k)) = o + k + (absorb k n r).1 := by
      omega
    rw [busyAt, busyAt, ho, hb, List.nil_append]
  | case4 o n r h h' =>
    have hb := absorb_busy k n (o + k) r
    refine ⟨(absorb k n r).1, [], busyAt k (o + k + n) r, h', rfl, ?_⟩
    rw [busyAt, hb, List.nil_append]
  | case5 o n r h h' ih =>
    have hb := absorb_busy k n (o + k) r
    rcases hp : place k sz (o + k + (absorb k n r).1) (absorb k n r).2 with ⟨_ | p, l'⟩
    · rw [hp] at ih
      simp only [busyAt] at ih ⊢
      rw [ih, hb]
    · rw [hp] at ih
      obtain ⟨m, pre, post, hm, hold, hnew⟩ := ih
      exact ⟨m, pre, post, hm, by rw [busyAt, ← hb, hold], by simp only [busyAt]; exact hnew⟩

/-- Nothing is found only if no free block, with those behind it, is large enough. -/
theorem place_none (h : (place k sz o l).1 = none) {pre : List Blk} {m : Nat}
    (hl : l = pre ++ ⟨m, false⟩ :: r) : (absorb k m r).1 < sz := by
  fun_induction place k sz o l generalizing pre with
  | case1 => exact absurd hl.symm (List.append_ne_nil_of_right_ne_nil _ (List.cons_ne_nil _ _))
  | case2 o n t ih =>
    cases pre with
    | nil => cases hl
    | cons y pre =>
      rw [List.cons_append] at hl
      exact ih h (List.cons.inj hl).2
  | case3 => cases h
  | case4 => cases h
  | case5 o n t h₁ h₂ ih =>
    cases pre with
    | nil =>
      cases hl
      omega
    | cons y pre =>
      rw [List.cons_append] at hl
      rcases @absorb_suffix k n t r pre m (List.cons.inj hl).2 with hle | ⟨pre', hpre'⟩
      · omega
      · exact ih h hpre'

/- Where the headers are. -/
def headersAt (k : Nat) : Nat → List Blk → List Nat
  | _, [] => []
  | o, b :: r => o :: headersAt k (o + k + b.len) r

theorem headersAt_le {q : Nat} (h : q ∈ headersAt k o l) : o ≤ q := by
  induction l generalizing o with
  | nil => cases h
  | cons b r ih =>
    rcases List.mem_cons.mp h with rfl | h
    · exact Nat.le_refl _
    · have hq := ih h
      omega

theorem busyAt_bounds {b : Nat × Nat} (h : b ∈ busyAt k o l) :
    o + k ≤ b.1 ∧ b.1 + b.2 ≤ o + span k l := by
  induction l generalizing o with
  | nil => cases h
  | cons c r ih =>
    rcases c with ⟨n, _ | _⟩
    · have hb := ih h
      simp only [span]
      omega
    · simp only [span]
      rcases List.mem_cons.mp h with rfl | h
      · simp only
        omega
      · have hb := ih h
        omega

/-- The body of a busy block and the headers lie apart. -/
theorem busyAt_apart {b : Nat × Nat} {q : Nat} (h : b ∈ busyAt k o l)
    (hq : q ∈ headersAt k o l) : b.1 + b.2 ≤ q ∨ q + k ≤ b.1 := by
  induction l generalizing o with
  | nil => cases h
  | cons c r ih =>
    have hb : ∀ {b : Nat × Nat}, b ∈ busyAt k (o + k + c.len) r → o + k + c.len + k ≤ b.1 :=
      fun h => (busyAt_bounds h).1
    rcases c with ⟨n, _ | _⟩
    · rcases List.mem_cons.mp hq with rfl | hq
      · have hlow := hb h
        simp only at hlow
        omega
      · exact ih h hq
    · rcases List.mem_cons.mp h with rfl | h
      · rcases List.mem_cons.mp hq with rfl | hq
        · exact .inr (Nat.le_refl _)
        · have hlow := headersAt_le hq
          simp only at hlow ⊢
          omega
      · rcases List.mem_cons.mp hq with rfl | hq
        · have hlow := hb h
          simp only at hlow
          omega
        · exact ih h hq

/-- The bodies of the busy blocks lie apart from each other. -/
theorem busyAt_pairwise (k o : Nat) (l : List Blk) :
    (busyAt k o l).Pairwise fun a b => a.1 + a.2 + k ≤ b.1 := by
  induction l generalizing o with
  | nil => exact .nil
  | cons c r ih =>
    rcases c with ⟨n, _ | _⟩
    · exact ih _
    · exact .cons (fun b hb => (busyAt_bounds hb).1) (ih _)

/-- Only one busy block has its body where it is. -/
theorem busyAt_once (hk : 0 < k) {pre post : List (Nat × Nat)}
    (h : busyAt k o l = pre ++ (p, n) :: post) : ∀ b ∈ pre ++ post, b.1 ≠ p := by
  have hmid := busyAt_pairwise k o l
  rw [h] at hmid
  obtain ⟨-, hpost, hpre⟩ := List.pairwise_append.mp hmid
  intro b hb he
  rcases List.mem_append.mp hb with hb | hb
  · have hlt := hpre b hb (p, n) List.mem_cons_self
    simp only at hlt
    omega
  · have hlt := (List.pairwise_cons.mp hpost).1 b hb
    simp only at hlt
    omega

end Svr32.Lib
