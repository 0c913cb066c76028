import Svr32.Sort.Qksort
import Svr32.Lib.Runs
import Svr32.Lib.Word

/-! msort and insert of cmd/sort/sort.c: the lines in core are sorted in blocks, and the blocks are
merged by a tree whose nodes are kept in order in the array treep. What is written is a list. -/
namespace Svr32.Sort
open Svr32.Lib Svr32.Lib.Partition Svr32.Lib.Runs

def TREEZ : Nat := 32

structure Btree where
  rp : Line
  rn : Nat

/- What insert keeps of how it went. -/
structure Stats where
  wasfirst : Int
  notfirst : Int
  bonus : Int

/- for (n++, award = 0; (n >>= 1) > 0; award++) -/
def awardLoop : Nat → Nat → Int → Int
  | 0, _, award => award
  | fuel + 1, n, award =>
    let n := n >>> 1
    if n > 0 then awardLoop fuel n (award + 1) else award

def cmpsave (n : Nat) : Int := if n < 2 then 0 else awardLoop (n + 1) (n + 1) 0

variable (compare : Line → Line → Int)

/- while ((c = hip - lop) >= 0), by indices from tp; it leaves midp. -/
def insertLoop (x : Line) (t : List Btree) : Nat → Nat → Nat → Nat → Option Nat
  | 0, _, _, _ => none
  | fuel + 1, lop, hip, midp =>
    if lop ≤ hip then
      let midp := lop + (hip - lop) / 2
      t[midp]?.bind fun m =>
        let c := compare x m.rp
        if c = 0 then some midp
        else if c < 0 then insertLoop x t fuel (midp + 1) hip (midp + 1)
        else insertLoop x t fuel lop (midp - 1) midp
    else some midp

/- The shortcut for data that appears to be in correct order. -/
def inOrder (s : Stats) (x : Btree) (rest : List Btree) : Bool :=
  s.wasfirst > s.notfirst && decide (rest.length + 1 > 2) &&
    match rest with
    | [] => false
    | y :: _ => compare x.rp y.rp ≥ 0

/- insert(tp, n) for the `n` nodes from tp on. -/
def insert (t : List Btree) (s : Stats) : Option (List Btree × Stats) :=
  match t with
  | [] => none
  | x :: rest =>
    if inOrder compare s x rest then
      some (t, { s with wasfirst := i32 (s.wasfirst + s.bonus) })
    else
      (insertLoop compare x.rp t (rest.length + 1) 1 rest.length 0).map fun midp =>
        let c := midp - 1
        -- the nodes in front of midp move down by one
        if c > 0 then
          (rest.take c ++ x :: rest.drop c, { s with notfirst := i32 (s.notfirst + 1) })
        else (t, { s with wasfirst := i32 (s.wasfirst + s.bonus) })

/- The blocks, with the nodes from tp on. -/
structure Load where
  blkcnt : Nat → Nat
  blkcur : Nat → Nat
  tp : List Btree
  s : Stats

/- while((blkcnt[i] > 1) && (**(blkcur[i]-1) == '\0')) -/
def bypass (v : Nat → Line) : Nat → Nat → Nat × Nat
  | cnt + 2, cur => if isNul (v (cur - 1)) then bypass v (cnt + 1) (cur - 1) else (cnt + 2, cur)
  | cnt, cur => (cnt, cur)

/- Get another record and insert. -/
def another (uflg : Bool) (v : Nat → Line) (m : Load) : Option Load :=
  match m.tp with
  | [] => none
  | top :: rest =>
    let i := top.rn
    let b := if uflg then bypass v (m.blkcnt i) (m.blkcur i) else (m.blkcnt i, m.blkcur i)
    let blkcnt := Function.update m.blkcnt i (b.1 - 1)
    if b.1 - 1 > 0 then
      let cur := b.2 - 1
      (insert compare (⟨v cur, i⟩ :: rest) m.s).map fun (tp, s) =>
        ⟨blkcnt, Function.update m.blkcur i cur, tp, s⟩
    else if rest = [] then some ⟨blkcnt, Function.update m.blkcur i b.2, [], m.s⟩
    else
      some ⟨blkcnt, Function.update m.blkcur i b.2, rest,
        { m.s with bonus := cmpsave rest.length }⟩

/- do .. while (j && (*compare)((*tp)->rp, save) == 0) -/
def bypassRepeats (uflg : Bool) (v : Nat → Line) (save : Line) : Nat → Load → Option Load
  | 0, _ => none
  | fuel + 1, m =>
    (another compare uflg v m).bind fun m =>
      match m.tp with
      | [] => some m
      | top :: _ =>
        if uflg ∧ compare top.rp save = 0 then bypassRepeats uflg v save fuel m else some m

/- while (n > 0) -/
def mergeLoop (uflg : Bool) (v : Nat → Line) : Nat → Load → Option (List Line × Stats)
  | 0, _ => none
  | fuel + 1, m =>
    match m.tp with
    | [] => some ([], m.s)
    | top :: _ =>
      (bypassRepeats compare uflg v top.rp fuel m).bind fun m =>
        (mergeLoop uflg v fuel m).map fun r => (top.rp :: r.1, r.2)

/- The sorted subgroups: `n` still to be made, from the line `a` on, where `i` lines are left. -/
def subgroups (uflg : Bool) (fuel : Nat) : Nat → Nat → Nat → Nat → (Nat → Nat) × (Nat → Nat) →
    (Nat → Line) → Option (((Nat → Nat) × (Nat → Nat)) × (Nat → Line))
  | 0, _, _, _, blk, v => some (blk, v)
  | n + 1, j, a, i, blk, v =>
    let cnt := i / (n + 1)
    let b := a + cnt
    (qksort compare uflg fuel a b v).bind fun v =>
      subgroups uflg fuel n (j + 1) b (i - cnt)
        (Function.update blk.1 j cnt, Function.update blk.2 j b) v

/- The tree, from the last group to the first. -/
def grow (v : Nat → Line) : Nat → Load → Option Load
  | 0, m => some m
  | j + 1, m =>
    let cur := m.blkcur j - 1
    (insert compare (⟨v cur, j⟩ :: m.tp) m.s).bind fun (tp, s) =>
      grow v j { m with blkcur := Function.update m.blkcur j cur, tp := tp, s := s }

/- msort: what is written, and what is kept of how insert went. -/
def msort (uflg : Bool) (fuel : Nat) (lines : List Line) (s : Stats) :
    Option (List Line × Stats) :=
  let i := lines.length
  if i < 1 then some ([], s)
  else if i = 1 then some (lines, s)
  else
    let n := if i ≥ TREEZ then TREEZ else i
    (subgroups compare uflg fuel n 0 0 i (fun _ => 0, fun _ => 0) fun k => lines.getD k []).bind
      fun (blk, v) =>
        (grow compare v n ⟨blk.1, blk.2, [], s⟩).bind fun m =>
          mergeLoop compare uflg v fuel { m with s := ⟨0, 0, cmpsave n⟩ }

end Svr32.Sort

/-! insert. -/
namespace Svr32.Sort
open Svr32.Lib Svr32.Lib.Partition Svr32.Lib.Runs
variable {compare : Line → Line → Int} {x : Btree} {rest : List Btree} {s : Stats}

/- Nodes in order. -/
def InOrder (compare : Line → Line → Int) (t : List Btree) : Prop :=
  t.Pairwise fun x y => 0 ≤ compare x.rp y.rp

/-- Where the search ends: nothing in front is below the new node, nothing behind above it. -/
theorem insertLoop_spec (hc : TotalPreorder compare) (hs : InOrder compare rest)
    (fuel lop hip midp : Nat) (hlop : 1 ≤ lop) (hle : lop ≤ hip + 1) (hhip : hip ≤ rest.length)
    (hmid : hip < lop → 0 < rest.length → midp = lop) (hfuel : hip + 1 - lop < fuel)
    (hlow : ∀ k y, k + 1 < lop → rest[k]? = some y → compare x.rp y.rp < 0)
    (hhigh : ∀ k y, hip < k + 1 → rest[k]? = some y → 0 < compare x.rp y.rp) :
    ∃ m, insertLoop compare x.rp (x :: rest) fuel lop hip midp = some m ∧
      (0 < rest.length → 1 ≤ m ∧ m ≤ rest.length + 1 ∧
        (∀ k y, k + 1 < m → rest[k]? = some y → compare x.rp y.rp ≤ 0) ∧
        ∀ k y, m ≤ k + 1 → rest[k]? = some y → 0 ≤ compare x.rp y.rp) := by
  induction fuel generalizing lop hip midp with
  | zero => omega
  | succ fuel ih =>
    rw [insertLoop]
    by_cases hgo : lop ≤ hip
    · rw [if_pos hgo]
      dsimp only
      obtain ⟨j, hj⟩ : ∃ j, lop + (hip - lop) / 2 = j + 1 := ⟨lop + (hip - lop) / 2 - 1, by omega⟩
      have hjlt : j < rest.length := by omega
      rw [hj, List.getElem?_cons_succ, List.getElem?_eq_getElem hjlt, Option.bind_some]
      have hat : rest[j]? = some rest[j] := List.getElem?_eq_getElem hjlt
      -- the order of the others against the node in the middle
      have hbefore : ∀ k y, k < j → rest[k]? = some y → 0 ≤ compare y.rp rest[j].rp := by
        intro k y hk hy
        obtain ⟨hkl, rfl⟩ := List.getElem?_eq_some_iff.mp hy
        exact List.pairwise_iff_getElem.mp hs k j hkl hjlt hk
      have hbehind : ∀ k y, j < k → rest[k]? = some y → 0 ≤ compare rest[j].rp y.rp := by
        intro k y hk hy
        obtain ⟨hkl, rfl⟩ := List.getElem?_eq_some_iff.mp hy
        exact List.pairwise_iff_getElem.mp hs j k hjlt hkl hk
      by_cases h0 : compare x.rp rest[j].rp = 0
      · rw [if_pos h0]
        refine ⟨j + 1, rfl, fun _ => ⟨by omega, by omega, fun k y hk hy => ?_, fun k y hk hy => ?_⟩⟩
        · have hb := hbefore k y (by omega) hy
          have hcg := hc.congr (x := y.rp) (y := x.rp) (z := rest[j].rp) h0
          have hsw := hc.swap x.rp y.rp
          have hsw' := hc.swap y.rp x.rp
          omega
        · by_cases hkj : k = j
          · subst hkj
            rw [hat] at hy
            cases hy
            omega
          · exact ge_trans hc (Int.le_of_eq h0.symm) (hbehind k y (by omega) hy)
      · rw [if_neg h0]
        by_cases hlt : compare x.rp rest[j].rp < 0
        · rw [if_pos hlt]
          refine ih _ _ _ (by omega) (by omega) hhip (fun _ _ => rfl) (by omega)
            (fun k y hk hy => ?_)
            hhigh
          by_cases hkj : k = j
          · subst hkj
            rw [hat] at hy
            cases hy
            exact hlt
          · have hb := hbefore k y (by omega) hy
            have hgt := hc.swap x.rp rest[j].rp
            have hsw := hc.swap x.rp y.rp
            have htr := hc.trans y.rp x.rp rest[j].rp
            have hsw' := hc.swap y.rp rest[j].rp
            have hsw'' := hc.swap rest[j].rp y.rp
            have hsw₃ := hc.swap rest[j].rp x.rp
            have hsw₄ := hc.swap y.rp x.rp
            have htr' := hc.trans x.rp rest[j].rp y.rp
            have htr'' := hc.trans rest[j].rp y.rp x.rp
            omega
        · rw [if_neg hlt]
          refine ih _ _ _ hlop (by omega) (by omega) (fun _ _ => by omega) (by omega) hlow
            (fun k y hk hy => ?_)
          have hpos : 0 < compare x.rp rest[j].rp := by omega
          by_cases hkj : k = j
          · subst hkj
            rw [hat] at hy
            cases hy
            exact hpos
          · exact gt_of_gt_of_ge hc hpos (hbehind k y (by omega) hy)
    · rw [if_neg hgo]
      refine ⟨midp, rfl, fun hpos => ?_⟩
      rw [hmid (by omega) hpos]
      exact ⟨hlop, by omega, fun k y hk hy => Int.le_of_lt (hlow k y hk hy),
        fun k y hk hy => Int.le_of_lt (hhigh k y (by omega) hy)⟩

/-- insert puts the first node to a place where it belongs. -/
theorem insert_spec (hc : TotalPreorder compare) (hs : InOrder compare rest) (s : Stats)
    (x : Btree) : ∃ l₁ l₂ s', rest = l₁ ++ l₂ ∧
      insert compare (x :: rest) s = some (l₁ ++ x :: l₂, s') ∧
      (∀ y ∈ l₁, 0 ≤ compare y.rp x.rp) ∧ ∀ y ∈ l₂, 0 ≤ compare x.rp y.rp := by
  rw [insert]
  by_cases hin : inOrder compare s x rest
  · rw [if_pos hin]
    refine ⟨[], rest, _, rfl, rfl, nofun, fun y hy => ?_⟩
    cases rest with
    | nil => cases hy
    | cons z rest =>
      have hz : 0 ≤ compare x.rp z.rp := by
        simp only [inOrder, Bool.and_eq_true, decide_eq_true_eq] at hin
        exact hin.2
      cases List.mem_cons.mp hy with
      | inl he => exact he ▸ hz
      | inr hy => exact ge_trans hc hz ((List.pairwise_cons.mp hs).1 y hy)
  · rw [if_neg hin]
    obtain ⟨m, hm, hspec⟩ := insertLoop_spec (x := x) hc hs (rest.length + 1) 1 rest.length 0
      (Nat.le_refl 1) (by omega) (Nat.le_refl _)
      (fun h h' => by omega) (by omega) (fun k y hk => by omega) (fun k y hk hy => by
        obtain ⟨hkl, -⟩ := List.getElem?_eq_some_iff.mp hy
        omega)
    rw [hm, Option.map_some]
    dsimp only
    have hplace : ∀ c, (0 < rest.length → c = m - 1) → (∀ y ∈ rest.take c, 0 ≤ compare y.rp x.rp) ∧
        ∀ y ∈ rest.drop c, 0 ≤ compare x.rp y.rp := by
      intro c hcm
      refine ⟨fun y hy => ?_, fun y hy => ?_⟩
      · obtain ⟨k, hk, rfl⟩ := List.mem_iff_getElem.mp hy
        rw [List.length_take] at hk
        have hkl : k < rest.length := by omega
        obtain ⟨hm1, hmle, hlow, -⟩ := hspec (by omega)
        have hcm := hcm (by omega)
        rw [List.getElem_take]
        have hle := hlow k rest[k] (by omega) (List.getElem?_eq_getElem hkl)
        have hsw := hc.swap x.rp rest[k].rp
        have hsw' := hc.swap rest[k].rp x.rp
        omega
      · obtain ⟨k, hk, rfl⟩ := List.mem_iff_getElem.mp hy
        rw [List.length_drop] at hk
        obtain ⟨hm1, hmle, -, hhigh⟩ := hspec (by omega)
        have hcm := hcm (by omega)
        rw [List.getElem_drop]
        exact hhigh (c + k) _ (by omega) (List.getElem?_eq_getElem (by omega))
    by_cases hpos : m - 1 > 0
    · rw [if_pos hpos]
      exact ⟨rest.take (m - 1), rest.drop (m - 1), _, (List.take_append_drop _ _).symm, rfl,
        hplace (m - 1) fun _ => rfl⟩
    · rw [if_neg hpos]
      refine ⟨[], rest, _, rfl, rfl, nofun, ?_⟩
      have hb := (hplace 0 fun hlen => by have h1 := (hspec hlen).1; omega).2
      rwa [List.drop_zero] at hb

/-! The merge. -/

section merge
variable {uflg : Bool} {v : Nat → Line} {m m' : Load} {P : List (List Line)}

/- The lines of a block that are still to be got, `n` of them with the marked ones, below `cur`. -/
def below (uflg : Bool) (v : Nat → Line) : Nat → Nat → List Line
  | 0, _ => []
  | n + 1, cur =>
    if uflg ∧ isNul (v (cur - 1)) then below uflg v n (cur - 1)
    else v (cur - 1) :: below uflg v n (cur - 1)

theorem bypass_spec (v : Nat → Line) (n cur : Nat) :
    ∃ n' cur', bypass v (n + 1) cur = (n' + 1, cur') ∧
    below true v n cur = below true v n' cur' ∧ (n' = 0 ∨ ¬ isNul (v (cur' - 1))) := by
  induction n generalizing cur with
  | zero => exact ⟨0, cur, rfl, rfl, .inl rfl⟩
  | succ n ih =>
    rw [bypass, below]
    by_cases hnul : isNul (v (cur - 1))
    · rw [if_pos hnul, if_pos ⟨rfl, hnul⟩]
      exact ih (cur - 1)
    · rw [if_neg hnul]
      refine ⟨n + 1, cur, rfl, ?_, .inr hnul⟩
      rw [below]

/-- What is got next. -/
theorem bypass_below (uflg : Bool) (v : Nat → Line) (n cur : Nat) : ∃ n' cur',
    (if uflg then bypass v (n + 1) cur else (n + 1, cur)) = (n' + 1, cur') ∧
      match n' with
      | 0 => below uflg v n cur = []
      | k + 1 => below uflg v n cur = v (cur' - 1) :: below uflg v k (cur' - 1) := by
  cases uflg with
  | false =>
    refine ⟨n, cur, rfl, ?_⟩
    cases n with
    | zero => rfl
    | succ k => rfl
  | true =>
    obtain ⟨n', cur', hb, hsame, hstop⟩ := bypass_spec v n cur
    refine ⟨n', cur', hb, ?_⟩
    rw [hsame]
    cases n' with
    | zero => rfl
    | succ k =>
      have hno : ¬ ((true = true) ∧ isNul (v (cur' - 1)) = true) := fun hh =>
        (hstop.resolve_left (Nat.succ_ne_zero k)) hh.2
      rw [below, if_neg hno]

/- The blocks that are being merged, each from its node on. -/
structure Merges (uflg : Bool) (v : Nat → Line) (m : Load) (P : List (List Line)) : Prop where
  runs : P = m.tp.map fun e => e.rp :: below uflg v (m.blkcnt e.rn - 1) (m.blkcur e.rn)
  own : (m.tp.map Btree.rn).Nodup
  some : ∀ e ∈ m.tp, 1 ≤ m.blkcnt e.rn

theorem Merges.inOrder (h : Merges uflg v m P) (hr : Ranked compare P) :
    InOrder compare m.tp := by
  have hh := hr.heads
  rw [h.runs, List.pairwise_map] at hh
  exact hh.imp fun hab => hab _ rfl _ rfl

/-- Nodes of other blocks do not see that a block goes on. -/
theorem below_update {t : List Btree} {blkcnt blkcur : Nat → Nat} {i cnt cur : Nat}
    (h : i ∉ t.map Btree.rn) :
    (t.map fun e => e.rp :: below uflg v (Function.update blkcnt i cnt e.rn - 1)
      (Function.update blkcur i cur e.rn)) =
    t.map fun e => e.rp :: below uflg v (blkcnt e.rn - 1) (blkcur e.rn) := by
  refine List.map_congr_left fun e he => ?_
  have hne : e.rn ≠ i := fun hei => h (hei ▸ List.mem_map_of_mem he)
  rw [Function.update_of_ne hne, Function.update_of_ne hne]

/-- To get another record is to take the head of the first run. -/
theorem another_spec (hc : TotalPreorder compare) (h : Merges uflg v m P)
    (hr : Ranked compare P) {top : Btree} {rest : List Btree} (ht : m.tp = top :: rest) :
    ∃ m' P', another compare uflg v m = some m' ∧ Merges uflg v m' P' ∧
      Advance compare P top.rp P' := by
  have hord := h.inOrder hr
  obtain ⟨hruns, hown, hsome⟩ := h
  rw [ht] at hruns hown hsome hord
  have hone := hsome top List.mem_cons_self
  obtain ⟨hnot, hown'⟩ := List.nodup_cons.mp hown
  obtain ⟨n, hn⟩ : ∃ n, m.blkcnt top.rn = n + 1 := ⟨m.blkcnt top.rn - 1, by omega⟩
  obtain ⟨n', cur, hb, hbelow⟩ := bypass_below uflg v n (m.blkcur top.rn)
  have hcnt : ∀ cnt : Nat, ∀ e ∈ rest, 1 ≤ m.blkcnt e.rn →
      1 ≤ Function.update m.blkcnt top.rn cnt e.rn := by
    intro cnt e he h1
    have hne : e.rn ≠ top.rn := fun hei => hnot (hei ▸ List.mem_map_of_mem he)
    rwa [Function.update_of_ne hne]
  rw [another, ht]
  dsimp only
  rw [hn, hb]
  dsimp only
  rw [Nat.add_sub_cancel]
  rw [List.map_cons, hn, Nat.add_sub_cancel] at hruns
  cases n' with
  | zero =>
    rw [if_neg (Nat.lt_irrefl 0)]
    rw [hbelow] at hruns
    have hdrop : Advance compare P top.rp
        (rest.map fun e => e.rp :: below uflg v (m.blkcnt e.rn - 1) (m.blkcur e.rn)) := by
      rw [hruns]
      exact .drop _ _
    by_cases hrest : rest = []
    · rw [if_pos hrest]
      subst hrest
      exact ⟨_, _, rfl, ⟨rfl, List.nodup_nil, nofun⟩, hdrop⟩
    · rw [if_neg hrest]
      refine ⟨_, _, rfl, ⟨?_, hown', fun e he => ?_⟩, hdrop⟩
      · exact (below_update hnot).symm
      · exact hcnt 0 e he (hsome e (List.mem_cons_of_mem top he))
  | succ k =>
    rw [if_pos (Nat.succ_pos k)]
    obtain ⟨l₁, l₂, s', rfl, hins, hfront, hback⟩ :=
      insert_spec hc (List.pairwise_cons.mp hord).2 m.s ⟨v (cur - 1), top.rn⟩
    rw [hins, Option.map_some]
    have hperm : (l₁ ++ (⟨v (cur - 1), top.rn⟩ : Btree) :: l₂).Perm
        (⟨v (cur - 1), top.rn⟩ :: (l₁ ++ l₂)) := List.perm_middle
    refine ⟨_, (l₁.map fun e => e.rp :: below uflg v (m.blkcnt e.rn - 1) (m.blkcur e.rn)) ++
      (v (cur - 1) :: below uflg v k (cur - 1)) ::
        l₂.map fun e => e.rp :: below uflg v (m.blkcnt e.rn - 1) (m.blkcur e.rn), rfl,
      ⟨?_, ?_, fun e he => ?_⟩, ?_⟩
    · rw [List.map_append, List.mem_append, not_or] at hnot
      dsimp only
      rw [List.map_append, List.map_cons, below_update hnot.1, below_update hnot.2]
      simp only [Function.update_self, Nat.add_sub_cancel]
    · exact ((hperm.map Btree.rn).nodup_iff).mpr (List.nodup_cons.mpr ⟨hnot, hown'⟩)
    · cases List.mem_cons.mp (hperm.mem_iff.mp he) with
      | inl hei =>
        rw [hei]
        dsimp only
        rw [Function.update_self]
        omega
      | inr he => exact hcnt _ e he (hsome e (List.mem_cons_of_mem top he))
    · rw [hruns, hbelow, List.map_append]
      refine .place _ (fun s hs z hz => ?_) (fun s hs z hz => ?_)
      · obtain ⟨e, he, rfl⟩ := List.mem_map.mp hs
        rw [← Option.some.inj hz]
        exact hfront e he
      · obtain ⟨e, he, rfl⟩ := List.mem_map.mp hs
        rw [← Option.some.inj hz]
        exact hback e he

/-- The records equal to the one that is saved are bypassed. -/
theorem bypassRepeats_spec (hc : TotalPreorder compare) {save : Line}
    (h : Merges true v m P) (hr : Ranked compare P) {top : Btree} {rest : List Btree}
    (ht : m.tp = top :: rest) (he : compare top.rp save = 0) :
    ∃ m' P', (∀ n ≥ P.flatten.length, bypassRepeats compare true v save n m = some m') ∧
      Merges true v m' P' ∧ Skips compare save P P' := by
  obtain ⟨d, hd⟩ : ∃ d, d = P.flatten.length := ⟨_, rfl⟩
  induction d using Nat.strongRecOn generalizing m P top rest with
  | _ d ih =>
    obtain ⟨m₁, P₁, hm₁, hM, ha⟩ := another_spec hc h hr ht
    have hlen := ha.perm.length_eq
    rw [List.length_cons] at hlen
    have hrun : ∀ n, bypassRepeats compare true v save (n + 1) m =
        match m₁.tp with
        | [] => some m₁
        | top :: _ =>
          if true ∧ compare top.rp save = 0 then bypassRepeats compare true v save n m₁
          else some m₁ := by
      intro n
      rw [bypassRepeats, hm₁, Option.bind_some]
    cases ht₁ : m₁.tp with
    | nil =>
      refine ⟨m₁, P₁, fun n hn => ?_, hM, .stop ha he fun z hz => ?_⟩
      · obtain ⟨n, rfl⟩ : ∃ k, n = k + 1 := ⟨n - 1, by omega⟩
        rw [hrun, ht₁]
      · rw [hM.runs, ht₁] at hz
        cases hz
    | cons top₁ rest₁ =>
      by_cases h0 : compare top₁.rp save = 0
      · obtain ⟨m', P', hm', hM', hs⟩ :=
          ih P₁.flatten.length (by omega) hM (ha.ranked hr) ht₁ h0 rfl
        refine ⟨m', P', fun n hn => ?_, hM', .more ha he hs⟩
        obtain ⟨n, rfl⟩ : ∃ k, n = k + 1 := ⟨n - 1, by omega⟩
        rw [hrun, ht₁]
        dsimp only
        rw [if_pos ⟨rfl, h0⟩, hm' n (by omega)]
      · refine ⟨m₁, P₁, fun n hn => ?_, hM, .stop ha he fun z hz => ?_⟩
        · obtain ⟨n, rfl⟩ : ∃ k, n = k + 1 := ⟨n - 1, by omega⟩
          rw [hrun, ht₁]
          exact if_neg fun hh => h0 hh.2
        · rw [hM.runs, ht₁] at hz
          rw [← Option.some.inj hz]
          exact h0

/-- What is written is the merge of the blocks, one of each class of equals with -u. -/
theorem mergeLoop_spec (hc : TotalPreorder compare) (h : Merges uflg v m P)
    (hr : Ranked compare P) : ∃ out s, (∀ n > P.flatten.length,
      mergeLoop compare uflg v n m = some (out, s)) ∧
        if uflg then Uniqued compare P out else Merged compare P out := by
  obtain ⟨d, hd⟩ : ∃ d, d = P.flatten.length := ⟨_, rfl⟩
  induction d using Nat.strongRecOn generalizing m P with
  | _ d ih =>
    cases ht : m.tp with
    | nil =>
      have hP : P = [] := by rw [h.runs, ht]; rfl
      refine ⟨[], m.s, fun n hn => ?_, ?_⟩
      · obtain ⟨n, rfl⟩ : ∃ k, n = k + 1 := ⟨n - 1, by omega⟩
        rw [mergeLoop, ht]
      · rw [hP]
        cases uflg with
        | true => exact .nil
        | false => exact .nil
    | cons top rest =>
      have hfirst : first P = some top.rp := by rw [h.runs, ht]; rfl
      have hstep : ∃ m' P', (∀ n ≥ P.flatten.length,
          bypassRepeats compare uflg v top.rp n m = some m') ∧ Merges uflg v m' P' ∧
            P'.flatten.length < P.flatten.length ∧
              if uflg then Skips compare top.rp P P' else Advance compare P top.rp P' := by
        cases uflg with
        | true =>
          obtain ⟨m', P', hm', hM, hs⟩ := bypassRepeats_spec hc h hr ht (hc.refl top.rp)
          obtain ⟨y, -, hsub⟩ := hs.subperm
          exact ⟨m', P', hm', hM, hsub.length_le, hs⟩
        | false =>
          obtain ⟨m', P', hm', hM, ha⟩ := another_spec hc h hr ht
          have hlen := ha.perm.length_eq
          rw [List.length_cons] at hlen
          refine ⟨m', P', fun n hn => ?_, hM, by omega, ha⟩
          obtain ⟨n, rfl⟩ : ∃ k, n = k + 1 := ⟨n - 1, by omega⟩
          rw [bypassRepeats, hm', Option.bind_some]
          cases m'.tp with
          | nil => rfl
          | cons top₁ rest₁ => exact if_neg fun hh => Bool.false_ne_true hh.1
      obtain ⟨m', P', hm', hM, hlt, hs⟩ := hstep
      have hr' : Ranked compare P' := by
        cases uflg with
        | true => exact Skips.ranked hs hr
        | false => exact Advance.ranked hs hr
      obtain ⟨out, s, hout, hP'⟩ := ih P'.flatten.length (hd ▸ hlt) hM hr' rfl
      refine ⟨top.rp :: out, s, fun n hn => ?_, ?_⟩
      · obtain ⟨n, rfl⟩ : ∃ k, n = k + 1 := ⟨n - 1, by omega⟩
        rw [mergeLoop, ht]
        dsimp only
        rw [hm' n (by omega), Option.bind_some, hout n (by omega)]
        rfl
      · cases uflg with
        | true => exact .cons hfirst hs hP'
        | false => exact .cons hs hP'

end merge

/-! The blocks. -/

section blocks
variable {uflg : Bool} {v v' w v₀ : Nat → Line} {a b c i n : Nat} {R : List (List Line)}

theorem below_congr (uflg : Bool) {n cur : Nat}
    (h : ∀ k, cur ≤ k + n → k < cur → v k = w k) (hn : n ≤ cur) :
    below uflg v n cur = below uflg w n cur := by
  induction n generalizing cur with
  | zero => rfl
  | succ n ih =>
    rw [below, below, h (cur - 1) (by omega) (by omega),
      ih (fun k hk hkc => h k (by omega) (by omega)) (by omega)]

theorem below_false (w : Nat → Line) (n cur : Nat) :
    below false w (n + 1) cur = w (cur - 1) :: below false w n (cur - 1) := rfl

/-- Without a look at marks all lines are got. -/
theorem below_perm (w : Nat → Line) (n cur : Nat) (hn : n ≤ cur) :
    (below false w n cur).Perm ((List.range' (cur - n) n).map w) := by
  induction n generalizing cur with
  | zero => exact .refl _
  | succ n ih =>
    have hrest := ih (cur - 1) (by omega)
    rw [show cur - 1 - n = cur - (n + 1) by omega] at hrest
    rw [below_false, List.range'_concat, Nat.one_mul,
      List.map_append, List.map_singleton, show cur - (n + 1) + n = cur - 1 by omega]
    exact (hrest.cons _).trans (List.perm_append_singleton _ _).symm

theorem below_sorted (hc : TotalPreorder compare) (hs : Sorted compare w b c) {n cur : Nat}
    (hn : b + n ≤ cur) (hcur : cur < c) :
    (w cur :: below false w n cur).Pairwise fun x y => 0 ≤ compare x y := by
  induction n generalizing cur with
  | zero => exact List.pairwise_singleton _ _
  | succ n ih =>
    have hrest := @ih (cur - 1) (by omega) (by omega)
    rw [below_false]
    refine List.pairwise_cons.mpr ⟨fun y hy => ?_, hrest⟩
    have hstep : 0 ≤ compare (w cur) (w (cur - 1)) := by
      have hle := hs (cur - 1) cur (by omega) (by omega) hcur
      have hsw := hc.swap (w cur) (w (cur - 1))
      omega
    cases List.mem_cons.mp hy with
    | inl he => exact he ▸ hstep
    | inr hy => exact ge_trans hc hstep ((List.pairwise_cons.mp hrest).1 y hy)

/-- The marked lines are left out, and each is equal to one that is not. -/
theorem below_marked (hc : TotalPreorder compare) (n cur : Nat) (hn : b + n ≤ cur) (hcur : cur < c)
    (hv : ∀ k, b ≤ k → k < c → v k = marked compare uflg b c w k ∧ isNul (w k) = false) :
    (below uflg v n cur).Sublist (below false w n cur) ∧
      (uflg = false → below uflg v n cur = below false w n cur) ∧
        ∀ k, cur ≤ k + n → k ≤ cur → ∃ z ∈ w cur :: below uflg v n cur, compare (w k) z = 0 := by
  induction n generalizing cur with
  | zero =>
    refine ⟨List.Sublist.refl _, fun _ => rfl, fun k hk hkc => ⟨w cur, List.mem_cons_self, ?_⟩⟩
    rw [show k = cur by omega]
    exact hc.refl _
  | succ n ih =>
    obtain ⟨hsub, heq, hcov⟩ := @ih (cur - 1) (by omega) (by omega)
    obtain ⟨hvk, hnul⟩ := hv (cur - 1) (by omega) (by omega)
    rw [below_false, below]
    by_cases hm : uflg ∧ compare (w (cur - 1)) (w cur) = 0
    · have hclob : v (cur - 1) = clobber (w (cur - 1)) := by
        rw [hvk, marked, show cur - 1 + 1 = cur by omega]
        exact if_pos ⟨hm.1, by omega, hcur, hm.2⟩
      rw [if_pos ⟨hm.1, by rw [hclob]; rfl⟩]
      refine ⟨hsub.cons _, fun hf => absurd (hf ▸ hm.1) Bool.false_ne_true, fun k hk hkc => ?_⟩
      by_cases hkc' : k = cur
      · exact ⟨w cur, List.mem_cons_self, by rw [hkc']; exact hc.refl _⟩
      · obtain ⟨z, hz, hez⟩ := hcov k (by omega) (by omega)
        cases List.mem_cons.mp hz with
        | inl he =>
          subst he
          have hcg := (hc.congr (x := w k) (y := w (cur - 1)) (z := w cur) hm.2).2
          exact ⟨w cur, List.mem_cons_self, hcg.mp hez⟩
        | inr hz => exact ⟨z, List.mem_cons_of_mem _ hz, hez⟩
    · have hsame : v (cur - 1) = w (cur - 1) := by
        rw [hvk, marked, show cur - 1 + 1 = cur by omega]
        exact if_neg fun hh => hm ⟨hh.1, hh.2.2.2⟩
      rw [hsame, if_neg fun hh => Bool.false_ne_true (hnul ▸ hh.2)]
      refine ⟨hsub.cons_cons _, fun hf => by rw [heq hf], fun k hk hkc => ?_⟩
      by_cases hkc' : k = cur
      · exact ⟨w cur, List.mem_cons_self, by rw [hkc']; exact hc.refl _⟩
      · obtain ⟨z, hz, hez⟩ := hcov k (by omega) (by omega)
        exact ⟨z, List.mem_cons_of_mem _ hz, hez⟩

/- The runs `R` have the lines from `a` on, `i` of them; with -u at least one of each class. -/
structure Grouped (compare : Line → Line → Int) (uflg : Bool) (v : Nat → Line) (a i : Nat)
    (R : List (List Line)) : Prop where
  sorted : ∀ s ∈ R, s ≠ [] ∧ s.Pairwise fun x y => 0 ≤ compare x y
  subperm : List.Subperm R.flatten ((List.range' a i).map v)
  perm : uflg = false → R.flatten.Perm ((List.range' a i).map v)
  covers : ∀ k, a ≤ k → k < a + i → ∃ z ∈ R.flatten, compare (v k) z = 0

/-- A block after qksort, from its last line to its first. -/
theorem Ordered.grouped (hc : TotalPreorder compare) (h : Ordered compare uflg a b v v' w)
    (hlt : a < b) (hnul : ∀ k, a ≤ k → k < b → isNul (v k) = false) :
    Grouped compare uflg v a (b - a) [v' (b - 1) :: below uflg v' (b - a - 1) (b - 1)] := by
  have hwnul : ∀ k, a ≤ k → k < b → isNul (w k) = false :=
    h.shuffles.forall (P := fun s => isNul s = false) hnul
  have hlast : v' (b - 1) = w (b - 1) := by
    rw [h.lines (b - 1) (by omega) (by omega), marked, if_neg (by omega)]
  obtain ⟨hsub, heq, hcov⟩ := below_marked hc (b - a - 1) (b - 1) (by omega) (by omega)
    fun k hk hkb => ⟨h.lines k hk hkb, hwnul k hk hkb⟩
  have hfull : (w (b - 1) :: below false w (b - a - 1) (b - 1)).Perm
      ((List.range' a (b - a)).map w) := by
    have hp := below_perm w (b - a) b (by omega)
    obtain ⟨k, hk⟩ : ∃ k, b - a = k + 1 := ⟨b - a - 1, by omega⟩
    rw [hk, below_false, ← hk,
      show b - (b - a) = a by omega, show k = b - a - 1 by omega] at hp
    exact hp
  have hall : ((List.range' a (b - a)).map w).Perm ((List.range' a (b - a)).map v) := by
    have hp := (h.shuffles.mono (Nat.zero_le a) (Nat.le_refl b)).perm
    have hsplit : List.range b = List.range a ++ List.range' a (b - a) := by
      rw [List.range_eq_range', List.range_eq_range', show b = a + (b - a) by omega,
        ← List.range'_append_1, Nat.zero_add, Nat.add_sub_cancel_left]
    have hfront : (List.range a).map w = (List.range a).map v :=
      List.map_congr_left fun k hk => h.shuffles.outside (.inl (List.mem_range.mp hk))
    rw [hsplit, List.map_append, List.map_append, hfront] at hp
    exact (List.perm_append_left_iff _).mp hp
  rw [hlast]
  refine ⟨fun s hs => ?_, ?_, fun hf => ?_, fun k hk hkb => ?_⟩
  · rw [List.mem_singleton.mp hs]
    exact ⟨List.cons_ne_nil _ _,
      (below_sorted hc h.sorted (by omega) (by omega)).sublist (hsub.cons_cons _)⟩
  · rw [List.flatten_singleton]
    exact (hsub.cons_cons (w (b - 1))).subperm.trans (hfull.trans hall).subperm
  · rw [List.flatten_singleton, heq hf]
    exact hfull.trans hall
  · rw [List.flatten_singleton]
    have hin : v k ∈ (List.range' a (b - a)).map w :=
      hall.mem_iff.mpr (List.mem_map_of_mem (List.mem_range'_1.mpr ⟨hk, hkb⟩))
    obtain ⟨m, hm, hmk⟩ := List.mem_map.mp hin
    obtain ⟨ham, hmb⟩ := List.mem_range'_1.mp hm
    rw [← hmk]
    exact hcov m (by omega) (by omega)

/-- One block after the other. -/
theorem Grouped.cons {s : List Line} (h : Grouped compare uflg v a c [s])
    (h' : Grouped compare uflg w (a + c) i R) (hw : ∀ k, a + c ≤ k → w k = v k) :
    Grouped compare uflg v a (c + i) (s :: R) := by
  have hlist : (List.range' (a + c) i).map w = (List.range' (a + c) i).map v :=
    List.map_congr_left fun k hk => hw k (List.mem_range'_1.mp hk).1
  have hsplit : (List.range' a (c + i)).map v =
      (List.range' a c).map v ++ (List.range' (a + c) i).map v := by
    rw [← List.range'_append_1, List.map_append]
  have hflat : (s :: R).flatten = [s].flatten ++ R.flatten := by simp
  refine ⟨fun t ht => ?_, ?_, fun hf => ?_, fun k hk hkb => ?_⟩
  · cases List.mem_cons.mp ht with
    | inl he => exact h.sorted t (he ▸ List.mem_cons_self)
    | inr ht => exact h'.sorted t ht
  · rw [hflat, hsplit, ← hlist]
    exact h.subperm.append h'.subperm
  · rw [hflat, hsplit, ← hlist]
    exact (h.perm hf).append (h'.perm hf)
  · rw [hflat]
    by_cases hlt : k < a + c
    · obtain ⟨z, hz, he⟩ := h.covers k hk hlt
      exact ⟨z, List.mem_append_left _ hz, he⟩
    · obtain ⟨z, hz, he⟩ := h'.covers k (by omega) (by omega)
      rw [hw k (by omega)] at he
      exact ⟨z, List.mem_append_right _ hz, he⟩

/- The runs of `n` blocks from `j` on. -/
def blockRuns (uflg : Bool) (blk : (Nat → Nat) × (Nat → Nat)) (v : Nat → Line) (j n : Nat) :
    List (List Line) :=
  (List.range' j n).map fun t => v (blk.2 t - 1) :: below uflg v (blk.1 t - 1) (blk.2 t - 1)

theorem subgroups_spec (hc : TotalPreorder compare) (uflg : Bool) (n j a i : Nat)
    (blk : (Nat → Nat) × (Nat → Nat)) (v : Nat → Line) (hi : n ≤ i) (hz : n = 0 → i = 0)
    (hnul : ∀ k, a ≤ k → k < a + i → isNul (v k) = false) :
    ∃ blk' v', (∃ N, ∀ fuel ≥ N, subgroups compare uflg fuel n j a i blk v = some (blk', v')) ∧
      (∀ k < a, v' k = v k) ∧ (∀ t < j, blk'.1 t = blk.1 t ∧ blk'.2 t = blk.2 t) ∧
        (∀ t, j ≤ t → t < j + n → 1 ≤ blk'.1 t) ∧
          Grouped compare uflg v a i (blockRuns uflg blk' v' j n) := by
  induction n generalizing j a i blk v with
  | zero =>
    obtain rfl : i = 0 := hz rfl
    exact ⟨blk, v, ⟨0, fun _ _ => rfl⟩, fun _ _ => rfl, fun _ _ => ⟨rfl, rfl⟩,
      fun t _ _ => by omega,
      nofun, List.Subperm.refl _, fun _ => .refl _, fun k _ _ => by omega⟩
  | succ n ih =>
    obtain ⟨cnt, hcnt⟩ : ∃ cnt, cnt = i / (n + 1) := ⟨_, rfl⟩
    have hpos : 1 ≤ cnt := hcnt ▸ Nat.div_pos hi (Nat.succ_pos n)
    have hmul : cnt * (n + 1) ≤ i := hcnt ▸ Nat.div_mul_le_self i (n + 1)
    have hle : cnt + n ≤ i := by
      have hn : n ≤ cnt * n := Nat.le_mul_of_pos_left n hpos
      rw [Nat.mul_succ] at hmul
      omega
    obtain ⟨v₁, w, ⟨N₁, hrun₁⟩, ho⟩ := qksort_ordered hc uflg
      (show a ≤ a + cnt by omega) v
    have hsame : ∀ k, a + cnt ≤ k → v₁ k = v k := fun k hk => ho.outside k (.inr hk)
    obtain ⟨blk', v', ⟨N, hrun⟩, hv', hblk', hcnt', hG⟩ := ih (j + 1) (a + cnt) (i - cnt)
      (Function.update blk.1 j cnt, Function.update blk.2 j (a + cnt)) v₁ (by omega)
      (fun hn => by subst hn; rw [hcnt, Nat.div_one]; omega)
      (fun k hk hkl => by rw [hsame k hk]; exact hnul k (by omega) (by omega))
    obtain ⟨hj₁, hj₂⟩ := hblk' j (Nat.lt_succ_self j)
    dsimp only at hj₁ hj₂
    rw [Function.update_self] at hj₁ hj₂
    refine ⟨blk', v', ⟨N₁ + N, fun fuel hf => ?_⟩, fun k hk => ?_, fun t ht => ?_,
      fun t ht htl => ?_, ?_⟩
    · rw [subgroups, ← hcnt, hrun₁ fuel (by omega), Option.bind_some, hrun fuel (by omega)]
    · rw [hv' k (by omega), ho.outside k (.inl hk)]
    · obtain ⟨h₁, h₂⟩ := hblk' t (by omega)
      dsimp only at h₁ h₂
      rw [Function.update_of_ne (by omega)] at h₁ h₂
      exact ⟨h₁, h₂⟩
    · by_cases htj : t = j
      · rw [htj, hj₁]
        exact hpos
      · exact hcnt' t (by omega) (by omega)
    · have hblock := ho.grouped hc (by omega) fun k hk hkb => hnul k hk (by omega)
      have hread : v₁ (a + cnt - 1) :: below uflg v₁ (a + cnt - a - 1) (a + cnt - 1) =
          v' (blk'.2 j - 1) :: below uflg v' (blk'.1 j - 1) (blk'.2 j - 1) := by
        rw [hj₁, hj₂, hv' (a + cnt - 1) (by omega), Nat.add_sub_cancel_left]
        exact congrArg _ (below_congr uflg (fun k _ hk => (hv' k (by omega)).symm) (by omega))
      rw [hread, Nat.add_sub_cancel_left] at hblock
      have hall := hblock.cons hG hsame
      rw [show cnt + (i - cnt) = i by omega] at hall
      rw [blockRuns, List.range'_succ, List.map_cons]
      exact hall

/-- The tree has the runs of all blocks, in the order of their heads. -/
theorem grow_spec (hc : TotalPreorder compare) (uflg : Bool) (v : Nat → Line)
    (blk : (Nat → Nat) × (Nat → Nat)) (j n : Nat) (m : Load) (P : List (List Line))
    (hM : Merges uflg v m P) (hr : Ranked compare P)
    (hP : P.Perm (blockRuns uflg blk v j n)) (hown : ∀ e ∈ m.tp, j ≤ e.rn)
    (hcnt : m.blkcnt = blk.1) (hcur : ∀ t < j, m.blkcur t = blk.2 t) (hpos : ∀ t < j, 1 ≤ blk.1 t)
    (hruns : ∀ s ∈ blockRuns uflg blk v 0 j, s.Pairwise fun x y => 0 ≤ compare x y) :
    ∃ m' P', grow compare v j m = some m' ∧ Merges uflg v m' P' ∧ Ranked compare P' ∧
      P'.Perm (blockRuns uflg blk v 0 (j + n)) := by
  induction j generalizing m P n with
  | zero => exact ⟨m, P, rfl, hM, hr, by rwa [Nat.zero_add]⟩
  | succ j ih =>
    obtain ⟨l₁, l₂, s', hsplit, hins, hfront, hback⟩ :=
      insert_spec hc (hM.inOrder hr) m.s ⟨v (m.blkcur j - 1), j⟩
    obtain ⟨hPruns, hnd, hsome⟩ := hM
    have hrun : ∀ t < j, t ∈ List.range' 0 (j + 1) := fun t ht =>
      List.mem_range'_1.mpr ⟨Nat.zero_le t, by omega⟩
    have hnot : j ∉ m.tp.map Btree.rn := by
      intro hmem
      obtain ⟨e, he, hej⟩ := List.mem_map.mp hmem
      have hle := hown e he
      omega
    have hperm : (l₁ ++ (⟨v (m.blkcur j - 1), j⟩ : Btree) :: l₂).Perm
        (⟨v (m.blkcur j - 1), j⟩ :: m.tp) := by
      rw [hsplit]
      exact List.perm_middle
    have hcurj : m.blkcur j = blk.2 j := hcur j (Nat.lt_succ_self j)
    have hjrun : v (blk.2 j - 1) :: below uflg v (blk.1 j - 1) (blk.2 j - 1) ∈
        blockRuns uflg blk v 0 (j + 1) := by
      rw [blockRuns]
      exact List.mem_map_of_mem
        (f := fun t => v (blk.2 t - 1) :: below uflg v (blk.1 t - 1) (blk.2 t - 1))
        (List.mem_range'_1.mpr ⟨Nat.zero_le j, by omega⟩)
    obtain ⟨A, hA⟩ : ∃ A, A = l₁.map fun e =>
      e.rp :: below uflg v (m.blkcnt e.rn - 1) (m.blkcur e.rn) := ⟨_, rfl⟩
    obtain ⟨B, hB⟩ : ∃ B, B = l₂.map fun e =>
      e.rp :: below uflg v (m.blkcnt e.rn - 1) (m.blkcur e.rn) := ⟨_, rfl⟩
    have hAB : P = A ++ B := by rw [hPruns, hsplit, List.map_append, hA, hB]
    obtain ⟨R, hR⟩ : ∃ R, R = v (blk.2 j - 1) :: below uflg v (blk.1 j - 1) (blk.2 j - 1) :=
      ⟨_, rfl⟩
    have hM' : Merges uflg v ⟨m.blkcnt, Function.update m.blkcur j (m.blkcur j - 1),
        l₁ ++ ⟨v (m.blkcur j - 1), j⟩ :: l₂, s'⟩ (A ++ R :: B) := by
      refine ⟨?_, ?_, fun e he => ?_⟩
      · rw [hsplit, List.map_append, List.mem_append, not_or] at hnot
        have hcong : ∀ t : List Btree, j ∉ t.map Btree.rn →
            (t.map fun e => e.rp :: below uflg v (m.blkcnt e.rn - 1)
              (Function.update m.blkcur j (m.blkcur j - 1) e.rn)) =
            t.map fun e => e.rp :: below uflg v (m.blkcnt e.rn - 1) (m.blkcur e.rn) := by
          intro t ht
          refine List.map_congr_left fun e he => ?_
          have hne : e.rn ≠ j := fun hei => ht (hei ▸ List.mem_map_of_mem he)
          rw [Function.update_of_ne hne]
        dsimp only
        rw [List.map_append, List.map_cons, hcong l₁ hnot.1, hcong l₂ hnot.2, ← hA, ← hB]
        dsimp only
        rw [Function.update_self, hcurj, hcnt, ← hR]
      · exact ((hperm.map Btree.rn).nodup_iff).mpr (List.nodup_cons.mpr ⟨hnot, hnd⟩)
      · dsimp only
        cases List.mem_cons.mp (hperm.mem_iff.mp he) with
        | inl hei =>
          rw [hei, hcnt]
          exact hpos j (Nat.lt_succ_self j)
        | inr he => exact hsome e he
    have hr' : Ranked compare (A ++ R :: B) := by
      rw [hR]
      refine Ranked.place (hAB ▸ hr) (hruns _ hjrun) (fun s hs z hz => ?_) fun s hs z hz => ?_
      · rw [hA] at hs
        obtain ⟨e, he, rfl⟩ := List.mem_map.mp hs
        rw [← Option.some.inj hz, ← hcurj]
        exact hfront e he
      · rw [hB] at hs
        obtain ⟨e, he, rfl⟩ := List.mem_map.mp hs
        rw [← Option.some.inj hz, ← hcurj]
        exact hback e he
    have hP' : (A ++ R :: B).Perm (blockRuns uflg blk v j (n + 1)) := by
      rw [blockRuns, List.range'_succ, List.map_cons, ← hR]
      exact List.perm_middle.trans ((hAB ▸ hP).cons R)
    obtain ⟨m', P', hm', hres, hres', hPP⟩ := ih (n + 1) _ _ hM' hr' hP'
      (fun e he => by
        cases List.mem_cons.mp (hperm.mem_iff.mp he) with
        | inl hei => rw [hei]
        | inr he => exact Nat.le_of_succ_le (hown e he))
      hcnt
      (fun t ht => by
        dsimp only
        rw [Function.update_of_ne (by omega)]
        exact hcur t (by omega))
      (fun t ht => hpos t (by omega))
      (fun s hs => hruns s (by
        obtain ⟨t, ht, rfl⟩ := List.mem_map.mp hs
        have htj := (List.mem_range'_1.mp ht).2
        exact List.mem_map_of_mem
          (f := fun t => v (blk.2 t - 1) :: below uflg v (blk.1 t - 1) (blk.2 t - 1))
          (List.mem_range'_1.mpr ⟨Nat.zero_le t, by omega⟩)))
    refine ⟨m', P', ?_, hres, hres', ?_⟩
    · rw [grow]
      dsimp only
      rw [hins, Option.bind_some]
      exact hm'
    · rw [show j + 1 + n = j + (n + 1) by omega]
      exact hPP

/-- msort writes the lines in order, whatever insert has kept; with -u one of each class of lines
that compare equal. -/
theorem msort_sorts (hc : TotalPreorder compare) (uflg : Bool) (lines : List Line) (s : Stats)
    (hnul : ∀ x ∈ lines, isNul x = false) :
    ∃ out s', (∃ N, ∀ fuel ≥ N, msort compare uflg fuel lines s = some (out, s')) ∧
      if uflg then (out.Pairwise fun x y => 0 < compare x y) ∧ List.Subperm out lines ∧
        ∀ x ∈ lines, ∃ y ∈ out, compare x y = 0
      else (out.Pairwise fun x y => 0 ≤ compare x y) ∧ out.Perm lines := by
  by_cases h1 : lines.length < 1
  · obtain rfl : lines = [] := List.eq_nil_of_length_eq_zero (by omega)
    refine ⟨[], s, ⟨0, fun _ _ => rfl⟩, ?_⟩
    cases uflg with
    | false => exact ⟨.nil, .refl _⟩
    | true => exact ⟨.nil, .refl _, nofun⟩
  by_cases h2 : lines.length = 1
  · obtain ⟨x, rfl⟩ := List.length_eq_one_iff.mp h2
    refine ⟨[x], s, ⟨0, fun _ _ => rfl⟩, ?_⟩
    cases uflg with
    | false => exact ⟨List.pairwise_singleton _ _, .refl _⟩
    | true =>
      refine ⟨List.pairwise_singleton _ _, .refl _, fun y hy => ⟨x, List.mem_cons_self, ?_⟩⟩
      rw [List.mem_singleton.mp hy]
      exact hc.refl x
  obtain ⟨n, hn⟩ : ∃ n, n = if lines.length ≥ TREEZ then TREEZ else lines.length := ⟨_, rfl⟩
  have hnle : n ≤ lines.length ∧ 1 ≤ n := by
    rw [hn]
    have ht : TREEZ = 32 := rfl
    split <;> omega
  obtain ⟨v, hv⟩ : ∃ v : Nat → Line, v = fun k => lines.getD k [] := ⟨_, rfl⟩
  have hat : ∀ k (hk : k < lines.length), v k = lines[k] := by
    intro k hk
    rw [hv]
    dsimp only
    rw [List.getD_eq_getElem?_getD, List.getElem?_eq_getElem hk, Option.getD_some]
  have hlist : (List.range' 0 lines.length).map v = lines := by
    rw [← List.range_eq_range']
    refine List.ext_getElem (by simp) fun k hk hk' => ?_
    rw [List.getElem_map, List.getElem_range, hat k hk']
  have hmem : ∀ k < lines.length, v k ∈ lines := fun k hk =>
    hat k hk ▸ List.getElem_mem hk
  obtain ⟨blk, v', ⟨N, hrun⟩, -, -, hcnt, hG⟩ := subgroups_spec hc uflg n 0 0 lines.length
    (fun _ => 0, fun _ => 0) v hnle.1 (fun h => by omega)
    (fun k _ hk => hnul _ (hmem k (by omega)))
  obtain ⟨m, P, hm, hM, hr, hP⟩ := grow_spec hc uflg v' blk n 0
    ⟨blk.1, blk.2, [], s⟩ [] ⟨rfl, List.nodup_nil, nofun⟩ ⟨nofun, nofun, .nil⟩ (.refl _) nofun rfl
    (fun _ _ => rfl) (fun t ht => hcnt t (Nat.zero_le t) (by omega))
    (fun t ht => (hG.sorted t ht).2)
  obtain ⟨out, s', hout, hres⟩ := mergeLoop_spec (m := { m with s := ⟨0, 0, cmpsave n⟩ }) hc
    ⟨hM.runs, hM.own, hM.some⟩ hr
  rw [Nat.add_zero] at hP
  refine ⟨out, s', ⟨N + P.flatten.length + 1, fun fuel hf => ?_⟩, ?_⟩
  · rw [msort]
    dsimp only
    rw [if_neg h1, if_neg h2, ← hn, ← hv, hrun fuel (by omega), Option.bind_some, hm,
      Option.bind_some]
    exact hout fuel (by omega)
  · cases uflg with
    | false =>
      have hperm := (hP.flatten).trans (hG.perm rfl)
      rw [hlist] at hperm
      exact ⟨Merged.sorted hc hres hr, (Merged.perm hres).trans hperm⟩
    | true =>
      have hsub := hP.flatten.subperm.trans hG.subperm
      rw [hlist] at hsub
      refine ⟨Uniqued.sorted hc hres hr, (Uniqued.subperm hres).trans hsub, fun x hx => ?_⟩
      obtain ⟨k, hk, rfl⟩ := List.mem_iff_getElem.mp hx
      obtain ⟨z, hz, he⟩ := hG.covers k (Nat.zero_le k) (by omega)
      obtain ⟨y, hy, he'⟩ := Uniqued.covers hres (hP.flatten.mem_iff.mpr hz)
      rw [hat k hk] at he
      exact ⟨y, hy, ((hc.congr (x := lines[k]) he').2).mp he⟩

/- The order of the first bytes. -/
def firstByte (x y : Line) : Int := (x.headD 0).toNat - (y.headD 0).toNat

/-- Three lines in two classes, with -u. -/
theorem msort_sorts_first_bytes :
    ∃ out s', (∃ N, ∀ fuel ≥ N,
        msort firstByte true fuel [[98], [97, 10], [98, 10]] ⟨0, 0, 0⟩ = some (out, s')) ∧
      (out.Pairwise fun x y => 0 < firstByte x y) ∧
        List.Subperm out [[98], [97, 10], [98, 10]] ∧
          ∀ x ∈ [[98], [97, 10], [98, 10]], ∃ y ∈ out, firstByte x y = 0 :=
  msort_sorts ⟨fun x y => by unfold firstByte; omega, fun x y z => by unfold firstByte; omega⟩ true
    [[98], [97, 10], [98, 10]] ⟨0, 0, 0⟩ (by decide)

end blocks
end Svr32.Sort
