import Svr32.Swapalloc.Books
import Mathlib.Tactic.Ring
import Svr32.Lib.System

/-! swalloc, swpinc, swfree1, swapadd and swapdel keep the counts. -/
namespace Svr32.Swapalloc
open Svr32.Lib
variable {D : Type} {s t : Swap D} {i smi : Smi} {u : List Nat}
  {p pg n : Nat} {d d' : D} {ds : List D} {blk : Int} {c : Call D}

/- No page is waiting to be set up. -/
def Swap.Even [Fintype D] (s : Swap D) : Prop := Books (fun _ => 0) s.swaptab s.dbd

/- Calls that wait, of one kind or the other. -/
def Swap.waiting (s : Swap D) : List (Call D) := s.calls ++ s.swapwold

theorem setrun_waiting (s : Swap D) : (setrun s).waiting.Perm s.waiting := by
  unfold setrun
  split
  · exact .refl _
  · rename_i c cs h
    simp only [Swap.waiting, h, List.cons_append]
    exact List.perm_middle.symm

theorem setrun_tab (s : Swap D) :
    (setrun s).swaptab = s.swaptab ∧ (setrun s).dbd = s.dbd := by
  unfold setrun
  split <;> exact ⟨rfl, rfl⟩

theorem wakeFirst_spec (x : Int) (s : Swap D) : (wakeFirst x s).swaptab = s.swaptab ∧
    (wakeFirst x s).dbd = s.dbd ∧ (wakeFirst x s).waiting.Perm s.waiting := by
  unfold wakeFirst
  split
  · exact ⟨rfl, rfl, .refl _⟩
  · split
    · exact ⟨(setrun_tab s).1, (setrun_tab s).2, setrun_waiting s⟩
    · exact ⟨rfl, rfl, .refl _⟩

theorem setUse_eq {b : Dbd} {st : Swpt} (hu : st.stUcnt = some u) (hpg : pgnbr b st = p) :
    setUse b n st = { st with stUcnt := some (u.set p n) } := by
  simp [setUse, setUcnt, hu, hpg]

theorem swfree1_eq {b : Dbd} (hn : swpuse b s = some n) (hpos : 0 < n) :
    ∃ t, swfree1 b s = some (n - 1, t) ∧ t.dbd = s.dbd ∧ t.waiting.Perm s.waiting ∧
      t.swaptab = Function.update s.swaptab b.dbdSwpi
        { setUse b (n - 1) (s.swaptab b.dbdSwpi) with
          stNfpgs := (s.swaptab b.dbdSwpi).stNfpgs + if n = 1 then 1 else 0 } := by
  have hne : n ≠ 0 := by omega
  simp only [swfree1, hn, Option.bind_eq_bind, Option.bind_some, if_neg hne]
  by_cases hone : n = 1
  · subst hone
    exact ⟨_, rfl, (wakeFirst_spec _ _).2.1, (wakeFirst_spec _ _).2.2, (wakeFirst_spec _ _).1⟩
  · have h1 : ¬ n - 1 = 0 := by omega
    rw [if_neg h1, if_neg hone]
    refine ⟨_, rfl, rfl, .refl _, ?_⟩
    simp only [Int.add_zero]
    rfl

theorem Free.tail {b n : Nat} (h : Free u b (n + 1)) : Free (u.set b 1) (b + 1) n :=
  fun i hi => by
    rw [List.getElem?_set_ne (by omega), Nat.add_assoc, Nat.add_comm 1 i]
    exact h (i + 1) (by omega)

theorem setLoop_cons [DecidableEq D] (smi : Smi) (d : D) (ds : List D) (blk : Int) (pg : Nat) (s : Swap D) :
    setLoop smi (d :: ds) blk pg s = setLoop smi ds (blk + 4) (pg + 1) { s with
      swaptab := Function.update s.swaptab smi (setUcnt (·.set pg 1) (s.swaptab smi))
      dbd := Function.update s.dbd d ⟨.swap, smi, toBlkno blk⟩ } := rfl

theorem setrunAll_waiting (s : Swap D) : (setrunAll s).waiting.Perm s.waiting := by
  simp only [setrunAll, Swap.waiting, List.append_nil]
  exact List.perm_append_comm

theorem clearDbd_ne [DecidableEq D] {e : D} (h : e ≠ d) : (clearDbd d t).dbd e = t.dbd e :=
  Function.update_of_ne h _ _

variable [Fintype D]

theorem swpuse_eq (h : s.Even) (hd : (s.dbd d).dbdType = .swap) :
    ∃ u, ∃ p n : Nat, (s.swaptab (s.dbd d).dbdSwpi).stUcnt = some u ∧ u[p]? = some n ∧ 0 < n ∧
      page s.swaptab (s.dbd d) = some ((s.dbd d).dbdSwpi, (p : Int)) ∧
      ((s.dbd d).dbdBlkno : Int) = (s.swaptab (s.dbd d).dbdSwpi).stSwplo + 4 * p ∧
      swpuse (s.dbd d) s = some n := by
  obtain ⟨u, p, n, hu, hn, hpos, hpage, hblk⟩ := h.count hd
  refine ⟨u, p, n, hu, hn, hpos, hpage, hblk, ?_⟩
  rw [swpuse, hu, pgnbr_eq hblk]
  exact hn

theorem Moves.even {tab' : Smi → Swpt} (h : s.Even) (hm : Moves s.swaptab tab') :
    Books (fun _ => 0) tab' s.dbd := by
  refine Books.congr h fun i => ?_
  obtain ⟨n, hn⟩ := hm i
  rw [hn]
  exact ⟨rfl, rfl, rfl, rfl⟩

theorem Swap.Even.no_ref (h : s.Even) (hi : (s.swaptab i).stUcnt = none) (d : D)
    (hd : (s.dbd d).dbdType = .swap) : (s.dbd d).dbdSwpi ≠ i := fun he => by
  obtain ⟨u, p, hu, -⟩ := h.swap d hd
  rw [he, hi] at hu
  cases hu

/- swapadd is given blocks whose numbers fit into a descriptor. -/
def Area (lowblk : Int) (nblks : Nat) : Prop :=
  0 ≤ lowblk ∧ lowblk + 4 * (nblks >>> DPPSHFT : Nat) ≤ 2 ^ 24

theorem addLoop_free {dev npgs : Nat} {lowblk : Int} {tab : Smi → Swpt} {l : List Smi}
    {r : Option Smi} (hr : ∀ i, r = some i → (tab i).stUcnt = none)
    (h : addLoop dev lowblk npgs tab l r = .free (some smi)) : (tab smi).stUcnt = none := by
  induction l generalizing r with
  | nil =>
    cases h
    exact hr smi rfl
  | cons i l ih =>
    rw [addLoop] at h
    split at h
    · rename_i hnone
      refine ih (fun j hj => ?_) h
      cases r with
      | none =>
        cases hj
        exact Option.isNone_iff_eq_none.mp hnone
      | some k => exact hr j hj
    · split at h
      · split at h <;> cases h
      · exact ih hr h

theorem uptalloc_unused {ok : Bool} {st : Swpt} (hf : Fits st) (hn : st.stNfpgs = st.stNpgs)
    (hu : st.stUcnt = uptalloc ok st.stNpgs) : Unused st := by
  unfold uptalloc at hu
  split at hu
  · exact .inr ⟨hu, hn, hf⟩
  · exact .inl hu

/-- swapadd puts in a file without pages in use. -/
theorem swapadd_spec (h : s.Even) {dev nblks : Nat} {lowblk : Int} (ha : Area lowblk nblks)
    (open' : Option Nat) (ok : Bool) :
    (swapadd dev lowblk nblks open' ok s).2.Even ∧
    (swapadd dev lowblk nblks open' ok s).2.dbd = s.dbd ∧
    (swapadd dev lowblk nblks open' ok s).2.waiting.Perm s.waiting := by
  have hfree (smi : Smi) := @addLoop_free smi dev (nblks >>> DPPSHFT) lowblk s.swaptab
    (List.finRange MSFILES) none nofun
  cases hf : addLoop dev lowblk (nblks >>> DPPSHFT) s.swaptab (List.finRange MSFILES) none with
  | again i smi =>
    simp only [swapadd, hf]
    refine ⟨Books.congr h fun j => ?_, trivial, .refl _⟩
    by_cases hj : j = i
    · subst hj
      simp
    · simp [Function.update_of_ne hj]
  | dup =>
    simp only [swapadd, hf]
    exact ⟨h, trivial, .refl _⟩
  | free smi =>
    cases smi with
    | none =>
      simp only [swapadd, hf]
      exact ⟨h, trivial, .refl _⟩
    | some smi =>
      have hno := h.no_ref (hfree smi hf)
      cases open' with
      | some e =>
        simp only [swapadd, hf]
        exact ⟨h.replace hno (.inl rfl) rfl, trivial, .refl _⟩
      | none =>
        simp only [swapadd, hf]
        split
        · rename_i hnone
          exact ⟨h.replace hno (.inl (Option.isNone_iff_eq_none.mp hnone)) rfl, rfl, .refl _⟩
        · exact ⟨h.replace hno (uptalloc_unused ⟨ha.1, ha.2⟩ rfl rfl) rfl, rfl,
            setrunAll_waiting _⟩

variable [DecidableEq D]

/-- swfree1 finds a count, and the descriptor's page has one use less. -/
theorem swfree1_spec (h : s.Even) (hd : (s.dbd d).dbdType = .swap) :
    ∃ n t, swfree1 (s.dbd d) s = some (n, t) ∧ (clearDbd d t).Even ∧ t.dbd = s.dbd ∧
      t.waiting.Perm s.waiting := by
  obtain ⟨u, p, n, hu, hn, hpos, hpage, hblk, huse⟩ := swpuse_eq h hd
  obtain ⟨t, heq, hdbd, hwait, htab⟩ := swfree1_eq huse hpos
  refine ⟨n - 1, t, heq, ?_, hdbd, hwait⟩
  rw [setUse_eq hu (pgnbr_eq hblk)] at htab
  have hzeros := zeros_set hn (n - 1)
  have hnf := h.nfpgs _ u hu
  have heven : (clearDbd d t).Even ↔ Books (fun _ => 0) t.swaptab
      (Function.update s.dbd d { s.dbd d with dbdType := .none }) := by
    rw [Swap.Even, clearDbd, hdbd]
  rw [heven, htab]
  refine h.detach hu hn hpage rfl ?_ (fun _ _ => rfl) nofun
  · rw [if_neg (by omega)] at hzeros
    by_cases h1 : n = 1
    · subst h1
      simp only [if_true] at hzeros ⊢
      omega
    · rw [if_neg (by omega)] at hzeros
      rw [if_neg h1]
      omega

/- The descriptor `d'` becomes a copy of `d`. -/
def copyDbd (d d' : D) (s : Swap D) : Swap D :=
  { s with dbd := Function.update s.dbd d' (s.dbd d) }

/-- swpinc makes room for one more descriptor, or changes nothing. -/
theorem swpinc_spec (h : s.Even) (hd : (s.dbd d).dbdType = .swap)
    (hd' : (s.dbd d').dbdType ≠ .swap) : swpinc (s.dbd d) s = some (false, s) ∨
      ∃ t, swpinc (s.dbd d) s = some (true, t) ∧ (copyDbd d d' t).Even ∧ t.dbd = s.dbd ∧
        t.waiting = s.waiting := by
  obtain ⟨u, p, n, hu, hn, hpos, -, hblk, huse⟩ := swpuse_eq h hd
  by_cases hmax : MAXSUSE ≤ n
  · left
    simp only [swpinc, huse, Option.bind_eq_bind, Option.bind_some, if_pos hmax]
    rfl
  · right
    simp only [swpinc, huse, Option.bind_eq_bind, Option.bind_some, if_neg hmax]
    refine ⟨_, rfl, ?_, rfl, rfl⟩
    rw [setUse_eq hu (pgnbr_eq hblk)]
    have hzeros := zeros_set hn (n + 1)
    rw [if_neg (by omega), if_neg (by omega)] at hzeros
    have hnf := h.nfpgs _ u hu
    exact h.attach hu hn hd' rfl (by omega) (fun _ _ => rfl) ⟨hd, rfl, hblk⟩

/-- The main loop of swalloc sets up one page after the other. -/
theorem setLoop_spec (hu : (s.swaptab smi).stUcnt = some u) (hfree : Free u pg ds.length)
    (hnd : ds.Nodup) (hds : ∀ d ∈ ds, (s.dbd d).dbdType ≠ .swap)
    (hblk : blk = (s.swaptab smi).stSwplo + 4 * pg)
    (h : Books (fun j => if j = smi then (ds.length : Int) else 0) s.swaptab s.dbd) :
    (setLoop smi ds blk pg s).Even ∧ (setLoop smi ds blk pg s).waiting = s.waiting ∧
      ∀ d, d ∉ ds → (setLoop smi ds blk pg s).dbd d = s.dbd d := by
  induction ds generalizing s u blk pg with
  | nil =>
    refine ⟨h.congr fun j => ⟨rfl, rfl, rfl, ?_⟩, rfl, fun _ _ => rfl⟩
    rw [List.length_nil, Nat.cast_zero, ite_self]
    rfl
  | cons d ds ih =>
    obtain ⟨hdn, hnd⟩ := List.nodup_cons.mp hnd
    have hn : u[pg]? = some 0 := hfree 0 (by simp)
    have hplt := (List.getElem?_eq_some_iff.mp hn).1
    obtain ⟨hfits, hlen⟩ := h.fits smi u hu
    have hlow := hfits.low
    have hhigh := hfits.high
    have hnf := h.nfpgs smi u hu
    have hzeros := zeros_set hn 1
    simp only [if_true, List.length_cons, one_ne_zero, if_false] at hnf hzeros
    have hst : setUcnt (·.set pg 1) (s.swaptab smi) = { s.swaptab smi with
        stUcnt := some (u.set pg 1), stNfpgs := (s.swaptab smi).stNfpgs } := by
      simp [setUcnt, hu]
    have hstep : Books (fun j => if j = smi then (ds.length : Int) else 0)
        (Function.update s.swaptab smi (setUcnt (·.set pg 1) (s.swaptab smi)))
        (Function.update s.dbd d ⟨.swap, smi, toBlkno blk⟩) := by
      refine h.attach hu hn (hds d List.mem_cons_self) hst ?_ (fun j hj => ?_) ⟨rfl, rfl, ?_⟩
      · simp only [if_true, Nat.zero_add]
        omega
      · rw [if_neg hj, if_neg hj]
      · rw [← hblk]
        exact toBlkno_eq (by omega) (by omega)
    have hloose : ∀ e ∈ ds,
        (Function.update s.dbd d ⟨.swap, smi, toBlkno blk⟩ e).dbdType ≠ .swap := fun e he => by
      have hne : e ≠ d := fun h => hdn (h ▸ he)
      rw [Function.update_of_ne hne]
      exact hds e (List.mem_cons_of_mem d he)
    have hnext : blk + 4 = (Function.update s.swaptab smi
        (setUcnt (·.set pg 1) (s.swaptab smi)) smi).stSwplo + 4 * (pg + 1 : Nat) := by
      simp only [Function.update_self, hst]
      rw [hblk]
      push_cast
      ring
    have hset : (Function.update s.swaptab smi
        (setUcnt (·.set pg 1) (s.swaptab smi)) smi).stUcnt = some (u.set pg 1) := by simp [hst]
    rw [setLoop_cons]
    obtain ⟨heven, hwait, hsame⟩ := @ih { s with
        swaptab := Function.update s.swaptab smi (setUcnt (·.set pg 1) (s.swaptab smi))
        dbd := Function.update s.dbd d ⟨.swap, smi, toBlkno blk⟩ } _ _ _
      hset hfree.tail hnd hloose hnext hstep
    refine ⟨heven, hwait, fun e he => ?_⟩
    rw [List.mem_cons, not_or] at he
    rw [hsame e he.2]
    exact Function.update_of_ne he.1 _ _

/-- swalloc sets up the pages that it found. -/
theorem setup_spec (h : s.Even) (hu : (s.swaptab smi).stUcnt = some u)
    (hfree : Free u pg ds.length) (hnd : ds.Nodup) (hds : ∀ d ∈ ds, (s.dbd d).dbdType ≠ .swap) :
    (setup ds smi pg s).Even ∧ (setup ds smi pg s).waiting = s.waiting ∧
      ∀ d, d ∉ ds → (setup ds smi pg s).dbd d = s.dbd d := by
  have hbooks : Books (fun j => if j = smi then (ds.length : Int) else 0)
      (Function.update s.swaptab smi { s.swaptab smi with
        stNfpgs := (s.swaptab smi).stNfpgs - ds.length }) s.dbd := by
    refine Books.congr h fun j => ?_
    by_cases hj : j = smi
    · subst hj
      simp only [Function.update_self, if_true]
      exact ⟨trivial, trivial, trivial, by omega⟩
    · simp only [Function.update_of_ne hj, if_neg hj]
      exact ⟨trivial, trivial, trivial, trivial⟩
  have hblk : (s.swaptab smi).stSwplo + (pg <<< DPPSHFT : Nat) =
      (s.swaptab smi).stSwplo + 4 * pg := by
    rw [Nat.shiftLeft_eq, DPPSHFT]
    omega
  refine @setLoop_spec _ { s with
    swaptab := Function.update s.swaptab smi { s.swaptab smi with
      stNfpgs := (s.swaptab smi).stNfpgs - ds.length }
    nextswap := smi + 1 } smi u pg ds _ _ _ ?_ hfree hnd hds ?_ hbooks
  · simp [hu]
  · simp only [Function.update_self]
    exact hblk

/-- getswap frees the pages that it gets at. -/
theorem getswap_spec (h : s.Even) (smi : Smi) (ds : List D) :
    ∃ t, getswap smi ds s = some t ∧ t.Even ∧ t.waiting.Perm s.waiting ∧
      ∀ d, (t.dbd d).dbdType = .swap → (s.dbd d).dbdType = .swap := by
  induction ds generalizing s with
  | nil => exact ⟨s, rfl, h, .refl _, fun _ => id⟩
  | cons d ds ih =>
    rw [getswap]
    by_cases hd : (s.dbd d).dbdType = .swap ∧ (s.dbd d).dbdSwpi = smi
    · obtain ⟨n, t, heq, heven, hdbd, hwait⟩ := swfree1_spec h hd.1
      obtain ⟨t', heq', heven', hwait', htype⟩ := ih heven
      simp only [if_pos hd, heq, Option.bind_eq_bind, Option.bind_some]
      refine ⟨t', heq', heven', hwait'.trans hwait, fun e he => ?_⟩
      have hold := htype e he
      by_cases hed : e = d
      · subst hed
        exact hd.1
      · rwa [clearDbd_ne hed, hdbd] at hold
    · rw [if_neg hd]
      exact ih h

omit [DecidableEq D] in
theorem swaprem_spec (h : s.Even) (hz : (s.swaptab smi).stNfpgs = (s.swaptab smi).stNpgs) :
    (swaprem smi s).Even := by
  refine Books.replace h (fun d hd (he : (s.dbd d).dbdSwpi = smi) => ?_) (.inl rfl) rfl
  obtain ⟨u, p, n, hu, hn, hpos, -⟩ := h.count hd
  rw [he] at hu
  have hnf := h.nfpgs smi u hu
  have hlen := (h.fits smi u hu).2
  have hall := List.count_eq_length.mp (show u.count 0 = u.length by omega)
  have h0 := hall n (List.mem_of_getElem? hn)
  omega

theorem delPages_spec (h : s.Even) (smi : Smi) (ds : List D) :
    ∃ t, delPages smi ds s = some t ∧ t.Even ∧ t.waiting.Perm s.waiting ∧
      ∀ d, (t.dbd d).dbdType = .swap → (s.dbd d).dbdType = .swap := by
  obtain ⟨t, ht, heven, hwait, htype⟩ : ∃ t, delUsed smi ds s = some t ∧ t.Even ∧
      t.waiting.Perm s.waiting ∧
      ∀ d, (t.dbd d).dbdType = .swap → (s.dbd d).dbdType = .swap := by
    unfold delUsed
    split
    · exact getswap_spec h smi ds
    · exact ⟨s, rfl, h, .refl _, fun _ => id⟩
  simp only [delPages, ht, Option.bind_eq_bind, Option.bind_some]
  split
  · rename_i hz
    exact ⟨_, rfl, swaprem_spec heven hz, hwait, htype⟩
  · exact ⟨t, rfl, heven, hwait, htype⟩

omit [DecidableEq D] in
theorem indel_even (h : s.Even) (smi : Smi) : (indel smi s).Even := by
  refine Books.congr h fun j => ?_
  by_cases hj : j = smi
  · subst hj
    simp [indel]
  · simp [indel, Function.update_of_ne hj]

/-- swapdel marks a file, and takes it out once its pages are free. -/
theorem swapdel_spec (h : s.Even) (dev : Nat) (lowblk : Int) (ds : List D) :
    ∃ r t, swapdel dev lowblk ds s = some (r, t) ∧ t.Even ∧ t.waiting.Perm s.waiting ∧
      ∀ d, (t.dbd d).dbdType = .swap → (s.dbd d).dbdType = .swap := by
  unfold swapdel
  split
  · exact ⟨_, s, rfl, h, .refl _, fun _ => id⟩
  · exact ⟨_, s, rfl, h, .refl _, fun _ => id⟩
  · rename_i smi _ _
    split
    · obtain ⟨t, ht, heven, hwait, htype⟩ := delPages_spec h smi ds
      exact ⟨_, t, by rw [ht]; rfl, heven, hwait, htype⟩
    · split
      · exact ⟨_, s, rfl, h, .refl _, fun _ => id⟩
      · obtain ⟨t, ht, heven, hwait, htype⟩ := delPages_spec (indel_even h smi) smi ds
        exact ⟨_, t, by rw [ht]; rfl, heven, hwait, htype⟩

end Svr32.Swapalloc

/-! Runs of swalloc, swpinc, swfree1, swapadd and swapdel. The callers of swpinc and swfree1
write their descriptors as dupreg, getpages and pfree do. -/
namespace Svr32.Swapalloc
open Svr32.Lib
variable {D : Type} [Fintype D] [DecidableEq D] {s t : Swap D} {c : Call D} {d : D}

/- The descriptors of calls that have not found space. -/
def Swap.asked (s : Swap D) : List D := s.waiting.flatMap (·.pglist)

/- One turn of the loop of swalloc: what it returns, if it does. -/
def turn (c : Call D) (pre post : List (Call D)) (s : Swap D) : Option Int × Swap D :=
  match scan c s with
  | (pg, smi, tab) =>
    if 0 ≤ pg then
      (some ((tab smi).stSwplo + (pg.toNat <<< DPPSHFT : Nat)),
        setup c.pglist smi pg.toNat { s with swaptab := tab, calls := pre ++ post })
    else (none, { s with swaptab := tab, calls := pre ++ { c with swappg := pg } :: post })

inductive Act (D : Type)
  | call (c : Call D)
  | turn (c : Call D)
  | fail (c : Call D)
  | sleep (c : Call D)
  | swpinc (d d' : D)
  | swfree1 (d : D)
  | swapadd (dev : Nat) (lowblk : Int) (nblks : Nat) (open' : Option Nat) (ok : Bool)
  | swapdel (dev : Nat) (lowblk : Int) (ds : List D)

/- The pages for which swap is asked have none, and are locked until there is. -/
inductive Step : Act D → Swap D → Swap D → Prop
  | call {s : Swap D} {c : Call D} : 0 < c.pglist.length → c.swappg = 0 → c.pglist.Nodup →
    (∀ d ∈ c.pglist, (s.dbd d).dbdType ≠ .swap ∧ d ∉ s.asked) →
    Step (.call c) s { s with calls := c :: s.calls }
  | turn {s : Swap D} {c : Call D} {pre post : List (Call D)} : s.calls = pre ++ c :: post →
    Step (.turn c) s (turn c pre post s).2
  | fail {s : Swap D} {c : Call D} {pre post : List (Call D)} : s.calls = pre ++ c :: post →
    c.swappg < 0 → c.waitflag = false → Step (.fail c) s { s with calls := pre ++ post }
  | sleep {s : Swap D} {c : Call D} {pre post : List (Call D)} : s.calls = pre ++ c :: post →
    c.swappg < 0 → c.waitflag = true →
    Step (.sleep c) s { s with calls := pre ++ post, swapwold := s.swapwold ++ [c] }
  | swpinc {s t : Swap D} {d d' : D} {ok : Bool} : (s.dbd d).dbdType = .swap →
    (s.dbd d').dbdType ≠ .swap → d' ∉ s.asked → swpinc (s.dbd d) s = some (ok, t) →
    Step (.swpinc d d') s (if ok then copyDbd d d' t else t)
  | swfree1 {s t : Swap D} {d : D} {n : Nat} : (s.dbd d).dbdType = .swap →
    swfree1 (s.dbd d) s = some (n, t) → Step (.swfree1 d) s (clearDbd d t)
  | swapadd {s : Swap D} (dev : Nat) (lowblk : Int) (nblks : Nat) (open' : Option Nat)
    (ok : Bool) : Step (.swapadd dev lowblk nblks open' ok) s
      (swapadd dev lowblk nblks open' ok s).2
  | swapdel {s t : Swap D} {dev : Nat} {lowblk : Int} {ds : List D}
    {r : Option Smi × Option Errno} : swapdel dev lowblk ds s = some (r, t) →
    Step (.swapdel dev lowblk ds) s t

/- No swap file, no page on swap. -/
structure Boot (s : Swap D) : Prop where
  swaptab : ∀ i, (s.swaptab i).stUcnt = none
  dbd : ∀ d, (s.dbd d).dbdType ≠ .swap
  calls : s.calls = [] ∧ s.swapwold = []

/- The first turn of a call has a file to look into; block numbers fit into a descriptor. -/
def Met : Act D → Swap D → Prop
  | .turn c, s => 0 ≤ c.swappg → ∃ i, Live s.swaptab i
  | .swapadd _ lowblk nblks _ _, _ => Area lowblk nblks
  | _, _ => True

/- The runs whose steps meet a condition. -/
def swapping (C : Act D → Swap D → Prop) : System (Swap D) where
  init := Boot
  step s t := ∃ a, Step a s t ∧ C a s

structure Good (s : Swap D) : Prop where
  even : s.Even
  size : ∀ c ∈ s.waiting, 0 < c.pglist.length
  apart : s.asked.Nodup
  off : ∀ d ∈ s.asked, (s.dbd d).dbdType ≠ .swap

omit [DecidableEq D] in
/-- The order of the calls, and descriptors that are given up, do not matter. -/
theorem Good.keep (h : Good s) (he : t.Even) (hw : t.waiting.Perm s.waiting)
    (hd : ∀ d ∈ s.asked, (t.dbd d).dbdType ≠ .swap) : Good t := by
  have hasked : t.asked.Perm s.asked := hw.flatMap_right _
  exact ⟨he, fun c hc => h.size c (hw.mem_iff.mp hc), hasked.nodup_iff.mpr h.apart,
    fun d hm => hd d (hasked.mem_iff.mp hm)⟩

omit [DecidableEq D] in
/-- A call and the rest of those that wait. -/
theorem Good.split {ws : List (Call D)} (h : Good s) (hw : s.waiting.Perm (c :: ws)) :
    0 < c.pglist.length ∧ c.pglist.Nodup ∧ (ws.flatMap (·.pglist)).Nodup ∧
    (∀ d ∈ c.pglist, (s.dbd d).dbdType ≠ .swap ∧ d ∉ ws.flatMap (·.pglist)) ∧
    (∀ d ∈ ws.flatMap (·.pglist), (s.dbd d).dbdType ≠ .swap) ∧
    ∀ c' ∈ ws, 0 < c'.pglist.length := by
  have hasked : s.asked.Perm (c.pglist ++ ws.flatMap (·.pglist)) := hw.flatMap_right _
  obtain ⟨hc, hws, hdis⟩ := List.nodup_append.mp (hasked.nodup_iff.mp h.apart)
  have hin : ∀ d, d ∈ c.pglist ∨ d ∈ ws.flatMap (·.pglist) → d ∈ s.asked := fun d hd =>
    hasked.mem_iff.mpr (List.mem_append.mpr hd)
  exact ⟨h.size c (hw.mem_iff.mpr List.mem_cons_self), hc, hws,
    fun d hd => ⟨h.off d (hin d (.inl hd)), fun hm => hdis d hd d hm rfl⟩,
    fun d hd => h.off d (hin d (.inr hd)),
    fun c' hc' => h.size c' (hw.mem_iff.mpr (List.mem_cons_of_mem c hc'))⟩

omit [Fintype D] [DecidableEq D] in
theorem waiting_split {pre post : List (Call D)} (hc : s.calls = pre ++ c :: post) :
    s.waiting.Perm (c :: (pre ++ post ++ s.swapwold)) := by
  rw [Swap.waiting, hc, List.append_assoc, List.append_assoc, List.cons_append]
  exact List.perm_middle

omit [DecidableEq D] in
theorem Good.call (h : Good s) (hsize : 0 < c.pglist.length) (hnd : c.pglist.Nodup)
    (hd : ∀ d ∈ c.pglist, (s.dbd d).dbdType ≠ .swap ∧ d ∉ s.asked) :
    Good { s with calls := c :: s.calls } := by
  have hasked : ({ s with calls := c :: s.calls } : Swap D).asked = c.pglist ++ s.asked := by
    simp [Swap.asked, Swap.waiting]
  refine ⟨h.even, fun c' hc' => ?_, ?_, fun d hm => ?_⟩
  · rcases List.mem_cons.mp hc' with rfl | hc'
    · exact hsize
    · exact h.size c' hc'
  · rw [hasked, List.nodup_append]
    exact ⟨hnd, h.apart, fun d hdc e he hde => (hd d hdc).2 (hde ▸ he)⟩
  · rw [hasked, List.mem_append] at hm
    exact hm.elim (fun hm => (hd d hm).1) (h.off d)

/-- What a turn of swalloc found, and what it leaves. -/
theorem Good.turn {pre post : List (Call D)} (h : Good s) (hc : s.calls = pre ++ c :: post)
    (hlive : 0 ≤ c.swappg → ∃ i, Live s.swaptab i) :
    Good (turn c pre post s).2 ∧ ∀ blk, (turn c pre post s).1 = some blk →
      ∃ i, ∃ u, ∃ p : Nat, Live s.swaptab i ∧ (s.swaptab i).stUcnt = some u ∧
        Free u p c.pglist.length ∧ blk = (s.swaptab i).stSwplo + 4 * p := by
  have hw := waiting_split hc
  obtain ⟨hsize, hnd, hws, hoff, hrest, hsizes⟩ := h.split hw
  rcases hscan : scan c s with ⟨pg, smi, tab⟩
  obtain ⟨hmoves, hfound⟩ := scan_spec hsize hscan hlive
  have heven : Books (fun _ => 0) tab s.dbd := Moves.even (s := s) h.even hmoves
  simp only [Swapalloc.turn, hscan]
  by_cases h0 : 0 ≤ pg
  · obtain ⟨hdel, u, hu, p, rfl, hfree⟩ := hfound.resolve_left (by omega)
    have hmove : (tab smi).stUcnt = some u ∧ (tab smi).stSwplo = (s.swaptab smi).stSwplo := by
      obtain ⟨n, hn⟩ := hmoves smi
      rw [hn]
      exact ⟨hu, rfl⟩
    obtain ⟨heven', hwait, hsame⟩ := @setup_spec _
      { s with swaptab := tab, calls := pre ++ post } smi u p c.pglist _ _ heven
      hmove.1 hfree hnd fun d hd => (hoff d hd).1
    rw [if_pos h0]
    refine ⟨⟨heven', ?_, ?_, ?_⟩, fun blk hblk =>
      ⟨smi, u, p, ⟨by rw [hu]; rfl, hdel⟩, hu, hfree, ?_⟩⟩
    · rw [Int.toNat_natCast, hwait]
      exact hsizes
    · rw [Int.toNat_natCast, Swap.asked, hwait]
      exact hws
    · rw [Int.toNat_natCast, Swap.asked, hwait]
      intro d hd
      rw [hsame d fun hdc => (hoff d hdc).2 hd]
      exact hrest d hd
    · rw [← Option.some.inj hblk, hmove.2, Int.toNat_natCast, Nat.shiftLeft_eq, DPPSHFT]
      push_cast
      ring
  · rw [if_neg h0]
    refine ⟨⟨heven, fun c' hc' => ?_, ?_, ?_⟩, by rintro _ ⟨⟩⟩
    · have hmem := (@waiting_split _ { s with calls := pre ++ { c with swappg := pg } :: post }
        { c with swappg := pg } pre post rfl).mem_iff.mp hc'
      rcases List.mem_cons.mp hmem with rfl | hm
      · exact hsize
      · exact hsizes c' hm
    · have hasked := h.apart
      simp only [Swap.asked, Swap.waiting, hc, List.flatMap_append, List.flatMap_cons] at hasked ⊢
      exact hasked
    · have hoffs := h.off
      simp only [Swap.asked, Swap.waiting, hc, List.flatMap_append, List.flatMap_cons] at hoffs ⊢
      exact hoffs

theorem good_step {a : Act D} (h : Good s) (hst : Step a s t) (hm : Met a s) : Good t := by
  cases hst with
  | call hsize _ hnd hd => exact h.call hsize hnd hd
  | turn hc => exact (h.turn hc hm).1
  | @fail _ c pre post hc =>
    obtain ⟨-, -, hws, -, hrest, hsizes⟩ := h.split (waiting_split hc)
    exact ⟨h.even, hsizes, hws, hrest⟩
  | @sleep _ c pre post hc =>
    refine h.keep h.even ?_ h.off
    have hmid : (pre ++ post ++ (s.swapwold ++ [c])).Perm (c :: (pre ++ post ++ s.swapwold)) := by
      rw [← List.append_assoc]
      exact List.perm_append_singleton c _
    exact hmid.trans (waiting_split hc).symm
  | @swpinc _ t' d d' ok hd hd' hout heq =>
    rcases swpinc_spec h.even hd hd' with hno | ⟨t, ht, heven, hdbd, hwait⟩
    · cases heq.symm.trans hno
      exact h
    · cases heq.symm.trans ht
      refine h.keep heven (.of_eq hwait) fun e he => ?_
      have hne : e ≠ d' := fun hed => hout (hed ▸ he)
      have hsame : (copyDbd d d' t').dbd e = s.dbd e := by
        rw [copyDbd, hdbd]
        exact Function.update_of_ne hne _ _
      rw [if_pos rfl, hsame]
      exact h.off e he
  | @swfree1 _ t' d n hd heq =>
    obtain ⟨n', t, ht, heven, hdbd, hwait⟩ := swfree1_spec h.even hd
    cases heq.symm.trans ht
    refine h.keep heven hwait fun e he => ?_
    have hne : e ≠ d := fun hed => h.off e he (hed ▸ hd)
    rw [clearDbd_ne hne, hdbd]
    exact h.off e he
  | swapadd dev lowblk nblks open' ok =>
    obtain ⟨heven, hdbd, hwait⟩ := swapadd_spec h.even hm open' ok
    exact h.keep heven hwait fun d hd => by rw [hdbd]; exact h.off d hd
  | @swapdel _ _ dev lowblk ds r heq =>
    obtain ⟨r', t', ht, heven, hwait, htype⟩ := swapdel_spec h.even dev lowblk ds
    cases heq.symm.trans ht
    exact h.keep heven hwait fun d hd hs => h.off d hd (htype d hs)

omit [DecidableEq D] in
theorem good_boot (h : Boot s) : Good s := by
  have hno : ∀ c, c ∉ s.waiting := fun c hc => by
    rw [Swap.waiting, h.calls.1, h.calls.2] at hc
    cases hc
  have hasked : s.asked = [] := List.flatMap_eq_nil_iff.mpr fun c hc => absurd hc (hno c)
  refine ⟨⟨fun i u hu => ?_, fun i u hu => ?_, fun i u hu => ?_, fun d hd => absurd hd (h.dbd d)⟩,
    fun c hc => absurd hc (hno c), ?_, fun d _ => h.dbd d⟩
  · cases (h.swaptab i).symm.trans hu
  · cases (h.swaptab i).symm.trans hu
  · cases (h.swaptab i).symm.trans hu
  · rw [hasked]
    exact List.nodup_nil

/- What swalloc returns is a run that is free in a file in use that is not being deleted. -/
def Sound (s : Swap D) : Prop :=
  ∀ c pre post, s.calls = pre ++ c :: post → Met (.turn c) s →
    ∀ blk, (turn c pre post s).1 = some blk →
      ∃ i, ∃ u, ∃ p : Nat, Live s.swaptab i ∧ (s.swaptab i).stUcnt = some u ∧
        Free u p c.pglist.length ∧ blk = (s.swaptab i).stSwplo + 4 * p

structure Accounts (s : Swap D) : Prop where
  nfpgs : ∀ i u, (s.swaptab i).stUcnt = some u → (s.swaptab i).stNfpgs = u.count 0
  uses : ∀ i u, (s.swaptab i).stUcnt = some u → u.length = (s.swaptab i).stNpgs ∧
    ∀ p n, u[p]? = some n → refs s.swaptab s.dbd i p = n
  page : ∀ d, (s.dbd d).dbdType = .swap → ∃ u, ∃ p : Nat,
    (s.swaptab (s.dbd d).dbdSwpi).stUcnt = some u ∧ p < u.length ∧
    ((s.dbd d).dbdBlkno : Int) = (s.swaptab (s.dbd d).dbdSwpi).stSwplo + 4 * p
  sound : Sound s

theorem Good.accounts (h : Good s) : Accounts s where
  nfpgs i u hu := by
    have hnf := h.even.nfpgs i u hu
    omega
  uses i u hu := ⟨(h.even.fits i u hu).2, h.even.uses i u hu⟩
  page := h.even.swap
  sound _ _ _ hc hm := (h.turn hc hm).2

/-- Every run keeps the counts of the swap files, and swalloc returns what is free. -/
theorem swap_accounts (hr : (swapping Met).Reachable s) : Accounts s :=
  ((swapping Met).invariant Good (fun _ => good_boot)
    (fun _ _ h hst => hst.elim fun _ ha => good_step h ha.1 ha.2) hr).accounts

/- A system that starts, with one page. -/
def start : Swap Unit where
  swaptab _ := ⟨0, false, none, 0, 0, 0, 0⟩
  nextswap := ⟨0, by decide⟩
  availsmem := 0
  tMinasmem := 0
  dbd _ := ⟨.none, ⟨0, by decide⟩, 0⟩
  calls := []
  swapwold := []

theorem start_boot : Boot start := ⟨fun _ => rfl, fun _ => nofun, rfl, rfl⟩

/-- A file of two pages is added. -/
theorem swap_accounts_start : Accounts (swapadd 0 0 8 none true start).2 :=
  swap_accounts (System.reachable_step (System.reachable_init start_boot)
    ⟨_, .swapadd 0 0 8 none true, ⟨by decide, by decide⟩⟩)

/- A call that looks for one page. -/
def lone : Call Unit := ⟨[()], true, 0⟩

/-- Without a swap file the initial value of swappg is taken for a page that was found. -/
theorem swalloc_no_swap :
    ¬ ∀ s : Swap Unit, (swapping fun _ _ => True).Reachable s →
      ∀ c pre post, s.calls = pre ++ c :: post → ∀ blk, (turn c pre post s).1 = some blk →
        ∃ i, Live s.swaptab i := by
  intro h
  have hr : (swapping fun _ _ => True).Reachable { start with calls := [lone] } :=
    System.reachable_step (System.reachable_init start_boot)
      ⟨_, .call (c := lone) (by decide) rfl (by decide) (fun _ _ => ⟨nofun, nofun⟩), trivial⟩
  obtain ⟨i, hi, -⟩ := h _ hr lone [] [] rfl 0 (by decide)
  cases hi

end Svr32.Swapalloc
