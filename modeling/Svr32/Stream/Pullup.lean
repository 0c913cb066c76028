import Svr32.Stream.Message

/-! pullupmsg: a new block takes the place of the head, with a spare message block to hold the
old one while they change places. -/
namespace Svr32.Stream
open Svr32.Lib
variable {nd : Nat} {k k' : Pool} {fl rest : List Nat} {ms : List (List Nat)} {b n d : Nat}

/- Blocks move their pointers into the data, but not their links. -/
structure Moved (k k' : Pool) : Prop where
  next : k'.next = k.next
  cont : k'.cont = k.cont
  datap : k'.datap = k.datap
  size : k'.nmblock = k.nmblock
  free : k'.mbfreelist = k.mbfreelist
  db : SameDb k k'
  dfree : k'.dbfreelist = k.dbfreelist
  cnt : k'.dbaCnt = k.dbaCnt

theorem Moved.acc (h : Moved k k') (hacc : Account nd k fl) : Account nd k' fl :=
  hacc.congr (fun x _ => by rw [h.next]) h.free h.size h.datap h.db h.dfree h.cnt

theorem Moved.trans {k'' : Pool} (h : Moved k k') (h' : Moved k' k'') : Moved k k'' :=
  ⟨h'.next.trans h.next, h'.cont.trans h.cont, h'.datap.trans h.datap, h'.size.trans h.size,
    h'.free.trans h.free, fun d => ⟨(h'.db d).1.trans (h.db d).1,
      (h'.db d).2.1.trans (h.db d).2.1, (h'.db d).2.2.trans (h.db d).2.2⟩,
    h'.dfree.trans h.dfree, h'.cnt.trans h.cnt⟩

theorem setMb_moved (k : Pool) (b : Nat) (r w : Int) :
    Moved k (k.setMb b { k.mb b with bRptr := r, bWptr := w }) := by
  refine ⟨?_, ?_, ?_, rfl, rfl, fun _ => ⟨rfl, rfl, rfl⟩, rfl, rfl⟩ <;> funext x
  all_goals
    by_cases hx : x = b <;> simp [Pool.next, Pool.cont, Pool.datap, Pool.setMb, hx]

theorem pullTurn_moved (nbp bp : Nat) (n : Int) (k : Pool) : Moved k (pullTurn nbp bp n k) := by
  have hmem : Moved k { k with mem := bcopy (k.mb bp).bRptr (k.mb nbp).bWptr n k.mem } :=
    ⟨rfl, rfl, rfl, rfl, rfl, fun _ => ⟨rfl, rfl, rfl⟩, rfl, rfl⟩
  exact (hmem.trans (setMb_moved _ nbp _ _)).trans (setMb_moved _ bp _ _)

theorem pullTurn_mb {nbp bp x : Nat} (n : Int) (hx : x ≠ bp) (hxn : x ≠ nbp) :
    (pullTurn nbp bp n k).mb x = k.mb x := by
  simp [pullTurn, Pool.setMb, hx, hxn]

/- What the loop has done to the blocks `r`: those in `done` are free. -/
structure Pulled (nd nbp : Nat) (r : List Nat) (k : Pool) (fl : List Nat) (left : Option Nat)
    (k' : Pool) : Prop where
  out : ∃ done l, r = done ++ l ∧ left = l.head? ∧ Account nd k' (done.reverse ++ fl) ∧
    ∀ x, x ∉ done → k'.datap x = k.datap x
  cont : k'.cont = k.cont
  same : ∀ x, x ∉ r → x ≠ nbp → k'.mb x = k.mb x
  size : k'.nmblock = k.nmblock

/-- The loop behind the head: used up blocks are freed. -/
theorem pullupLoop_spec {r : List Nat} {mp nbp fuel : Nat} {len : Int} (hacc : Account nd k fl)
    (hseg : Seg k.cont r.head? r) (hnd : r.Nodup) (hmp : mp ∉ r)
    (hr : ∀ x ∈ r, x < k.nmblock ∧ ∃ d, k.datap x = some d) (hfuel : r.length ≤ fuel) :
    ∃ left k', pullupLoop mp nbp fuel r.head? len k = some (left, k') ∧
      Pulled nd nbp r k fl left k' := by
  induction r generalizing k fl fuel len with
  | nil =>
    refine ⟨none, k, by cases fuel <;> rfl, ⟨[], [], rfl, rfl, hacc, fun _ _ => rfl⟩, rfl,
      fun _ _ _ => rfl, rfl⟩
  | cons b r ih =>
    obtain ⟨m, rfl⟩ := Nat.exists_eq_succ_of_ne_zero (Nat.ne_zero_of_lt hfuel)
    obtain ⟨hbr, hnd⟩ := List.nodup_cons.mp hnd
    have hbm : b ≠ mp := fun he => hmp (by simp [he])
    have hstay : ∀ k₁, Moved k k₁ → (∀ x, x ≠ b → x ≠ nbp → k₁.mb x = k.mb x) →
        Pulled nd nbp (b :: r) k fl (some b) k₁ := fun k₁ hm hs =>
      ⟨⟨[], b :: r, rfl, rfl, hm.acc hacc, fun x _ => by rw [hm.datap]⟩, hm.cont,
        fun x hx hxn => hs x (fun he => hx (by simp [he])) hxn, hm.size⟩
    by_cases hlen : len = 0
    · refine ⟨some b, k, by simp only [List.head?_cons, pullupLoop, if_pos hlen], ?_⟩
      exact hstay k ⟨rfl, rfl, rfl, rfl, rfl, fun _ => ⟨rfl, rfl, rfl⟩, rfl, rfl⟩ fun _ _ _ => rfl
    · have hmoved := pullTurn_moved nbp b (min ((k.mb b).bWptr - (k.mb b).bRptr) len) k
      have hmb : ∀ x, x ≠ b → x ≠ nbp →
          (pullTurn nbp b (min ((k.mb b).bWptr - (k.mb b).bRptr) len) k).mb x = k.mb x :=
        fun x hx hxn => pullTurn_mb _ hx hxn
      have hturn : pullupLoop mp nbp (m + 1) (some b) len k =
          if (k.mb b).bRptr + min ((k.mb b).bWptr - (k.mb b).bRptr) len ≠ (k.mb b).bWptr then
            some (some b, pullTurn nbp b (min ((k.mb b).bWptr - (k.mb b).bRptr) len) k)
          else (freeb b (pullTurn nbp b (min ((k.mb b).bWptr - (k.mb b).bRptr) len) k)).bind
            (pullupLoop mp nbp m
              ((pullTurn nbp b (min ((k.mb b).bWptr - (k.mb b).bRptr) len) k).cont b)
              (len - min ((k.mb b).bWptr - (k.mb b).bRptr) len)) := by
        simp only [pullupLoop, if_neg hlen, if_pos hbm]
        rfl
      generalize pullTurn nbp b (min ((k.mb b).bWptr - (k.mb b).bRptr) len) k = k₁ at *
      by_cases hused : (k.mb b).bRptr + min ((k.mb b).bWptr - (k.mb b).bRptr) len = (k.mb b).bWptr
      · obtain ⟨hlt, d, hd⟩ := hr b (by simp)
        obtain ⟨k₂, hk₂, hacc₂, hone, hcont⟩ := freeb_spec (hmoved.acc hacc)
          (hmoved.size ▸ hlt) (d := d) (by rw [hmoved.datap, hd])
        have hc : k₂.cont = k.cont := by
          funext x
          by_cases hx : x = b
          · rw [hx, hcont, hmoved.cont]
          · rw [← hmoved.cont, Pool.cont, hone.same x hx]
            rfl
        have hhead : k₁.cont b = r.head? := by
          rw [hmoved.cont]
          exact hseg.2.head
        have hsize := hone.size.trans hmoved.size
        have hdatap : ∀ x, x ≠ b → k₂.datap x = k.datap x := fun x hx => by
          rw [← hmoved.datap, Pool.datap, hone.same x hx]
          rfl
        obtain ⟨left, k', hk', hout⟩ := @ih _ _ _ (len - min ((k.mb b).bWptr - (k.mb b).bRptr) len)
          hacc₂ (by rw [hc, ← hseg.2.head]; exact hseg.2) hnd
          (fun hm => hmp (List.mem_cons_of_mem b hm))
          (fun x hx => by
            rw [hsize, hdatap x fun he => hbr (he ▸ hx)]
            exact hr x (List.mem_cons_of_mem b hx))
          (Nat.le_of_succ_le_succ hfuel)
        refine ⟨left, k', ?_, ?_, hout.cont.trans hc, fun x hx hxn => ?_, hout.size.trans hsize⟩
        · rw [List.head?_cons, hturn, if_neg (not_not.mpr hused), hk₂, hhead]
          exact hk'
        · obtain ⟨done, l, hl, hleft, hacc', hsame⟩ := hout.out
          refine ⟨b :: done, l, by rw [hl]; rfl, hleft, by simpa using hacc', fun x hx => ?_⟩
          rw [List.mem_cons, not_or] at hx
          rw [hsame x hx.2, hdatap x hx.1]
        · rw [List.mem_cons, not_or] at hx
          rw [hout.same x hx.2 hxn, hone.same x hx.1, hmb x hx.1 hxn]
      · refine ⟨some b, k₁, by rw [List.head?_cons, hturn, if_pos hused], hstay k₁ hmoved hmb⟩

/-- Three message blocks change places, and so do their references. -/
theorem exchange_spec {tmp mp nbp : Nat} {A B : Nat} (hacc : Account nd k fl)
    (ht : tmp < k.nmblock) (hm : mp < k.nmblock) (hn : nbp < k.nmblock) (htm : tmp ≠ mp)
    (htn : tmp ≠ nbp) (hmn : mp ≠ nbp) (htfl : tmp ∉ fl) (hdt : k.datap tmp = none)
    (hdm : k.datap mp = some A) (hdn : k.datap nbp = some B) :
    Account nd (exchange tmp mp nbp k) fl ∧ (exchange tmp mp nbp k).mb tmp = k.mb mp ∧
      (exchange tmp mp nbp k).mb mp = k.mb nbp ∧ (exchange tmp mp nbp k).datap nbp = none ∧
      ∀ x, x ≠ tmp → x ≠ mp → x ≠ nbp → (exchange tmp mp nbp k).mb x = k.mb x := by
  have hmt : (exchange tmp mp nbp k).mb tmp = k.mb mp := by
    simp [exchange, Pool.setMb, htm, htn]
  have hmm : (exchange tmp mp nbp k).mb mp = k.mb nbp := by
    simp [exchange, Pool.setMb, hmn, htn.symm]
  have hmx : ∀ x, x ≠ tmp → x ≠ mp → x ≠ nbp → (exchange tmp mp nbp k).mb x = k.mb x :=
    fun x h₁ h₂ h₃ => by simp [exchange, Pool.setMb, h₁, h₂, h₃]
  have hmn' : (exchange tmp mp nbp k).datap nbp = none := by simp [exchange, Pool.datap, Pool.setMb]
  have hmfl : mp ∉ fl := fun hm' => by
    have h := hacc.nodata mp hm'
    rw [hdm] at h
    cases h
  have hnfl : nbp ∉ fl := fun hm' => by
    have h := hacc.nodata nbp hm'
    rw [hdn] at h
    cases h
  have hsame : ∀ x ∈ fl, (exchange tmp mp nbp k).mb x = k.mb x := fun x hx =>
    hmx x (fun he => htfl (he ▸ hx)) (fun he => hmfl (he ▸ hx)) (fun he => hnfl (he ▸ hx))
  have hrefs : (exchange tmp mp nbp k).refs = k.refs := by
    funext d
    have h₁ := (@OneMb.refs k (k.setMb tmp (k.mb mp)))
      ⟨fun x hx => by simp [Pool.setMb, hx], rfl, fun _ => rfl⟩ ht d
    have h₂ := (@OneMb.refs (k.setMb tmp (k.mb mp)) ((k.setMb tmp (k.mb mp)).setMb mp (k.mb nbp)))
      ⟨fun x hx => by simp [Pool.setMb, hx], rfl, fun _ => rfl⟩ hm d
    have h₃ := (@OneMb.refs ((k.setMb tmp (k.mb mp)).setMb mp (k.mb nbp)) (exchange tmp mp nbp k))
      ⟨fun x hx => by simp [exchange, Pool.setMb, hx, htn.symm], rfl, fun _ => rfl⟩ hn d
    have e₁ : (k.setMb tmp (k.mb mp)).datap tmp = some A := by
      rw [← hdm]
      simp [Pool.datap, Pool.setMb]
    have e₂ : (k.setMb tmp (k.mb mp)).datap mp = some A := by
      rw [← hdm]
      simp [Pool.datap, Pool.setMb, htm.symm]
    have e₃ : ((k.setMb tmp (k.mb mp)).setMb mp (k.mb nbp)).datap mp = some B := by
      rw [← hdn]
      simp [Pool.datap, Pool.setMb]
    have e₄ : ((k.setMb tmp (k.mb mp)).setMb mp (k.mb nbp)).datap nbp = some B := by
      rw [← hdn]
      simp [Pool.datap, Pool.setMb, htn.symm, hmn.symm]
    rw [hdt, e₁] at h₁
    rw [e₂, e₃] at h₂
    rw [e₄, hmn'] at h₃
    simp only [reduceCtorEq, if_false] at h₁ h₃
    omega
  obtain ⟨dfl, hdata⟩ := hacc.data
  refine ⟨⟨hacc.seg.congr fun x hx => ?_, hacc.nodup, hacc.lt, fun x hx => ?_, fun x hx e he => ?_,
    dfl, ?_⟩, hmt, hmm, hmn', hmx⟩
  · rw [Pool.next, hsame x hx]
    rfl
  · rw [Pool.datap, hsame x hx]
    exact hacc.nodata x hx
  · by_cases hxn : x = nbp
    · rw [hxn, hmn'] at he
      cases he
    · by_cases hxm : x = mp
      · rw [hxm, Pool.datap, hmm] at he
        exact hacc.inside nbp hn e he
      · by_cases hxt : x = tmp
        · rw [hxt, Pool.datap, hmt] at he
          exact hacc.inside mp hm e he
        · rw [Pool.datap, hmx x hxt hxm hxn] at he
          exact hacc.inside x hx e he
  · rw [hrefs]
    exact hdata.congr (fun _ => ⟨rfl, rfl, rfl⟩) rfl rfl

/-- A message with another tail behind `mp`. -/
theorem Msgs.retail {pre suf new fl' : List Nat} {mp : Nat}
    (h : Msgs k fl ((pre ++ mp :: suf) :: ms))
    (hsame : ∀ x ∈ pre ++ ms.flatten, k'.cont x = k.cont x ∧ k'.datap x = k.datap x)
    (hmp : k'.cont mp = new.head?) (hdmp : ∃ d, k'.datap mp = some d)
    (hseg : Seg k'.cont new.head? new) (hsize : k'.nmblock = k.nmblock) (hnd : new.Nodup)
    (hnew : ∀ x ∈ new, x < k.nmblock ∧ x ∉ pre ∧ x ≠ mp ∧ x ∉ ms.flatten ∧
      ∃ d, k'.datap x = some d)
    (hfl : ∀ x, x ∈ fl' ↔ (x ∈ fl ∨ x ∈ suf) ∧ x ∉ new) : Msgs k' fl' ((pre ++ mp :: new) :: ms) := by
  have hflat : ∀ l : List Nat, ((pre ++ mp :: l) :: ms).flatten = pre ++ mp :: (l ++ ms.flatten) :=
    fun l => by simp
  have hnodup := h.nodup
  rw [hflat] at hnodup
  have hmid := List.nodup_cons.mp (List.perm_middle.nodup_iff.mp hnodup)
  have hrest : (pre ++ ms.flatten).Nodup := by
    refine hmid.2.sublist ?_
    exact List.Sublist.append_left (List.sublist_append_right _ _) pre
  have hs := h.seg (pre ++ mp :: suf) (by simp)
  have hout : ∀ x ∈ new, x ∉ mp :: (pre ++ ms.flatten) := by
    intro x hx hm
    obtain ⟨-, h₁, h₂, h₃, -⟩ := hnew x hx
    rcases List.mem_cons.mp hm with he | hm
    · exact h₂ he
    · exact (List.mem_append.mp hm).elim h₁ h₃
  have hperm : ∀ l : List Nat,
      (pre ++ mp :: (l ++ ms.flatten)).Perm (l ++ mp :: (pre ++ ms.flatten)) := by
    intro l
    refine List.perm_middle.trans (List.Perm.trans ?_ List.perm_middle.symm)
    refine List.Perm.cons mp ?_
    rw [← List.append_assoc, ← List.append_assoc]
    exact List.Perm.append_right _ List.perm_append_comm
  refine ⟨fun l hl => ?_, ?_, fun x => ?_, fun x hx => ?_⟩
  · rcases List.mem_cons.mp hl with rfl | hl
    · have hr := (@Seg.retail _ _ k'.cont) hs
        (fun x hx => (hsame x (List.mem_append_left _ hx)).1) (hmp ▸ hseg)
      cases pre <;> exact hr
    · refine (h.seg l (by simp [hl])).congr fun x hx => (hsame x ?_).1
      exact List.mem_append_right _ (List.mem_flatten.mpr ⟨l, hl, hx⟩)
  · rw [hflat, (hperm new).nodup_iff, List.nodup_append']
    refine ⟨hnd, List.nodup_cons.mpr ⟨fun hm => hmid.1 ?_, hrest⟩, hout⟩
    rcases List.mem_append.mp hm with hm | hm <;> simp [hm]
  · have hc := h.cover x
    rw [hflat] at hc ⊢
    rw [(hperm suf).mem_iff, List.mem_append] at hc
    rw [hsize, hfl, (hperm new).mem_iff, List.mem_append]
    by_cases hx : x ∈ new
    · simp [hx, (hnew x hx).1]
    · have hsuf : x ∈ suf → x ∉ mp :: (pre ++ ms.flatten) := fun hm hm' =>
        (List.nodup_append'.mp ((hperm suf).nodup_iff.mp hnodup)).2.2 hm hm'
      constructor
      · intro hm
        have hr := hm.resolve_left hx
        exact ⟨(hc.mp (.inr hr)).1, fun hm' => hm'.1.elim (hc.mp (.inr hr)).2 fun hs => hsuf hs hr⟩
      · intro hm
        have hno := not_or.mp fun hm' => hm.2 ⟨hm', hx⟩
        exact .inr ((hc.mpr ⟨hm.1, hno.1⟩).resolve_left hno.2)
  · rw [hflat, (hperm new).mem_iff] at hx
    rcases List.mem_append.mp hx with hx | hx
    · exact (hnew x hx).2.2.2.2
    · rcases List.mem_cons.mp hx with rfl | hx
      · exact hdmp
      · rw [(hsame x hx).2]
        refine h.data x ?_
        rw [hflat]
        rcases List.mem_append.mp hx with hx | hx <;> simp [hx]

/-- The whole loop: the head keeps its data block, and is used up or the last to be reached. -/
theorem pullupLoop_head {suf : List Nat} {mp nbp fuel : Nat} {len : Int} (hacc : Account nd k fl)
    (hseg : Seg k.cont (k.cont mp) suf) (hnd : suf.Nodup) (hmp : mp ∉ suf) (hne : mp ≠ nbp)
    (hr : ∀ x ∈ suf, x < k.nmblock ∧ ∃ d, k.datap x = some d) (hfuel : suf.length < fuel)
    (hlen : len = 0 → (k.mb mp).bRptr ≠ (k.mb mp).bWptr) :
    ∃ left k' done l, pullupLoop mp nbp fuel (some mp) len k = some (left, k') ∧
      suf = done ++ l ∧ Account nd k' (done.reverse ++ fl) ∧ k'.cont = k.cont ∧
      (∀ x, x ∉ done → k'.datap x = k.datap x) ∧ k'.nmblock = k.nmblock ∧
      (((k'.mb mp).bRptr ≠ (k'.mb mp).bWptr ∧ done = []) ∨
        ((k'.mb mp).bRptr = (k'.mb mp).bWptr ∧ left = l.head?)) := by
  obtain ⟨m, rfl⟩ := Nat.exists_eq_succ_of_ne_zero (Nat.ne_zero_of_lt hfuel)
  by_cases hz : len = 0
  · exact ⟨some mp, k, [], suf, by simp only [pullupLoop, if_pos hz], rfl, hacc, rfl,
      fun _ _ => rfl, rfl, .inl ⟨hlen hz, rfl⟩⟩
  · generalize hn : min ((k.mb mp).bWptr - (k.mb mp).bRptr) len = n
    have hmoved := pullTurn_moved nbp mp n k
    have hmb : (pullTurn nbp mp n k).mb mp =
        { k.mb mp with bRptr := (k.mb mp).bRptr + n } := by
      simp [pullTurn, Pool.setMb, hne]
    have hturn : pullupLoop mp nbp (m + 1) (some mp) len k =
        if (k.mb mp).bRptr + n ≠ (k.mb mp).bWptr then some (some mp, pullTurn nbp mp n k)
        else pullupLoop mp nbp m ((pullTurn nbp mp n k).cont mp) (len - n)
          (pullTurn nbp mp n k) := by
      simp only [pullupLoop, if_neg hz, hn, ne_eq, not_true_eq_false, if_false]
      rfl
    generalize pullTurn nbp mp n k = k₁ at *
    by_cases hused : (k.mb mp).bRptr + n = (k.mb mp).bWptr
    · have hhead : k₁.cont mp = suf.head? := by
        rw [hmoved.cont]
        exact hseg.head
      obtain ⟨left, k', hk', hout⟩ := (@pullupLoop_spec _ _ _ _ _ nbp m (len - n))
        (hmoved.acc hacc) (by rw [hmoved.cont, ← hseg.head]; exact hseg) hnd hmp
        (fun x hx => by rw [hmoved.size, hmoved.datap]; exact hr x hx)
        (Nat.le_of_lt_succ hfuel)
      obtain ⟨done, l, hl, hleft, hacc', hsame⟩ := hout.out
      refine ⟨left, k', done, l, ?_, hl, hacc', hout.cont.trans hmoved.cont, fun x hx => ?_,
        hout.size.trans hmoved.size, .inr ⟨?_, hleft⟩⟩
      · rw [hturn, if_neg (not_not.mpr hused), hhead]
        exact hk'
      · rw [hsame x hx, hmoved.datap]
      · rw [hout.same mp hmp hne, hmb]
        exact hused
    · refine ⟨some mp, k₁, [], suf, by rw [hturn, if_pos hused], rfl, hmoved.acc hacc, hmoved.cont,
        fun x _ => by rw [hmoved.datap], hmoved.size, .inl ⟨?_, rfl⟩⟩
      rw [hmb]
      exact hused

theorem mbfree_cont (b : Nat) (k : Pool) : (mbfree b k).cont = k.cont := by
  funext x
  by_cases hx : x = b <;> simp [mbfree, Pool.cont, Pool.setMb, hx]

theorem mbfree_datap (b : Nat) (k : Pool) : (mbfree b k).datap = k.datap := by
  funext x
  by_cases hx : x = b <;> simp [mbfree, Pool.datap, Pool.setMb, hx]

/- The message, the spare blocks of pullupmsg and the free list are apart. -/
structure Spare (nd : Nat) (k : Pool) (ms : List (List Nat)) (rest l : List Nat) (tmp nbp : Nat) :
    Prop where
  msgs : Msgs k (tmp :: nbp :: rest) (l :: ms)
  nodup : (tmp :: nbp :: rest).Nodup
  lt : tmp < k.nmblock ∧ nbp < k.nmblock
  tmp : k.datap tmp = none
  nbp : ∃ d, k.datap nbp = some d

theorem pullupEnd_spec {k₀ : Pool} {pre done l : List Nat} {tmp mp nbp : Nat} {left : Option Nat}
    (h : Spare nd k₀ ms rest (pre ++ mp :: (done ++ l)) tmp nbp)
    (hacc : Account nd k (done.reverse ++ rest)) (hcont : k.cont = k₀.cont)
    (hdatap : ∀ x, x ∉ done → k.datap x = k₀.datap x) (hsize : k.nmblock = k₀.nmblock)
    (hend : ((k.mb mp).bRptr ≠ (k.mb mp).bWptr ∧ done = []) ∨
      ((k.mb mp).bRptr = (k.mb mp).bWptr ∧ left = l.head?)) :
    ∃ k' fl' new, pullupEnd tmp mp nbp left k = some k' ∧ Account nd k' fl' ∧
      Msgs k' fl' ((pre ++ mp :: new) :: ms) ∧
      (((k.mb mp).bRptr ≠ (k.mb mp).bWptr ∧ new = tmp :: l) ∨
        ((k.mb mp).bRptr = (k.mb mp).bWptr ∧ new = l)) := by
  have hflat : ((pre ++ mp :: (done ++ l)) :: ms).flatten =
      pre ++ mp :: (done ++ (l ++ ms.flatten)) := by simp
  have hnd := h.msgs.nodup
  rw [hflat] at hnd
  have hmid := List.nodup_cons.mp (List.perm_middle.nodup_iff.mp hnd)
  have htail := (List.nodup_append'.mp hmid.2).2.1
  have hapart : ∀ x ∈ ((pre ++ mp :: (done ++ l)) :: ms).flatten, x ≠ tmp ∧ x ≠ nbp ∧ x ∉ rest := by
    intro x hx
    have hno := ((h.msgs.cover x).mp hx).2
    simp only [List.mem_cons, not_or] at hno
    exact hno
  rw [hflat] at hapart
  obtain ⟨hmt, hmn, hmrest⟩ := hapart mp (by simp)
  have hmdone : mp ∉ done := fun hm => hmid.1 (by simp [hm])
  obtain ⟨htrest, hrest⟩ := List.nodup_cons.mp h.nodup
  have htn : tmp ≠ nbp := fun he => htrest (by simp [he])
  have hdone : ∀ x ∈ done, x ≠ tmp ∧ x ≠ nbp := fun x hx =>
    ⟨(hapart x (by simp [hx])).1, (hapart x (by simp [hx])).2.1⟩
  obtain ⟨A, hA⟩ := h.msgs.data mp (by simp)
  obtain ⟨B, hB⟩ := h.nbp
  have hmlt := ((h.msgs.cover mp).mp (by simp)).1
  have htfl : tmp ∉ done.reverse ++ rest := fun hm => by
    rcases List.mem_append.mp hm with hm | hm
    · exact (hdone tmp (List.mem_reverse.mp hm)).1 rfl
    · exact htrest (List.mem_cons_of_mem nbp hm)
  have hnfl : nbp ∉ done.reverse ++ rest := fun hm => by
    rcases List.mem_append.mp hm with hm | hm
    · exact (hdone nbp (List.mem_reverse.mp hm)).2 rfl
    · exact (List.nodup_cons.mp hrest).1 hm
  obtain ⟨hacc₁, htmb, hmmb, hnone, hother⟩ := exchange_spec hacc (hsize ▸ h.lt.1) (hsize ▸ hmlt)
    (hsize ▸ h.lt.2) hmt.symm htn hmn htfl
    (by rw [hdatap tmp fun hm => (hdone tmp hm).1 rfl, h.tmp]) (by rw [hdatap mp hmdone, hA])
    (by rw [hdatap nbp fun hm => (hdone nbp hm).2 rfl, hB])
  have hkeep : ∀ x, x ≠ tmp → x ≠ mp → x ≠ nbp → x ∉ done →
      (exchange tmp mp nbp k).cont x = k₀.cont x ∧
      (exchange tmp mp nbp k).datap x = k₀.datap x := by
    intro x h₁ h₂ h₃ h₄
    rw [← hcont, ← hdatap x h₄, Pool.cont, Pool.datap, hother x h₁ h₂ h₃]
    exact ⟨rfl, rfl⟩
  -- what stays in its place: the rest of the tail, and all that is not behind `mp`
  have hstay : ∀ x ∈ l ++ (pre ++ ms.flatten), x ≠ tmp ∧ x ≠ mp ∧ x ≠ nbp ∧ x ∉ done := by
    intro x hx
    have hm : x ∈ pre ++ (done ++ (l ++ ms.flatten)) := by
      simp only [List.mem_append] at hx ⊢
      grind
    have hm' : x ∈ pre ++ mp :: (done ++ (l ++ ms.flatten)) :=
      List.perm_middle.mem_iff.mpr (List.mem_cons_of_mem mp hm)
    refine ⟨(hapart x hm').1, fun he => hmid.1 (he ▸ hm), (hapart x hm').2.1, fun hd => ?_⟩
    rcases List.mem_append.mp hx with hx | hx
    · exact (List.nodup_append'.mp htail).2.2 hd (List.mem_append_left _ hx)
    · rcases List.mem_append.mp hx with hx | hx
      · exact (List.nodup_append'.mp hmid.2).2.2 hx (List.mem_append_left _ hd)
      · exact (List.nodup_append'.mp htail).2.2 hd (List.mem_append_right _ hx)
  have hsegl : Seg k₀.cont l.head? l := by
    have hs := h.msgs.seg (pre ++ mp :: (done ++ l)) (by simp)
    exact (@Seg.suffix _ _ _ (pre ++ mp :: done)) (by simpa using hs)
  have hlnd : l.Nodup := ((List.nodup_append'.mp htail).2.1).sublist (List.sublist_append_left _ _)
  have hpart : ∀ x ∈ l, x ∉ pre ∧ x ∉ ms.flatten := fun x hx =>
    ⟨fun hp => (List.nodup_append'.mp hmid.2).2.2 hp (by simp [hx]),
      fun hm => (List.nodup_append'.mp (List.nodup_append'.mp htail).2.1).2.2 hx hm⟩
  have hlin : ∀ x ∈ l, x ∈ ((pre ++ mp :: (done ++ l)) :: ms).flatten := fun x hx => by
    rw [hflat]
    simp [hx]
  have hdmp : (exchange tmp mp nbp k).datap mp = some B := by
    rw [Pool.datap, hmmb, ← hB, ← hdatap nbp fun hm => (hdone nbp hm).2 rfl]
    rfl
  have htcont : (exchange tmp mp nbp k).cont tmp = k₀.cont mp := by
    rw [← hcont, Pool.cont, htmb]
    rfl
  have htdatap : (exchange tmp mp nbp k).datap tmp = some A := by
    rw [Pool.datap, htmb, ← hA, ← hdatap mp hmdone]
    rfl
  have hsize₁ : (exchange tmp mp nbp k).nmblock = k₀.nmblock := hsize
  simp only [pullupEnd, htmb]
  generalize exchange tmp mp nbp k = k₁ at *
  cases hend with
  | inl he =>
    obtain ⟨hne, rfl⟩ := he
    have hcont' : (mbfree nbp (k₁.setCont mp (some tmp))).cont =
        Function.update k₁.cont mp (some tmp) := by rw [mbfree_cont, setCont_cont]
    have hdatap' : (mbfree nbp (k₁.setCont mp (some tmp))).datap = k₁.datap := by
      rw [mbfree_datap, setCont_datap]
    have htl : tmp ∉ l := fun hm => (hstay tmp (List.mem_append_left _ hm)).1 rfl
    refine ⟨_, _, tmp :: l, by rw [if_pos hne]; rfl,
      mbfree_spec (hacc₁.setCont mp (some tmp)) (hsize₁ ▸ h.lt.2) hnfl
        (by rw [setCont_datap]; exact hnone),
      h.msgs.retail (fun x hx => ?_) ?_ ?_ ⟨?_, ?_⟩ hsize₁ (List.nodup_cons.mpr ⟨htl, hlnd⟩)
        (fun x hx => ?_) fun x => ?_, .inl ⟨hne, rfl⟩⟩
    · obtain ⟨h₁, h₂, h₃, h₄⟩ := hstay x (List.mem_append_right _ hx)
      rw [hcont', hdatap', Function.update_of_ne h₂]
      exact hkeep x h₁ h₂ h₃ h₄
    · rw [hcont', Function.update_self]
      rfl
    · exact ⟨B, by rw [hdatap', hdmp]⟩
    · rfl
    · rw [hcont', Function.update_of_ne hmt.symm, htcont]
      have hs := h.msgs.seg (pre ++ mp :: ([] ++ l)) (by simp)
      rw [hs.next_eq]
      refine hsegl.congr fun x hx => ?_
      obtain ⟨h₁, h₂, h₃, h₄⟩ := hstay x (List.mem_append_left _ hx)
      rw [Function.update_of_ne h₂]
      exact (hkeep x h₁ h₂ h₃ h₄).1
    · rcases List.mem_cons.mp hx with rfl | hx
      · have hout : ∀ y ∈ pre ++ ms.flatten, y ≠ x := fun y hy =>
          (hstay y (List.mem_append_right _ hy)).1
        exact ⟨h.lt.1, fun hm => hout x (by simp [hm]) rfl, hmt.symm,
          fun hm => hout x (List.mem_append_right _ hm) rfl, A, by rw [hdatap', htdatap]⟩
      · obtain ⟨h₁, h₂, h₃, h₄⟩ := hstay x (List.mem_append_left _ hx)
        obtain ⟨d, hd⟩ := h.msgs.data x (hlin x hx)
        exact ⟨((h.msgs.cover x).mp (hlin x hx)).1, (hpart x hx).1, h₂, (hpart x hx).2, d, by
          rw [hdatap', (hkeep x h₁ h₂ h₃ h₄).2, hd]⟩
    · have hlx : x ∈ l → x ≠ tmp ∧ x ≠ nbp ∧ x ∉ rest := fun hm => hapart x (hflat ▸ hlin x hm)
      have htx : x = tmp → x ≠ nbp ∧ x ∉ rest := fun he =>
        ⟨fun hn => htn (he.symm.trans hn), fun hm => htrest (List.mem_cons_of_mem _ (he ▸ hm))⟩
      simp only [List.reverse_nil, List.nil_append, List.mem_cons]
      clear * - hlx htx
      grind
  | inr he =>
    obtain ⟨heq, rfl⟩ := he
    obtain ⟨k₂, hk₂, hacc₂, hone, hcont₂⟩ := freeb_spec (hacc₁.setCont mp l.head?)
      (b := tmp) (hsize₁ ▸ h.lt.1) (by rw [setCont_datap, htdatap])
    have hsame : ∀ x, x ≠ tmp → k₂.cont x = Function.update k₁.cont mp l.head? x ∧
        k₂.datap x = k₁.datap x := fun x hx => by
      rw [← setCont_cont, ← setCont_datap k₁ mp l.head?, Pool.cont, Pool.datap, hone.same x hx]
      exact ⟨rfl, rfl⟩
    have hnfl₂ : nbp ∉ tmp :: (done.reverse ++ rest) := fun hm =>
      (List.mem_cons.mp hm).elim htn.symm hnfl
    refine ⟨_, _, l, by rw [if_neg (not_not.mpr heq), hk₂]; rfl,
      mbfree_spec hacc₂ (by rw [hone.size]; exact hsize₁ ▸ h.lt.2) hnfl₂
        (by rw [(hsame nbp htn.symm).2]; exact hnone),
      h.msgs.retail (fun x hx => ?_) ?_ ⟨B, ?_⟩ ?_ (hone.size.trans hsize₁) hlnd
        (fun x hx => ?_) fun x => ?_, .inr ⟨heq, rfl⟩⟩
    · obtain ⟨h₁, h₂, h₃, h₄⟩ := hstay x (List.mem_append_right _ hx)
      rw [mbfree_cont, mbfree_datap, (hsame x h₁).1, (hsame x h₁).2, Function.update_of_ne h₂]
      exact hkeep x h₁ h₂ h₃ h₄
    · rw [mbfree_cont, (hsame mp hmt).1, Function.update_self]
    · rw [mbfree_datap, (hsame mp hmt).2, hdmp]
    · refine hsegl.congr fun x hx => ?_
      obtain ⟨h₁, h₂, h₃, h₄⟩ := hstay x (List.mem_append_left _ hx)
      rw [mbfree_cont, (hsame x h₁).1, Function.update_of_ne h₂]
      exact (hkeep x h₁ h₂ h₃ h₄).1
    · obtain ⟨h₁, h₂, h₃, h₄⟩ := hstay x (List.mem_append_left _ hx)
      obtain ⟨d, hd⟩ := h.msgs.data x (hlin x hx)
      exact ⟨((h.msgs.cover x).mp (hlin x hx)).1, (hpart x hx).1, h₂, (hpart x hx).2, d, by
        rw [mbfree_datap, (hsame x h₁).2, (hkeep x h₁ h₂ h₃ h₄).2, hd]⟩
    · have hlx : x ∈ l → x ≠ tmp ∧ x ≠ nbp ∧ x ∉ rest := fun hm => hapart x (hflat ▸ hlin x hm)
      have hld : x ∈ l → x ∉ done := fun hm => (hstay x (List.mem_append_left _ hm)).2.2.2
      simp only [List.mem_cons, List.mem_append, List.mem_reverse]
      clear * - hlx hld
      grind

/- A run of pullup that gets its blocks `tmp` and `nbp`: `k₁` is with them, `k₂` behind the loop,
which frees the blocks `done`. -/
structure Pull (k : Pool) (mp : Nat) (suf : List Nat) (len : Int) (tmp nbp A B : Nat)
    (k₀ k₁ k₂ : Pool) (left : Option Nat) (done l new : List Nat) (k' : Pool) : Prop where
  free : k.mbfreelist = some tmp
  alloc : allocb len BPRI_MED { k with mbfreelist := k.next tmp } = (some nbp, k₀)
  apart : tmp ≠ nbp
  out : ∀ x ∈ mp :: suf, x ≠ tmp ∧ x ≠ nbp
  head : k.datap mp = some A
  datap : k₀.datap nbp = some B
  start : k₁ = k₀.setDb B { k₀.db B with dbType := (k₀.db A).dbType }
  loop : pullupLoop mp nbp k₁.nmblock (some mp) len k₁ = some (left, k₂)
  tail : suf = done ++ l
  count : k₂.nmblock = k.nmblock
  finish : pullupEnd tmp mp nbp left k₂ = some k'
  stop : ((k₂.mb mp).bRptr ≠ (k₂.mb mp).bWptr ∧ done = [] ∧ new = tmp :: l) ∨
    ((k₂.mb mp).bRptr = (k₂.mb mp).bWptr ∧ left = l.head? ∧ new = l)

/-- A message block that was taken for nothing is put back. -/
theorem mbfree_back {tmp : Nat} (h : k.mbfreelist = some tmp) :
    mbfree tmp { k with mbfreelist := k.next tmp } = k := by
  have hmb : Function.update k.mb tmp { k.mb tmp with bNext := k.next tmp } = k.mb :=
    Function.update_eq_self tmp k.mb
  simp only [mbfree, Pool.setMb, hmb, ← h]

/-- The first free message block is taken. -/
theorem Account.pop {tmp : Nat} {rest : List Nat} (h : Account nd k (tmp :: rest)) :
    Account nd { k with mbfreelist := k.next tmp } rest := by
  obtain ⟨dfl, hdata⟩ := h.data
  exact ⟨h.seg.2, (List.nodup_cons.mp h.nodup).2, fun x hx => h.lt x (List.mem_cons_of_mem tmp hx),
    fun x hx => h.nodata x (List.mem_cons_of_mem tmp hx), h.inside, dfl,
    hdata.congr (fun _ => ⟨rfl, rfl, rfl⟩) rfl rfl⟩

/-- pullupmsg gives the head block other data and another tail, or leaves all as it is. -/
theorem pullup_spec {pre suf : List Nat} {mp : Nat} {len : Int} (hacc : Account nd k fl)
    (h : Msgs k fl ((pre ++ mp :: suf) :: ms))
    (hok : len = 0 → (k.mb mp).bRptr = (k.mb mp).bWptr → ∀ tmp, k.mbfreelist = some tmp →
      (allocb len BPRI_MED { k with mbfreelist := k.next tmp }).1 = none) :
    pullup mp len k = some (false, k) ∨ ∃ k' fl' new, pullup mp len k = some (true, k') ∧
      Account nd k' fl' ∧ Msgs k' fl' ((pre ++ mp :: new) :: ms) ∧
      ∃ tmp nbp A B k₀ k₁ k₂ left done l,
        Pull k mp suf len tmp nbp A B k₀ k₁ k₂ left done l new k' := by
  cases hfree : k.mbfreelist with
  | none => exact .inl (by simp only [pullup, hfree])
  | some tmp =>
    obtain ⟨rest, rfl⟩ := hacc.free_cons hfree
    obtain ⟨htrest, hrest⟩ := List.nodup_cons.mp hacc.nodup
    have hacc₁ := hacc.pop
    have htmp := hacc.lt tmp (by simp)
    have hdtmp := hacc.nodata tmp (by simp)
    have hin : mp ∈ ((pre ++ mp :: suf) :: ms).flatten := by simp
    obtain ⟨A, hA⟩ := h.data mp hin
    obtain ⟨hmlt, hmfl⟩ := (h.cover mp).mp hin
    cases halloc : allocb len BPRI_MED { k with mbfreelist := k.next tmp } with
    | mk r k₂ =>
      cases allocb_spec hacc₁ len BPRI_MED with
      | inl hf =>
        rw [halloc] at hf
        cases hf
        exact .inl (by simp only [pullup, hfree, halloc, mbfree_back hfree])
      | inr hf =>
        obtain ⟨nbp, rest₂, hn, hg⟩ := hf
        rw [halloc] at hn hg
        have hr : r = some nbp := hn
        subst hr
        obtain ⟨B, hB⟩ := hg.data
        have hlist := hg.list
        subst hlist
        have hsize : k₂.nmblock = k.nmblock := hg.one.size
        have hmb : ∀ x, x ≠ nbp → k₂.mb x = k.mb x := hg.one.same
        have hne : ∀ x ∈ ((pre ++ mp :: suf) :: ms).flatten, x ≠ nbp := fun x hx he =>
          ((h.cover x).mp hx).2 (by simp [he])
        let k₃ := k₂.setDb B { k₂.db B with dbType := (k₂.db A).dbType }
        have hacc₃ : Account nd k₃ rest₂ := by
          refine hg.acc.congr (fun _ _ => rfl) rfl rfl rfl (fun x => ?_) rfl rfl
          by_cases hx : x = B <;> simp [k₃, Pool.setDb, hx]
        have hmsgs₃ : Msgs k₃ (tmp :: nbp :: rest₂) ((pre ++ mp :: suf) :: ms) := by
          refine h.congr (fun x hx => ?_) (fun x hx => ?_) hsize
          · exact congrArg Mblk.bCont (hmb x (hne x hx))
          · exact congrArg Mblk.bDatap (hmb x (hne x hx))
        have htn : tmp ≠ nbp := fun he => htrest (by simp [he])
        have hspare : Spare nd k₃ ms rest₂ (pre ++ mp :: suf) tmp nbp :=
          ⟨hmsgs₃, hacc.nodup, ⟨hsize ▸ htmp, hsize ▸ hacc.lt nbp (by simp)⟩,
            (congrArg Mblk.bDatap (hmb tmp htn)).trans hdtmp, B, hB⟩
        have hnd := h.nodup
        rw [List.flatten_cons, List.append_assoc, List.cons_append] at hnd
        have hmid := List.nodup_cons.mp (List.perm_middle.nodup_iff.mp hnd)
        have hs := hmsgs₃.seg (pre ++ mp :: suf) (by simp)
        have hseg₃ : Seg k₃.cont (k₃.cont mp) suf := by
          rw [hs.next_eq]
          exact (@Seg.suffix _ _ _ (pre ++ [mp])) (by simpa using hs)
        have hfuel : suf.length < k₃.nmblock := by
          have hlen := hmsgs₃.length_le (List.mem_cons_self ..)
          rw [List.length_append, List.length_cons] at hlen
          omega
        obtain ⟨left, k₄, done, l, hloop, htail, hacc₄, hcont₄, hdatap₄, hsize₄, hend⟩ :=
          (@pullupLoop_head _ _ _ _ _ _ _ len) hacc₃ hseg₃
            (hmid.2.sublist ((List.sublist_append_left _ _).trans (List.sublist_append_right _ _)))
            (fun hm => hmid.1 (by simp [hm])) (hne mp hin)
            (fun x hx => ⟨((hmsgs₃.cover x).mp (by simp [hx])).1, hmsgs₃.data x (by simp [hx])⟩)
            hfuel fun hz he => by
              have hm : k₃.mb mp = k.mb mp := hmb mp (hne mp hin)
              rw [hm] at he
              have hnone := hok hz he tmp hfree
              rw [halloc] at hnone
              cases hnone
        rw [htail] at hspare
        obtain ⟨k', fl', new, hk', hacc', hmsgs', hnew⟩ :=
          pullupEnd_spec hspare hacc₄ hcont₄ hdatap₄ hsize₄ hend
        have hA₂ : (k₂.mb mp).bDatap = some A :=
          (congrArg Mblk.bDatap (hmb mp (hne mp hin))).trans hA
        have hB₂ : (k₂.mb nbp).bDatap = some B := hB
        have hsub : ∀ x ∈ mp :: suf, x ∈ ((pre ++ mp :: suf) :: ms).flatten := fun x hx =>
          List.mem_append_left _ (List.mem_append_right _ hx)
        have hstop : ((k₄.mb mp).bRptr ≠ (k₄.mb mp).bWptr ∧ done = [] ∧ new = tmp :: l) ∨
            ((k₄.mb mp).bRptr = (k₄.mb mp).bWptr ∧ left = l.head? ∧ new = l) := by
          rcases hend with ⟨h₁, h₂⟩ | ⟨h₁, h₂⟩ <;> rcases hnew with ⟨h₃, h₄⟩ | ⟨h₃, h₄⟩
          · exact .inl ⟨h₁, h₂, h₄⟩
          · exact absurd h₃ h₁
          · exact absurd h₁ h₃
          · exact .inr ⟨h₁, h₂, h₄⟩
        refine .inr ⟨k', fl', new, ?_, hacc', hmsgs', tmp, nbp, A, B, k₂, k₃, k₄, left, done, l,
          hfree, halloc, htn, fun x hx => ⟨?_, hne x ?_⟩, hA, hB, rfl, hloop, htail,
          hsize₄.trans hsize, hk', hstop⟩
        · simp only [pullup, hfree, halloc, hA₂, hB₂, Option.bind_eq_bind, Option.bind_some]
          show (pullupLoop mp nbp k₃.nmblock (some mp) len k₃).bind _ = _
          rw [hloop]
          show (pullupEnd tmp mp nbp left k₄).bind _ = _
          rw [hk']
          rfl
        · rintro rfl
          exact ((h.cover x).mp (hsub x hx)).2 List.mem_cons_self
        · exact hsub x hx

theorem xmsgsizeLoop_some {l : List Nat} {t : BitVec 8} {p : Option Nat} {fuel : Nat} {c : Int}
    (hs : Seg k.cont p l) (hd : ∀ x ∈ l, ∃ d, k.datap x = some d) (hfuel : l.length ≤ fuel) :
    ∃ n, xmsgsizeLoop t fuel p c k = some n := by
  induction l generalizing p fuel c with
  | nil =>
    have hp : p = none := hs
    rw [hp]
    exact ⟨c, by cases fuel <;> rfl⟩
  | cons x l ih =>
    obtain ⟨m, rfl⟩ := Nat.exists_eq_succ_of_ne_zero (Nat.ne_zero_of_lt hfuel)
    obtain ⟨d, hd'⟩ := hd x (by simp)
    have hdm : (k.mb x).bDatap = some d := hd'
    have hp : p = some x := hs.1
    simp only [hp, xmsgsizeLoop, hdm, Option.bind_eq_bind, Option.bind_some]
    split
    · exact ⟨c, rfl⟩
    · exact ih hs.2 (fun y hy => hd y (List.mem_cons_of_mem x hy)) (Nat.le_of_succ_le_succ hfuel)

theorem xmsgsize_some {pre suf : List Nat} {mp : Nat} (h : Msgs k fl ((pre ++ mp :: suf) :: ms)) :
    ∃ n, xmsgsize mp k = some n := by
  have hs := h.seg (pre ++ mp :: suf) (by simp)
  have hlen := h.length_le (List.mem_cons_self ..)
  rw [List.length_append] at hlen
  obtain ⟨d, hd⟩ := h.data mp (by simp)
  have hdm : (k.mb mp).bDatap = some d := hd
  obtain ⟨n, hn⟩ := (@xmsgsizeLoop_some _ _ (k.db d).dbType _ k.nmblock 0)
    hs.suffix (fun x hx => h.data x (List.mem_append_left _ (List.mem_append_right pre hx)))
    (by omega)
  exact ⟨n, by simp only [xmsgsize, hdm, Option.bind_eq_bind, Option.bind_some]; exact hn⟩

/-- testb says when allocb finds a data block. -/
theorem allocb_test {size : Int} {pri : Nat} (h : (allocb size pri k).1 ≠ none) :
    testb size pri k = true ∧ k.mbfreelist ≠ none := by
  have hgot : ∀ c dp, (gotdp c dp k).1 ≠ none → k.mbfreelist ≠ none := by
    intro c dp hne hnone
    simp only [gotdp, hnone, ne_eq, not_true_eq_false] at hne
  by_cases hc : nclass ≤ getclass size
  · simp only [allocb, if_pos hc, ne_eq, not_true_eq_false] at h
  · have hlt : getclass size < nclass := Nat.lt_of_not_le hc
    cases hr : room (getclass size) pri k with
    | some dp =>
      simp only [allocb, if_neg hc, hr] at h
      exact ⟨by simp [testb, hlt, hr], hgot _ dp h⟩
    | none =>
      by_cases hlast : getclass size = nclass - 1
      · simp only [allocb, if_neg hc, hr, if_pos hlast, ne_eq, not_true_eq_false] at h
      · cases hr' : room (getclass size + 1) pri k with
        | none => simp only [allocb, if_neg hc, hr, if_neg hlast, hr', ne_eq,
            not_true_eq_false] at h
        | some dp =>
          simp only [allocb, if_neg hc, hr, if_neg hlast, hr'] at h
          exact ⟨by simp [testb, hlt, hr', hlast], hgot _ dp h⟩

/- pullupmsg is to pull up no bytes, the head block is empty, the quick checks do not settle
   it, and the blocks for it can be had. -/
def PullsNothing (mp : Nat) (len : Int) (k : Pool) : Prop :=
  (k.mb mp).bRptr = (k.mb mp).bWptr ∧
    ((len = -1 ∧ ¬ ((k.mb mp).bCont = none ∧ strAligned (k.mb mp).bRptr) ∧
      xmsgsize mp k = some 0) ∨ (len = 0 ∧ ¬ strAligned (k.mb mp).bRptr)) ∧
    (∃ tmp, k.mbfreelist = some tmp ∧ k.next tmp ≠ none) ∧ testb 0 BPRI_MED k = true

theorem pullupmsg_spec {pre suf : List Nat} {mp : Nat} {len : Int} (hacc : Account nd k fl)
    (h : Msgs k fl ((pre ++ mp :: suf) :: ms)) (hok : ¬ PullsNothing mp len k) :
    ∃ r k' fl' new, pullupmsg mp len k = some (r, k') ∧ Account nd k' fl' ∧
      Msgs k' fl' ((pre ++ mp :: new) :: ms) := by
  obtain ⟨size, hsize⟩ := xmsgsize_some h
  have hpull : ∀ n : Int, (n = 0 → (k.mb mp).bRptr = (k.mb mp).bWptr →
      ((len = -1 ∧ ¬ ((k.mb mp).bCont = none ∧ strAligned (k.mb mp).bRptr) ∧
        xmsgsize mp k = some 0) ∨ (len = 0 ∧ ¬ strAligned (k.mb mp).bRptr))) →
      ∃ r k' fl' new, pullup mp n k = some (r, k') ∧ Account nd k' fl' ∧
        Msgs k' fl' ((pre ++ mp :: new) :: ms) := by
    intro n hn
    have hspec := @pullup_spec nd k fl ms pre suf mp n hacc h fun hz he tmp htmp => by
      by_contra hne
      rw [hz] at hne
      obtain ⟨htest, hnext⟩ := allocb_test hne
      exact hok ⟨he, hn hz he, ⟨tmp, htmp, hnext⟩, htest⟩
    rcases hspec with hf | ⟨k', fl', new, hk', hacc', hmsgs', -⟩
    · exact ⟨false, k, fl, suf, hf, hacc, h⟩
    · exact ⟨true, k', fl', new, hk', hacc', hmsgs'⟩
  by_cases hlen : len = -1
  · by_cases hquick : ((k.mb mp).bCont = none && strAligned (k.mb mp).bRptr) = true
    · exact ⟨true, k, fl, suf, by simp only [pullupmsg, if_pos hlen, if_pos hquick], hacc, h⟩
    · obtain ⟨r, k', fl', new, hk', hout⟩ := hpull size fun hz _ =>
        .inl ⟨hlen, fun hq => hquick (by simp [hq.1, hq.2]), hz ▸ hsize⟩
      refine ⟨r, k', fl', new, ?_, hout⟩
      simp only [pullupmsg, if_pos hlen, if_neg hquick, hsize, Option.bind_eq_bind,
        Option.bind_some, hk']
  · by_cases hquick :
      (decide ((k.mb mp).bWptr - (k.mb mp).bRptr ≥ len) && strAligned (k.mb mp).bRptr) = true
    · exact ⟨true, k, fl, suf, by simp only [pullupmsg, if_neg hlen, if_pos hquick], hacc, h⟩
    · by_cases hshort : size < len
      · refine ⟨false, k, fl, suf, ?_, hacc, h⟩
        simp only [pullupmsg, if_neg hlen, if_neg hquick, hsize, Option.bind_eq_bind,
          Option.bind_some, if_pos hshort]
        rfl
      · obtain ⟨r, k', fl', new, hk', hout⟩ := hpull len fun hz he =>
          .inr ⟨hz, fun ha => hquick (by rw [ha, he, hz]; simp)⟩
        refine ⟨r, k', fl', new, ?_, hout⟩
        simp only [pullupmsg, if_neg hlen, if_neg hquick, hsize, Option.bind_eq_bind,
          Option.bind_some, if_neg hshort, hk']

end Svr32.Stream
