import Svr32.Uucp.Frame

/-! A frame that pkxstart writes is taken by pkgetpack and pkaccept as it was meant, and with one
byte behind the sync byte changed it is not taken. -/
namespace Svr32.Uucp
open Lib (Arr put put_self put_ne)

/- The two bytes of a word, put together again. -/
theorem word_bytes (w : Word) : (low w).setWidth 16 ||| (high w).setWidth 16 <<< 8 = w := by
  unfold low high
  apply BitVec.eq_of_getLsbD_eq
  intro i hi
  simp only [BitVec.getLsbD_or, BitVec.getLsbD_setWidth, BitVec.getLsbD_shiftLeft,
    BitVec.getLsbD_ushiftRight]
  by_cases h : i < 8
  · simp [h, hi]
  · have hle : 8 ≤ i := Nat.le_of_not_lt h
    have hhigh : i - 8 < 8 ∧ i - 8 < 16 := by omega
    simp [h, hi, hhigh, Nat.add_sub_cancel' hle]

/-- The receiver is up. -/
def Up (pk : Pack) : Prop := pk.state &&& DOWN = 0 ∧ pk.connodata ≤ CONNODATA

def counted (pk : Pack) : Pack := { pk with connodata := pk.connodata + 1 }

/- pkgetpack with a header in front. -/
theorem pkgetpack_cons {pk : Pack} (h : Up pk) (k p₂ p₃ cntl ccntl : Byte) (rest : List Byte) :
    pkgetpack pk (SYN :: k :: p₂ :: p₃ :: cntl :: ccntl :: rest) =
      let sum : Word := p₂.setWidth 16 ||| p₃.setWidth 16 <<< 8
      if k ^^^ p₂ ^^^ p₃ ^^^ cntl ≠ ccntl then some (.badHeader, counted pk, rest)
      else if k = 9 then
        if sum.toNat + cntl.toNat = CHECK.toNat then some (.control cntl, counted pk, rest)
        else some (.badCheck, { counted pk with state := pk.state ||| BADFRAME }, rest)
      else if k ≠ 0 ∧ pksizes[k.toNat]? = some pk.rsize then
        if pk.ipool = 0 then some (.lost, counted pk, rest)
        else if rest.length < pk.rsize then some (.lost, counted pk, [])
        else some (.data cntl, pkdata cntl sum (rest.take pk.rsize) (counted pk), rest.drop pk.rsize)
      else some (.ignored, counted pk, rest) := by
  have hup : ¬ (pk.state &&& DOWN ≠ 0 ∨ pk.connodata > CONNODATA) := by
    rintro (hdown | hdata)
    · exact hdown h.1
    · exact absurd h.2 (Nat.not_le.mpr hdata)
  rw [pkgetpack, if_neg hup, findSync, if_pos rfl]
  rfl

/-- Every control byte comes through. -/
theorem control_frame {pk : Pack} (h : Up pk) (cntl : Byte) (rest : List Byte) :
    pkgetpack pk (header 9 cntl (cntl.setWidth 16) ++ rest) =
      some (.control cntl, counted pk, rest) := by
  have hle : (cntl.setWidth 16 : Word).toNat ≤ 255 := by
    rw [BitVec.toNat_setWidth]
    have := cntl.isLt
    omega
  have hsum : (CHECK - cntl.setWidth 16).toNat + cntl.toNat = CHECK.toNat := by
    have hcntl : (cntl.setWidth 16 : Word).toNat = cntl.toNat := by
      rw [BitVec.toNat_setWidth]
      have := cntl.isLt
      omega
    rw [BitVec.toNat_sub, hcntl]
    have := cntl.isLt
    have hcheck : CHECK.toNat = 43690 := rfl
    omega
  rw [header]
  simp only [List.cons_append, List.nil_append]
  rw [pkgetpack_cons h]
  dsimp only
  rw [if_neg (fun hne => hne rfl), if_pos rfl, word_bytes, if_pos hsum]

theorem pkgetpack_bad {pk : Pack} (h : Up pk) {k p₂ p₃ cntl ccntl : Byte} (rest : List Byte)
    (hne : k ^^^ p₂ ^^^ p₃ ^^^ cntl ≠ ccntl) :
    pkgetpack pk (SYN :: k :: p₂ :: p₃ :: cntl :: ccntl :: rest) =
      some (.badHeader, counted pk, rest) := by
  rw [pkgetpack_cons h]
  dsimp only
  rw [if_pos hne]

/-- A frame in which one byte behind the sync byte is changed has a bad header. -/
theorem changed_frame {pk : Pack} (h : Up pk) (ksize cntl : Byte) (checkword : Word) (i : Nat)
    (b : Byte) (h₁ : 1 ≤ i) (hi : i < 6) (hb : (header ksize cntl checkword)[i]? ≠ some b)
    (rest : List Byte) :
    pkgetpack pk ((header ksize cntl checkword).set i b ++ rest) =
      some (.badHeader, counted pk, rest) := by
  rw [header] at hb ⊢
  generalize low (CHECK - checkword) = x at *
  generalize high (CHECK - checkword) = y at *
  have hcases : i = 1 ∨ i = 2 ∨ i = 3 ∨ i = 4 ∨ i = 5 := by omega
  rcases hcases with rfl | rfl | rfl | rfl | rfl
  · apply pkgetpack_bad h rest
    intro heq
    rw [BitVec.xor_left_inj, BitVec.xor_left_inj, BitVec.xor_left_inj] at heq
    exact hb (congrArg some heq.symm)
  · apply pkgetpack_bad h rest
    intro heq
    rw [BitVec.xor_left_inj, BitVec.xor_left_inj, BitVec.xor_right_inj] at heq
    exact hb (congrArg some heq.symm)
  · apply pkgetpack_bad h rest
    intro heq
    rw [BitVec.xor_left_inj, BitVec.xor_right_inj] at heq
    exact hb (congrArg some heq.symm)
  · apply pkgetpack_bad h rest
    intro heq
    rw [BitVec.xor_right_inj] at heq
    exact hb (congrArg some heq.symm)
  · apply pkgetpack_bad h rest
    exact fun heq => hb (congrArg some heq)

/-- What is in front of a sync byte is gone over. -/
theorem findSync_skip {p : Byte} (h : p ≠ SYN) (input : List Byte) :
    findSync (p :: input) = findSync input := by
  rw [findSync, if_neg h]

theorem fill_length {xsize : Nat} {data garbage : List Byte} (hd : data.length ≤ xsize)
    (hg : xsize ≤ garbage.length) : (fill xsize data garbage).length = xsize := by
  rw [fill]
  split
  · rw [List.length_take, List.length_append, List.length_append]
    omega
  · rw [List.length_take]
    omega

/- The count bytes say how many bytes are not there, and are gone over. -/
theorem countBytes_spec (fc : Nat) (h₁ : 1 ≤ fc) (h : fc ≤ PKMAXBUF) (l : List Byte) :
    shortCount (countBytes fc ++ l) = fc ∧ (countBytes fc).length ≤ fc ∧
      skipCount (countBytes fc ++ l) = l := by
  by_cases hbig : fc = 128
  · subst hbig
    have htop : (BitVec.ofNat 8 (128 &&& 127) ||| 128 : Byte) &&& 128 ≠ 0 := by decide
    have htop' : (BitVec.ofNat 8 (128 &&& 127) ||| 128 : Byte).toNat &&& 128 ≠ 0 := by decide
    have hval : (BitVec.ofNat 8 (128 &&& 127) ||| 128 : Byte).toNat &&& 127 |||
        (BitVec.ofNat 8 (128 >>> 7) : Byte).toNat <<< 7 = 128 := by decide
    exact ⟨(if_pos htop').trans hval, by decide, if_pos htop⟩
  · have hle : ¬ fc > 127 := by
      unfold PKMAXBUF at h
      omega
    have hand : fc &&& 127 = fc := by
      rw [Nat.and_two_pow_sub_one_eq_mod fc 7]
      omega
    have hnat : (BitVec.ofNat 8 fc).toNat = fc := by
      rw [BitVec.toNat_ofNat]
      omega
    have hbit : ∀ n < 128, n &&& 128 = 0 := by decide
    have hzero : BitVec.ofNat 8 fc &&& 128 = 0 := by
      apply BitVec.eq_of_toNat_eq
      rw [BitVec.toNat_and, hnat]
      exact hbit fc (by omega)
    have hcount : ∀ b : Byte, b.toNat &&& 128 = 0 → shortCount (b :: l) = b.toNat :=
      fun b hb => if_neg fun hne => hne hb
    have hskip : ∀ b : Byte, b &&& 128 = 0 → skipCount (b :: l) = l :=
      fun b hb => if_neg fun hne => hne hb
    rw [countBytes, if_neg hle, hand]
    refine ⟨?_, h₁, hskip _ hzero⟩
    exact (hcount _ (by rw [hnat]; exact hbit fc (by omega))).trans hnat

/-- The receiver waits for a packet, with none in its slots. -/
structure Waiting (pk : Pack) : Prop where
  state : pk.state &&& DRAINO = 0 ∧ pk.state &&& LIVE ≠ 0
  pr : pk.pr < 8
  window : 1 ≤ pk.rwindow ∧ pk.rwindow ≤ 7
  pool : pk.ipool ≠ 0
  imap : pk.imap = 0
  is : ∀ x, pk.is x = 0

/- The first slot that is looked at. -/
theorem pkdata_waiting {pk : Pack} (h : Waiting pk) (c : Byte) (sum : Word) (bp : List Byte) :
    pkdata c sum bp pk = { pk with
      imap := 1 <<< pk.pr, ipool := pk.ipool - 1,
      is := put pk.is pk.pr c, isum := put pk.isum pk.pr sum, ib := put pk.ib pk.pr bp } := by
  have hpr : (pk.pr + 8 - 0) % 8 = pk.pr := by
    have := h.pr
    omega
  have hslots : slots pk.pr = pk.pr :: (slots pk.pr).tail := by
    rw [slots]
    change (pk.pr + 8 - 0) % 8 :: _ = pk.pr :: _
    rw [hpr]
    rfl
  have hlive : ¬ (pk.state &&& DRAINO ≠ 0 ∨ pk.state &&& LIVE = 0) :=
    not_or.mpr ⟨fun hne => hne h.state.1, h.state.2⟩
  rw [pkdata, if_neg hlive, hslots, List.find?_cons_of_pos (by rw [h.is]; rfl)]
  dsimp only
  rw [h.imap, Nat.zero_or]

theorem foldl_once {σ : Type} (f : σ → Nat → σ) (a : Nat) (l : List Nat) (hl : l.Nodup)
    (ha : a ∈ l) (hf : ∀ s, ∀ x, x ≠ a → f s x = s) (s : σ) : l.foldl f s = f s a := by
  have hnone : ∀ (l : List Nat), a ∉ l → ∀ s, l.foldl f s = s := by
    intro l
    induction l with
    | nil => exact fun _ _ => rfl
    | cons x l ih =>
      intro hno s
      rw [List.foldl_cons, hf s x fun heq => hno (heq ▸ List.mem_cons_self)]
      exact ih (fun hmem => hno (List.mem_cons_of_mem x hmem)) s
  induction l generalizing s with
  | nil => exact absurd ha List.not_mem_nil
  | cons x l ih =>
    rw [List.foldl_cons]
    rw [List.nodup_cons] at hl
    by_cases hx : x = a
    · rw [hx]
      exact hnone l (hx ▸ hl.1) _
    · rw [hf s x hx]
      exact ih hl.2 ((List.mem_cons.mp ha).resolve_left (Ne.symm hx)) s

theorem put_same {α : Type} (a : Arr α) (i : Nat) : put a i (a i) = a :=
  congrArg Arr.mk (Function.update_eq_self i a.get)

/- Slots that are empty stay so, and nothing else is changed. -/
theorem scanLoop_empty (m fuel x : Nat) (s : Scanning) (h : ∀ j < fuel, s.pk.is ((x + j) % 8) = 0)
    (hx : x < 8) : ∃ g, scanLoop m fuel x s = { s with gap := g } := by
  induction fuel generalizing x s with
  | zero => exact ⟨s.gap, rfl⟩
  | succ fuel ih =>
    rw [scanLoop]
    by_cases hbit : m.testBit x = false
    · rw [if_pos hbit]
      exact ⟨s.gap, rfl⟩
    · have hzero : s.pk.is x = 0 := by
        have h₀ := h 0 (Nat.succ_pos fuel)
        rwa [Nat.add_zero, Nat.mod_eq_of_lt hx] at h₀
      have hmark : ¬ (0 : Byte) &&& B_MARK ≠ 0 := by decide
      have hcopy : ¬ (0 : Byte) &&& B_COPY ≠ 0 := by decide
      rw [if_neg hbit, hzero]
      dsimp only
      rw [if_neg hmark, if_neg hcopy]
      have hput : put s.pk.is x 0 = s.pk.is := by
        rw [← hzero]
        exact put_same _ _
      rw [hput]
      apply ih (next x) { s with gap := true } _ (Nat.mod_lt _ (by decide))
      intro j hj
      have hpos : (next x + j) % 8 = (x + (j + 1)) % 8 := by
        rw [next]
        omega
      rw [hpos]
      exact h (j + 1) (by omega)

/- One marked packet at the start of the window is copied. -/
theorem scanLoop_one {m x k : Nat} {q : Pack} (_ : x < 8) (hm : m.testBit x = true)
    (hmark : q.is x &&& B_MARK ≠ 0) (hcopy : (q.is x ||| B_COPY) &&& B_COPY ≠ 0)
    (hrest : ∀ y, y ≠ x → q.is y = 0) :
    ∃ g, scanLoop m 8 x ⟨q, false, 0, k⟩ =
      ⟨{ q with is := put q.is x (q.is x ||| B_COPY) }, g, 1, k⟩ := by
  rw [scanLoop, hm, if_neg (by decide)]
  dsimp only
  rw [if_pos hmark, if_pos hcopy, if_neg Bool.false_ne_true]
  apply scanLoop_empty m 7 (next x) _ _ (Nat.mod_lt _ (by decide))
  intro j hj
  have hpos : (next x + j) % 8 ≠ x := by
    rw [next]
    omega
  change put q.is x _ _ = 0
  rw [put_ne _ _ hpos]
  exact hrest _ hpos

theorem inputWindow_next : ∀ w, 1 ≤ w → w ≤ 7 → ∀ x < 8, (inputWindow w x).testBit x = true := by
  decide

/- The mark of a packet, and the same with COPY. -/
theorem marks (b : Prop) [Decidable b] :
    (if b then B_MARK + B_SHORT else B_MARK) &&& B_MARK ≠ 0 ∧
      ((if b then B_MARK + B_SHORT else B_MARK) ||| B_COPY) &&& B_COPY ≠ 0 ∧
      (((if b then B_MARK + B_SHORT else B_MARK) ||| B_COPY) &&& B_SHORT ≠ 0 ↔ b) := by
  by_cases hb : b
  · rw [if_pos hb]
    exact ⟨by decide, by decide, fun _ => hb, fun _ => by decide⟩
  · rw [if_neg hb]
    exact ⟨by decide, by decide, fun h => absurd h (by decide), fun h => absurd h hb⟩

/- A packet whose sum is right goes to the slot of its sequence number, if that is empty. -/
theorem markSlot_accept {imask m x seq : Nat} {s : Accepting} {cntl : Byte} {osum : Word}
    (hbit : imask.testBit x = true) (hx : s.pk.is x = cntl)
    (hisum : s.pk.isum x = CHECK - (osum ^^^ cntl.setWidth 16))
    (hsum : osum = chksum (s.pk.ib x) s.pk.rsize) (hcntl : cntl &&& 128 ≠ 0)
    (hseq : ((cntl >>> 3) &&& 7).toNat = seq) (hm : m.testBit seq = true)
    (hfree : s.pk.is seq = 0) (hne : x ≠ seq) :
    markSlot imask m x s = { s with pk := { s.pk with
      is := put (put (put s.pk.is x (~~~(B_COPY + B_MARK))) x 0) seq
        (if cntl &&& B_SHORT ≠ 0 then B_MARK + B_SHORT else B_MARK)
      isum := put s.pk.isum seq (BitVec.ofNat 16 (s.pk.rsize -
        if cntl &&& B_SHORT ≠ 0 then shortCount (s.pk.ib x) else 0))
      ib := put (put s.pk.ib x (s.pk.ib seq)) seq (s.pk.ib x) } } := by
  have hcheck : (chksum (s.pk.ib x) s.pk.rsize ^^^ cntl.setWidth 16) + s.pk.isum x = CHECK := by
    rw [hisum, hsum, BitVec.add_comm, BitVec.sub_add_cancel]
  have hempty : put s.pk.is x (~~~(B_COPY + B_MARK)) seq = 0 := by
    rw [put_ne _ _ hne.symm, hfree]
  have hok : ¬ (m.testBit seq = false ∨
      put s.pk.is x (~~~(B_COPY + B_MARK)) seq &&& (B_COPY ||| B_MARK) ≠ 0) := by
    rw [hempty, hm]
    decide
  rw [markSlot, hbit, if_neg (by decide)]
  dsimp only
  rw [hx, if_neg hcntl, if_pos hcheck, hseq, if_neg hok, moveSlot, if_pos hne]
  dsimp only
  rw [hempty, put_self]

/- What pkaccept does with the one packet that pkdata has put in. -/
theorem pkaccept_data {pk : Pack} (h : Waiting pk) {cntl : Byte} (block : List Byte) (osum : Word)
    (hsum : osum = chksum block pk.rsize) (hcntl : cntl &&& 128 ≠ 0)
    (hseq : ((cntl >>> 3) &&& 7).toNat = next pk.pr) :
    let short := cntl &&& B_SHORT ≠ 0
    let pk' := pkaccept (pkdata cntl (CHECK - (osum ^^^ cntl.setWidth 16)) block pk)
    pk'.rcount = 1 ∧ pk'.ib (next pk.pr) = block ∧
      pk'.is (next pk.pr) = (if short then B_MARK + B_SHORT else B_MARK) ||| B_COPY ∧
      pk'.isum (next pk.pr) = BitVec.ofNat 16 (pk.rsize - if short then shortCount block else 0) := by
  have hpr := h.pr
  have hne : pk.pr ≠ next pk.pr := by
    rw [next]
    omega
  have hnext : next pk.pr < 8 := Nat.mod_lt _ (by decide)
  have hwin := inputWindow_next pk.rwindow h.window.1 h.window.2 (next pk.pr) hnext
  have hbits : ∀ x, (1 <<< pk.pr).testBit x = decide (pk.pr = x) := by
    intro x
    rw [Nat.one_shiftLeft, Nat.testBit_two_pow]
  rw [pkdata_waiting h, pkaccept]
  dsimp only
  rw [foldl_once _ pk.pr (List.range 8) List.nodup_range (List.mem_range.mpr hpr) fun s x hx => by
      rw [markSlot, if_pos (by rw [hbits]; exact decide_eq_false (Ne.symm hx))],
    markSlot_accept (by rw [hbits]; exact decide_eq_true rfl) (put_self _ _ _) (put_self _ _ _)
      (by rw [put_self]; exact hsum) hcntl hseq hwin (by rw [put_ne _ _ hne.symm]; exact h.is _) hne]
  dsimp only
  rw [put_self]
  obtain ⟨hm, hc, -⟩ := marks (cntl &&& B_SHORT ≠ 0)
  generalize (if cntl &&& B_SHORT ≠ 0 then B_MARK + B_SHORT else B_MARK) = mark at hm hc ⊢
  generalize hq : Pack.mk _ _ _ _ _ _ _ _ _ _ _ _ = q
  have his : q.is (next pk.pr) = mark := by
    rw [← hq]
    exact put_self _ _ _
  obtain ⟨g, hscan⟩ := scanLoop_one (q := q) (k := 0) hnext hwin (by rw [his]; exact hm)
    (by rw [his]; exact hc) fun y hy => by
      rw [← hq]
      change put _ _ _ y = 0
      rw [put_ne _ _ hy]
      by_cases hyp : y = pk.pr
      · rw [hyp, put_self]
      · rw [put_ne _ _ hyp, put_ne _ _ hyp, put_ne _ _ hyp]
        exact h.is y
  rw [hscan]
  dsimp only
  rw [put_self, his, ← hq]
  dsimp only
  rw [put_self, put_self]
  exact ⟨rfl, rfl, rfl, rfl⟩

/-- The sizes that the two ends have agreed on, which the buffer of pkxstart has room for. -/
structure Agreed (s : Sender) (pk : Pack) : Prop where
  code : s.lpsize ≠ 0 ∧ s.lpsize ≠ 9 ∧ pksizes[s.lpsize.toNat]? = some s.xsize
  size : pk.rsize = s.xsize
  room : s.xsize ≤ PKMAXBUF

/- What pkread hands out of the buffer that pkwrite has filled. -/
theorem fill_read {xsize : Nat} {data : List Byte} (garbage : List Byte) (hroom : xsize ≤ PKMAXBUF)
    (hd : data.length ≤ xsize) :
    let block := fill xsize data garbage
    (if data.length < xsize then skipCount block else block).take
      (xsize - if data.length < xsize then shortCount block else 0) = data := by
  dsimp only
  by_cases hshort : data.length < xsize
  · obtain ⟨-, hlen, -⟩ := countBytes_spec (xsize - data.length) (by omega) (by omega) []
    have hblock : fill xsize data garbage = countBytes (xsize - data.length) ++
        (data ++ garbage.take (xsize - (countBytes (xsize - data.length)).length - data.length)) := by
      rw [fill, if_pos hshort, List.append_assoc, List.take_append,
        List.take_of_length_le (by omega), List.take_append, List.take_of_length_le (by omega)]
    obtain ⟨hcount, -, hskip⟩ := countBytes_spec (xsize - data.length) (by omega) (by omega)
      (data ++ garbage.take (xsize - (countBytes (xsize - data.length)).length - data.length))
    rw [if_pos hshort, if_pos hshort, hblock, hcount, hskip, Nat.sub_sub_self hd, List.take_left]
  · have heq : data.length = xsize := by omega
    rw [if_neg hshort, if_neg hshort, fill, if_neg hshort, ← heq, Nat.sub_zero, List.take_length,
      List.take_length]

/-- A data packet, full or short, is handed out as it was written. -/
theorem data_frame {s : Sender} {pk : Pack} (hup : Up pk) (hwait : Waiting pk) (hag : Agreed s pk)
    {data garbage : List Byte} (hd : data.length ≤ s.xsize) (hg : s.xsize ≤ garbage.length)
    {cntl : Byte} (hcntl : cntl &&& 128 ≠ 0) (hshort : cntl &&& B_SHORT ≠ 0 ↔ data.length < s.xsize)
    (hseq : ((cntl >>> 3) &&& 7).toNat = next pk.pr) {x : Nat}
    (hob : s.ob x = fill s.xsize data garbage) (hosum : s.osum x = chksum (s.ob x) s.xsize)
    (rest : List Byte) :
    ∃ frame pk', pkxstart s cntl (some x) = some frame ∧
      pkgetpack pk (frame ++ rest) = some (.data cntl, pk', rest) ∧
      (pkaccept pk').rcount = 1 ∧ pkread (pkaccept pk') (next pk.pr) = data := by
  obtain ⟨⟨hk₀, hk₉, hk⟩, hsize, hroom⟩ := hag
  have hlen := fill_length hd hg
  have hroom' : ¬ s.xsize > PKMAXBUF := Nat.not_lt.mpr hroom
  have htake : (s.ob x).take s.xsize = fill s.xsize data garbage := by
    rw [hob]
    exact List.take_of_length_le (Nat.le_of_eq hlen)
  have hwait' : Waiting (counted pk) :=
    ⟨hwait.state, hwait.pr, hwait.window, hwait.pool, hwait.imap, hwait.is⟩
  rw [hob] at hosum
  obtain ⟨hcount, hib, his, hisum⟩ := pkaccept_data hwait' (fill s.xsize data garbage)
    (s.osum x) (by rw [hosum, ← hsize]; rfl) hcntl hseq
  refine ⟨_, _, by rw [pkxstart, if_neg hroom', htake], ?_, hcount, ?_⟩
  · rw [header]
    simp only [List.cons_append, List.nil_append]
    rw [pkgetpack_cons hup]
    dsimp only
    rw [if_neg (fun hne => hne rfl), if_neg hk₉, hsize, if_pos ⟨hk₀, hk⟩, if_neg hwait.pool,
      if_neg (by rw [List.length_append]; omega), word_bytes, List.take_left' hlen,
      List.drop_left' hlen]
  · have hnum : ∀ n, (BitVec.ofNat 16 (s.xsize - n)).toNat = s.xsize - n := by
      intro n
      rw [BitVec.toNat_ofNat]
      unfold PKMAXBUF at hroom
      omega
    have hread := fill_read garbage hroom hd
    have hrsize : (counted pk).rsize = s.xsize := hsize
    obtain ⟨-, hcopy, hmark⟩ := marks (cntl &&& B_SHORT ≠ 0)
    dsimp only at hread
    change pkread _ (next (counted pk).pr) = data
    rw [pkread, his, hib, hisum, hrsize]
    rw [if_pos hcopy]
    by_cases hlt : data.length < s.xsize
    · rw [if_pos hlt, if_pos hlt] at hread
      rw [if_pos (hmark.mpr (hshort.mpr hlt)), if_pos (hshort.mpr hlt)]
      rw [hnum]
      exact hread
    · rw [if_neg hlt, if_neg hlt] at hread
      rw [if_neg (fun h => hlt (hshort.mp (hmark.mp h))), if_neg (fun h => hlt (hshort.mp h)),
        hnum]
      exact hread

/-- To a receiver that is up every control byte comes through; one that waits for it is handed
every packet of the agreed size or shorter; a frame with one byte behind the sync byte changed has
a bad header; and to a changed sync byte nothing is done at all. -/
theorem framing {pk : Pack} (hup : Up pk) :
    (∀ s cntl rest, ∃ frame, pkxstart s cntl none = some frame ∧
      pkgetpack pk (frame ++ rest) = some (.control cntl, counted pk, rest)) ∧
    (∀ s, Waiting pk → Agreed s pk → ∀ data garbage : List Byte, data.length ≤ s.xsize →
      s.xsize ≤ garbage.length → ∀ cntl : Byte, cntl &&& 128 ≠ 0 →
      (cntl &&& B_SHORT ≠ 0 ↔ data.length < s.xsize) →
      ((cntl >>> 3) &&& 7).toNat = next pk.pr →
      ∀ x, s.ob x = fill s.xsize data garbage → s.osum x = chksum (s.ob x) s.xsize → ∀ rest,
        ∃ frame pk', pkxstart s cntl (some x) = some frame ∧
          pkgetpack pk (frame ++ rest) = some (.data cntl, pk', rest) ∧
          (pkaccept pk').rcount = 1 ∧ pkread (pkaccept pk') (next pk.pr) = data) ∧
    (∀ s cntl x frame, pkxstart s cntl x = some frame → ∀ i b, 1 ≤ i → i < 6 → frame[i]? ≠ some b →
      ∀ rest, ∃ rest', pkgetpack pk (frame.set i b ++ rest) = some (.badHeader, counted pk, rest')) ∧
    ∀ p input, p ≠ SYN → pkgetpack pk (p :: input) = pkgetpack pk input := by
  refine ⟨fun s cntl rest => ⟨_, rfl, control_frame hup cntl rest⟩, ?_, ?_, ?_⟩
  · intro s hwait hag data garbage hd hg cntl hcntl hshort hseq x hob hosum rest
    exact data_frame hup hwait hag hd hg hcntl hshort hseq hob hosum rest
  · intro s cntl x frame hframe i b h₁ hi hb rest
    cases x with
    | none =>
      rw [← Option.some.inj hframe] at hb ⊢
      exact ⟨rest, changed_frame hup 9 cntl _ i b h₁ hi hb rest⟩
    | some x =>
      rw [pkxstart] at hframe
      by_cases hroom : s.xsize > PKMAXBUF
      · rw [if_pos hroom] at hframe
        exact nomatch hframe
      · rw [if_neg hroom] at hframe
        have hlen : ∀ w, (header s.lpsize cntl w).length = 6 := fun _ => rfl
        rw [← Option.some.inj hframe, List.getElem?_append_left (by rw [hlen]; exact hi)] at hb
        rw [← Option.some.inj hframe, List.set_append_left _ _ (by rw [hlen]; exact hi),
          List.append_assoc]
        exact ⟨_, changed_frame hup s.lpsize cntl _ i b h₁ hi hb _⟩
  · intro p input hp
    rw [pkgetpack, pkgetpack, findSync_skip hp]

/- A receiver that has come up, with packets of 64 bytes. -/
def fresh : Pack :=
  ⟨LIVE, 0, 64, 7, 0, 0, 0, 0, 7, ⟨fun _ => 0⟩, ⟨fun _ => 0⟩, ⟨fun _ => []⟩⟩

/- Three bytes in a short packet. -/
def three : Sender :=
  ⟨64, 2, ⟨fun _ => fill 64 [1, 2, 3] (List.replicate 64 0)⟩,
    ⟨fun _ => chksum (fill 64 [1, 2, 3] (List.replicate 64 0)) 64⟩⟩

theorem framing_fresh : ∃ frame pk', pkxstart three 200 (some 1) = some frame ∧
    pkgetpack fresh (frame ++ []) = some (.data 200, pk', []) ∧ (pkaccept pk').rcount = 1 ∧
      pkread (pkaccept pk') (next fresh.pr) = [1, 2, 3] := by
  have hup : Up fresh := ⟨rfl, by decide⟩
  have hwait : Waiting fresh :=
    ⟨⟨rfl, by decide⟩, by decide, by decide, by decide, rfl, fun _ => rfl⟩
  have hag : Agreed three fresh := ⟨⟨by decide, by decide, rfl⟩, rfl, by decide⟩
  have hlen : three.xsize ≤ (List.replicate 64 (0 : Byte)).length :=
    Nat.le_of_eq List.length_replicate.symm
  have hsum : three.osum 1 = chksum (three.ob 1) three.xsize := by simp only [three]
  exact (framing hup).2.1 three hwait hag [1, 2, 3] (List.replicate 64 0) (by decide) hlen
    200 (by decide) (by decide) (by decide) 1 rfl hsum []

/- A packet whose data is itself a frame, of a CLOSE. -/
def closing : Sender :=
  ⟨64, 2, ⟨fun _ => header 9 8 8 ++ List.replicate 58 0⟩,
    ⟨fun _ => chksum (header 9 8 8 ++ List.replicate 58 0) 64⟩⟩

/-- With its sync byte changed the packet is not tested at all: the CLOSE in its data is taken. -/
theorem sync_byte_changed :
    ((pkxstart closing 136 (some 1)).bind fun frame => (pkgetpack fresh frame).map (·.1)) =
        some (.data 136) ∧
      ((pkxstart closing 136 (some 1)).bind fun frame =>
        (pkgetpack fresh (frame.set 0 0)).map (·.1)) = some (.control 8) := by
  decide +kernel

end Svr32.Uucp
