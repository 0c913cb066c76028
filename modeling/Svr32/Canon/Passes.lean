import Svr32.Canon.Layout

/-! What tcanon does with a structure: it writes the canonical form. -/
namespace Svr32.Canon
open Svr32.Lib
variable {k : Copy} {m m' : Mem UInt8} {p q : Int} {n : Nat} {rest : List Char}
  {f : Field} {fs : List Field}

theorem Canonical.same (h : Mem.Same m m' q (canonEnd q fs)) (hc : Canonical m q fs) :
    Canonical m' q fs := by
  induction fs generalizing q with
  | nil => trivial
  | cons f fs ih =>
    have hq := f.le_cplace q
    have hf := f.form_le_cnext q
    have he := le_canonEnd fs (f.cnext q)
    rw [canonEnd] at h
    exact ⟨(h.mono hq (by omega)).holds hc.1, ih (h.mono (f.le_cnext q) (Int.le_refl _)) hc.2⟩

theorem Laid.same (h : Mem.Same m m' p (extent p fs)) (hl : Laid m p fs) : Laid m' p fs := by
  induction fs generalizing p with
  | nil => trivial
  | cons f fs ih =>
    have hp := f.le_place p
    have he := le_extent fs (f.next p)
    rw [extent] at h
    exact ⟨(h.mono hp he).holds hl.1, ih (h.mono (f.le_next p) (Int.le_refl _)) hl.2⟩

/- The length that tcanon finds for an array. -/
theorem counted_length {ds : List (Fin 10)} {bs : List UInt8} (hc : Counted ds bs)
    (hm : Mem.Holds m p bs) (hb : bs.length < 2 ^ 15) :
    (if (number ds : Int) = 0 then ulong (strlen m p + 1) else ulong (number ds)) = bs.length := by
  by_cases h0 : number ds = 0
  · rw [Counted, if_pos h0] at hc
    obtain ⟨str, rfl, hz⟩ := hc
    rw [List.length_append, List.length_singleton] at hb ⊢
    rw [if_pos (by omega), strlen, strlenFrom_holds hm hz (by omega)]
    exact ulong_small (n := str.length + 1) (by omega)
  · rw [Counted, if_neg h0] at hc
    rw [if_neg (by omega), hc]
    exact ulong_small (by omega)

theorem counted_number {ds : List (Fin 10)} {bs : List UInt8} (hc : Counted ds bs) :
    number ds ≤ bs.length := by
  by_cases h0 : number ds = 0
  · omega
  · rw [Counted, if_neg h0] at hc
    omega

/- The array: its length, and its bytes. -/
theorem tc_eq {ds : List (Fin 10)} {bs : List UInt8} (hc : Counted ds bs)
    (hm : Mem.Holds m p bs) (hb : bs.length < 2 ^ 15)
    (ha : p + bs.length ≤ q ∨ (Field.c ds bs hc).cnext q ≤ p) :
    Cursor.tc ⟨p, q, m⟩ (number ds) = ⟨p + bs.length, (Field.c ds bs hc).cnext q,
      Mem.write m (LALIGN q) (longBytes bs.length ++ bs)⟩ := by
  have hq := le_LALIGN q
  have hn : LALIGN q + 4 + bs.length ≤ (Field.c ds bs hc).cnext q := by
    have h := (Field.c ds bs hc).form_le_cnext q
    simp only [Field.form, Field.cplace, List.length_append, length_longBytes] at h
    omega
  have hs : Mem.Same m (Mem.write m (LALIGN q) (longBytes bs.length)) p (p + bs.length) := by
    refine fun a h1 h2 => Mem.write_out ?_
    rw [length_longBytes]
    omega
  have hlen : LALIGN q + ((bs.length + 4 : Nat) : Int) = LALIGN q + 4 + bs.length := by omega
  simp only [Cursor.tc, counted_length hc hm hb, Cursor.put, length_longBytes]
  rw [copy_eq _ (by simp only; omega)]
  simp only [Field.cnext, Field.cplace, Field.form, List.length_append, length_longBytes]
  rw [Mem.write_append, length_longBytes, (hs.holds hm).read, Nat.add_comm 4, hlen]
  rfl

/-- What one field of the format does in tcanon. -/
theorem tloop_field (hn : (f.text ++ rest).length ≤ n) (hr : ∀ c ∈ rest.head?, digit c = false)
    (hs : f.form.length ≤ k.size) (hm : Mem.Holds m (f.place p) f.raw)
    (ha : f.next p ≤ q ∨ f.cnext q ≤ p) :
    ∃ n', rest.length ≤ n' ∧ tloop k.duatoi n (f.text ++ rest) ⟨p, q, m⟩ =
      tloop k.duatoi n' rest ⟨f.next p, f.cnext q, Mem.write m (f.cplace q) f.form⟩ := by
  have hk := k.size_short
  cases n with
  | zero =>
    cases f with
    | _ => cases hn
  | succ n =>
    cases f with
    | s v =>
      have hw : short m (SALIGN p) = v.toNat :=
        (short_holds hm).trans (Nat.mod_eq_of_lt v.toNat_lt)
      have hx : Cursor.ts ⟨p, q, m⟩ = ⟨SALIGN p + 2, LALIGN q + 4,
          Mem.write m (LALIGN q) (longBytes (extend v.toNat))⟩ := by
        simp only [Cursor.ts, Cursor.put, hw]
        rfl
      exact ⟨n, Nat.le_of_succ_le_succ hn, congrArg (tloop k.duatoi n rest) hx⟩
    | i v =>
      have hw : long m (IALIGN p) = v.toNat :=
        (long_holds hm).trans (Nat.mod_eq_of_lt v.toNat_lt)
      have hx : Cursor.ti ⟨p, q, m⟩ = ⟨IALIGN p + 4, LALIGN q + 4,
          Mem.write m (LALIGN q) (longBytes v.toNat)⟩ := by
        simp only [Cursor.ti, Cursor.put, hw]
        rfl
      exact ⟨n, Nat.le_of_succ_le_succ hn, congrArg (tloop k.duatoi n rest) hx⟩
    | l v =>
      have hw : long m (LALIGN p) = v.toNat :=
        (long_holds hm).trans (Nat.mod_eq_of_lt v.toNat_lt)
      have hx : Cursor.tl ⟨p, q, m⟩ = ⟨LALIGN p + 4, LALIGN q + 4,
          Mem.write m (LALIGN q) (longBytes v.toNat)⟩ := by
        simp only [Cursor.tl, Cursor.put, hw]
        rfl
      exact ⟨n, Nat.le_of_succ_le_succ hn, congrArg (tloop k.duatoi n rest) hx⟩
    | b v =>
      have hw : m p = v := hm.1
      have hx : Cursor.b ⟨p, q, m⟩ = ⟨p + 1, q + 1, Mem.write m q [v]⟩ := by
        simp only [Cursor.b, Cursor.put, hw]
        rfl
      exact ⟨n, Nat.le_of_succ_le_succ hn, congrArg (tloop k.duatoi n rest) hx⟩
    | c ds bs hc =>
      rw [Field.form, List.length_append, length_longBytes] at hs
      have hnum := counted_number hc
      have hd := k.duatoi_digits ds rest (by omega) hr
      have hlt : rest.length ≤ n := by
        rw [Field.text, List.cons_append, List.length_cons, List.length_append] at hn
        omega
      have hx := tc_eq hc hm (by omega) ha
      refine ⟨n, hlt, ?_⟩
      have hstep : tloop k.duatoi (n + 1) ((Field.c ds bs hc).text ++ rest) ⟨p, q, m⟩ =
          tloop k.duatoi n (k.duatoi (ds.map digitChar ++ rest)).2
            (Cursor.tc ⟨p, q, m⟩ (k.duatoi (ds.map digitChar ++ rest)).1) := rfl
      rw [hstep, hd]
      exact congrArg (tloop k.duatoi n rest) hx

/- Every field fits. -/
theorem form_le_canonEnd (h : f ∈ fs) (q : Int) : q + f.form.length ≤ canonEnd q fs := by
  induction fs generalizing q with
  | nil => cases h
  | cons g fs ih =>
    have hg := g.le_cplace q
    have hg' := g.form_le_cnext q
    rw [canonEnd]
    cases h with
    | head =>
      have he := le_canonEnd fs (f.cnext q)
      omega
    | tail _ h =>
      have he := ih h (g.cnext q)
      omega

theorem Fits.form (h : Fits k fs) : ∀ f ∈ fs, f.form.length ≤ k.size := by
  intro f hf
  have he := form_le_canonEnd hf 0
  rw [Fits] at h
  omega

/-- The loop over the whole format. -/
theorem tloop_text (hn : (text fs).length ≤ n) (hs : ∀ f ∈ fs, f.form.length ≤ k.size)
    (hl : Laid m p fs) (ha : extent p fs ≤ q ∨ canonEnd q fs ≤ p) :
    tloop k.duatoi n (text fs) ⟨p, q, m⟩ = (true, ⟨extent p fs, canonEnd q fs, encode m q fs⟩) := by
  induction fs generalizing n m p q with
  | nil =>
    cases n with
    | _ => rfl
  | cons f fs ih =>
    have he := le_extent fs (f.next p)
    have hc := le_canonEnd fs (f.cnext q)
    have hp := f.le_next p
    have hq := f.le_cplace q
    have hq' := f.form_le_cnext q
    rw [extent, canonEnd] at ha
    rw [text_cons] at hn ⊢
    obtain ⟨n', hn', hstep⟩ := tloop_field (q := q) hn (text_head fs)
      (hs f List.mem_cons_self) hl.1 (by omega)
    have hsame : Mem.Same m (Mem.write m (f.cplace q) f.form) (f.next p)
        (extent (f.next p) fs) := by
      refine fun a h1 h2 => Mem.write_out ?_
      omega
    rw [hstep]
    exact ih hn' (fun g hg => hs g (List.mem_cons_of_mem f hg)) (hl.2.same hsame) (by omega)

end Svr32.Canon

/-! What fcanon does with a canonical form: it puts the structure back, as long as it reads
where tcanon wrote. It does not go on to a word after an array. -/
namespace Svr32.Canon
open Svr32.Lib
variable {k : Copy} {m m' : Mem UInt8} {q r d : Int} {n : Nat} {rest : List Char}
  {f : Field} {fs : List Field}

/- An array that does not end at a word. -/
def Field.Ragged : Field → Prop
  | .c _ bs _ => bs.length % 4 ≠ 0
  | _ => False

def Field.Byte : Field → Prop
  | .b _ => True
  | _ => False

/- No byte comes right after an array that does not end at a word. -/
def NoDrift : List Field → Prop
  | [] => True
  | f :: fs => (f.Ragged → ∀ g ∈ fs.head?, ¬ g.Byte) ∧ NoDrift fs

/- `from` is at `r` when the next field was written at `q` or at the next word. -/
def Reach (r q : Int) (o : Option Field) : Prop :=
  r = q ∨ (LALIGN r = q ∧ ∀ g ∈ o, ¬ g.Byte)

theorem Reach.cplace (h : Reach r q (some f)) : f.cplace r = f.cplace q := by
  cases h with
  | inl h => rw [h]
  | inr h =>
    have hb := h.2 f rfl
    cases f with
    | b v => exact (hb trivial).elim
    | _ =>
      simp only [Field.cplace, ← h.1, LALIGN]
      omega

/- After a field `from` can be short of a word only when a byte does not follow. -/
theorem NoDrift.reach (h : NoDrift (f :: fs)) (q : Int) :
    Reach (f.cplace q + f.form.length) (f.cnext q) fs.head? := by
  cases f with
  | c ds bs hc =>
    by_cases hr : bs.length % 4 = 0
    · left
      simp only [Field.cnext, Field.cplace, Field.form, List.length_append, length_longBytes,
        LALIGN]
      omega
    · exact .inr ⟨rfl, h.1 hr⟩
  | _ => exact .inl rfl

theorem NoDrift.split (h : ¬ NoDrift fs) : ∃ gs ds bs hc v hs,
    fs = gs ++ .c ds bs hc :: .b v :: hs ∧ bs.length % 4 ≠ 0 ∧ NoDrift (gs ++ [.c ds bs hc]) := by
  induction fs with
  | nil => exact (h trivial).elim
  | cons f fs ih =>
    by_cases hf : f.Ragged → ∀ g ∈ fs.head?, ¬ g.Byte
    · obtain ⟨gs, ds, bs, hc, v, hs, rfl, hb, hg⟩ := ih fun h' => h ⟨hf, h'⟩
      have hhead : (gs ++ [Field.c ds bs hc]).head? =
          (gs ++ Field.c ds bs hc :: Field.b v :: hs).head? := by
        rw [List.head?_append, List.head?_append]
        rfl
      exact ⟨f :: gs, ds, bs, hc, v, hs, rfl, hb, fun hr g hg' => hf hr g (hhead ▸ hg'), hg⟩
    · obtain ⟨hrag, hbyte⟩ := Classical.not_imp.1 hf
      cases f with
      | c ds bs hc =>
        cases fs with
        | nil => exact (hbyte fun g hg => (nomatch hg)).elim
        | cons g fs =>
          cases g with
          | b v =>
            have hlast : NoDrift [Field.c ds bs hc] := ⟨fun _ g hg => (nomatch hg), trivial⟩
            exact ⟨[], ds, bs, hc, v, fs, rfl, hrag, hlast⟩
          | _ =>
            refine (hbyte fun g hg => ?_).elim
            cases hg
            exact id
      | _ => exact hrag.elim

/- The array is as long as the canonical form says. -/
theorem fc_eq {ds : List (Fin 10)} {bs : List UInt8} (hc : Counted ds bs)
    (hm : Mem.Holds m (LALIGN r) (longBytes bs.length ++ bs)) (hb : bs.length < 2 ^ 15)
    (ha : d ≤ LALIGN r + 4 ∨ LALIGN r + 4 + bs.length ≤ d) :
    Cursor.fc ⟨r, d, m⟩ (number ds) =
      ⟨LALIGN r + 4 + bs.length, d + bs.length, Mem.write m d bs⟩ := by
  obtain ⟨h1, h2⟩ := Mem.holds_append.1 hm
  have h2 : Mem.Holds m (LALIGN r + 4) bs := h2
  have hlen : (if (number ds : Int) = 0 then long m (LALIGN r) else ulong (number ds)) =
      bs.length := by
    split
    · exact (long_holds h1).trans (Nat.mod_eq_of_lt (by omega))
    · next h0 =>
      rw [Counted, if_neg (by omega)] at hc
      rw [hc]
      exact ulong_small (by omega)
  simp only [Cursor.fc, LNEXT, hlen]
  rw [copy_eq _ ha]
  simp only
  rw [h2.read]

/-- What one field of the format does in fcanon. -/
theorem floop_field (hn : (f.text ++ rest).length ≤ n) (hr : ∀ c ∈ rest.head?, digit c = false)
    (hs : f.form.length ≤ k.size) (hm : Mem.Holds m (f.cplace r) f.form)
    (ha : d ≤ f.cplace r ∨ f.cplace r + f.form.length ≤ d) :
    ∃ n', rest.length ≤ n' ∧ floop k.duatoi n (f.text ++ rest) ⟨r, d, m⟩ =
      floop k.duatoi n' rest
        ⟨f.cplace r + f.form.length, f.next d, Mem.write m (f.place d) f.raw⟩ := by
  have hk := k.size_short
  cases n with
  | zero =>
    cases f with
    | _ => cases hn
  | succ n =>
    cases f with
    | s v =>
      have hw : long m (LALIGN r) = extend v.toNat :=
        (long_holds hm).trans (Nat.mod_eq_of_lt (extend_lt v.toNat_lt))
      have hx : Cursor.fs ⟨r, d, m⟩ = ⟨LALIGN r + 4, SALIGN d + 2,
          Mem.write m (SALIGN d) (shortBytes v.toNat)⟩ := by
        simp only [Cursor.fs, Cursor.put, hw, shortBytes_extend]
        rfl
      exact ⟨n, Nat.le_of_succ_le_succ hn, congrArg (floop k.duatoi n rest) hx⟩
    | i v =>
      have hw : long m (LALIGN r) = v.toNat :=
        (long_holds hm).trans (Nat.mod_eq_of_lt v.toNat_lt)
      have hx : Cursor.fi ⟨r, d, m⟩ = ⟨LALIGN r + 4, IALIGN d + 4,
          Mem.write m (IALIGN d) (longBytes v.toNat)⟩ := by
        simp only [Cursor.fi, Cursor.put, hw]
        rfl
      exact ⟨n, Nat.le_of_succ_le_succ hn, congrArg (floop k.duatoi n rest) hx⟩
    | l v =>
      have hw : long m (LALIGN r) = v.toNat :=
        (long_holds hm).trans (Nat.mod_eq_of_lt v.toNat_lt)
      have hx : Cursor.fl ⟨r, d, m⟩ = ⟨LALIGN r + 4, LALIGN d + 4,
          Mem.write m (LALIGN d) (longBytes v.toNat)⟩ := by
        simp only [Cursor.fl, Cursor.put, hw]
        rfl
      exact ⟨n, Nat.le_of_succ_le_succ hn, congrArg (floop k.duatoi n rest) hx⟩
    | b v =>
      have hw : m r = v := hm.1
      have hx : Cursor.b ⟨r, d, m⟩ = ⟨r + 1, d + 1, Mem.write m d [v]⟩ := by
        simp only [Cursor.b, Cursor.put, hw]
        rfl
      exact ⟨n, Nat.le_of_succ_le_succ hn, congrArg (floop k.duatoi n rest) hx⟩
    | c ds bs hc =>
      simp only [Field.form, Field.cplace, List.length_append, length_longBytes] at hs hm ha
      have hnum := counted_number hc
      have hd := k.duatoi_digits ds rest (by omega) hr
      have hlt : rest.length ≤ n := by
        rw [Field.text, List.cons_append, List.length_cons, List.length_append] at hn
        omega
      have hend : LALIGN r + 4 + (bs.length : Int) =
          LALIGN r + (Field.c ds bs hc).form.length := by
        simp only [Field.form, List.length_append, length_longBytes]
        omega
      have hx := fc_eq (d := d) hc hm (by omega) (by omega)
      rw [hend] at hx
      refine ⟨n, hlt, ?_⟩
      have hstep : floop k.duatoi (n + 1) ((Field.c ds bs hc).text ++ rest) ⟨r, d, m⟩ =
          floop k.duatoi n (k.duatoi (ds.map digitChar ++ rest)).2
            (Cursor.fc ⟨r, d, m⟩ (k.duatoi (ds.map digitChar ++ rest)).1) := rfl
      rw [hstep, hd]
      exact congrArg (floop k.duatoi n rest) hx

/-- The loop over the format of these fields, whatever the format goes on with: the structure
may be put where the form is, or behind it, since it is no longer. -/
theorem floop_text {fs : List Field} (gs : List Field) (hn : (text (fs ++ gs)).length ≤ n)
    (hs : ∀ f ∈ fs, f.form.length ≤ k.size) (hc : Canonical m q fs)
    (hd : NoDrift (fs ++ gs.take 1)) (hr : Reach r q (fs ++ gs).head?) (ha : d ≤ q ∨ canonEnd q fs ≤ d) :
    ∃ n' r', (text gs).length ≤ n' ∧ Reach r' (canonEnd q fs) gs.head? ∧
      floop k.duatoi n (text (fs ++ gs)) ⟨r, d, m⟩ =
        floop k.duatoi n' (text gs) ⟨r', extent d fs, layout m d fs⟩ := by
  induction fs generalizing n m r q d with
  | nil => exact ⟨n, r, hn, hr, rfl⟩
  | cons f fs ih =>
    have hp := f.le_place d
    have hnx := f.le_next d
    have hq := f.le_cplace q
    have hq' := f.form_le_cnext q
    have he := le_canonEnd fs (f.cnext q)
    rw [canonEnd] at ha
    rw [List.cons_append, text_cons] at hn
    have hplace : f.cplace r = f.cplace q := hr.cplace
    obtain ⟨n', hn', hstep⟩ := floop_field (r := r) (d := d) hn (text_head (fs ++ gs))
      (hs f List.mem_cons_self) (hplace ▸ hc.1) (by omega)
    have ha' : f.next d ≤ f.cnext q ∨ canonEnd (f.cnext q) fs ≤ f.next d := by
      cases ha with
      | inl h => exact .inl (f.next_le_cnext h)
      | inr h => exact .inr (by omega)
    have hsame : Mem.Same m (Mem.write m (f.place d) f.raw) (f.cnext q)
        (canonEnd (f.cnext q) fs) := by
      refine fun a h1 h2 => Mem.write_out ?_
      cases ha with
      | inl h =>
        have hnext : f.place d + f.raw.length ≤ f.cnext q := f.next_le_cnext h
        exact .inr (by omega)
      | inr h => exact .inl (by omega)
    have hhead : (fs ++ gs.take 1).head? = (fs ++ gs).head? := by
      rw [List.head?_append, List.head?_append, List.head?_take]
      rfl
    have hreach : Reach _ _ (fs ++ gs.take 1).head? := NoDrift.reach hd q
    rw [hhead] at hreach
    rw [hplace] at hstep
    obtain ⟨n'', r'', h1, h2, h3⟩ := ih hn' (fun g hg => hs g (List.mem_cons_of_mem f hg))
      (hc.2.same hsame) hd.2 hreach ha'
    refine ⟨n'', r'', h1, h2, ?_⟩
    rw [List.cons_append, text_cons, hstep, h3]
    rfl

end Svr32.Canon
