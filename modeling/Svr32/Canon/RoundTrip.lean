import Svr32.Canon.Passes

/-! A structure is taken to the canonical form and back, by either copy of the routines. -/
namespace Svr32.Canon
open Svr32.Lib
variable {k k' : Copy} {m m' : Mem UInt8} {p q d buf : Int} {flag : Bool}
  {f : Field} {fs : List Field}

/-- The structure at `p` is made canonical at `q`: in a separate buffer, or in place, where the
flag asks for the work buffer. -/
inductive Placed (k : Copy) (fs : List Field) (p q buf : Int) (flag : Bool) : Prop
  | separate (h : q ≠ p) (apart : extent p fs ≤ q ∨ canonEnd q fs ≤ p)
  | inPlace (h : q = p) (asked : flag = true) (word : buf % 4 = 0)
      (apart : canonEnd p fs ≤ buf ∨ buf + k.size ≤ p)

/-- And it is put back at `d`: apart from the canonical form or over it. -/
def Back (fs : List Field) (q d : Int) : Prop :=
  d = q ∨ extent d fs ≤ q ∨ canonEnd q fs ≤ d

/-- fcanon gives back the fields and the length of the structure. -/
def RoundTrip (k k' : Copy) (fs : List Field) : Prop :=
  ∀ (m : Mem UInt8) (p q d buf : Int) (flag : Bool), p % 4 = 0 → d % 4 = 0 → Laid m p fs →
    Placed k fs p q buf flag → Back fs q d →
      (tcanon k buf (text fs) p q flag m).2 = canonEnd q fs - q ∧
      Laid (fcanon k' (text fs) q d (tcanon k buf (text fs) p q flag m).1).1 d fs ∧
      (fcanon k' (text fs) q d (tcanon k buf (text fs) p q flag m).1).2 = extent p fs - p

/-- The two copies make the same bytes: in a separate buffer the memory is the same, and in
place only the padding can differ, which is what the two work buffers had there. -/
def SameBytes (k k' : Copy) (fs : List Field) : Prop :=
  ∀ (m : Mem UInt8) (p q buf buf' : Int) (flag : Bool), p % 4 = 0 → Laid m p fs →
    Placed k fs p q buf flag → Placed k' fs p q buf' flag →
      (tcanon k buf (text fs) p q flag m).2 = (tcanon k' buf' (text fs) p q flag m).2 ∧
      (q ≠ p → tcanon k buf (text fs) p q flag m = tcanon k' buf' (text fs) p q flag m) ∧
      ∀ a, q ≤ a → a < canonEnd q fs →
        Written q a fs ∨ m (buf + (a - q)) = m (buf' + (a - q)) →
          (tcanon k buf (text fs) p q flag m).1 a = (tcanon k' buf' (text fs) p q flag m).1 a

/-- What tcanon does into a separate buffer. -/
theorem tcanon_separate (hs : Fits k fs) (hl : Laid m p fs) (h : q ≠ p)
    (ha : extent p fs ≤ q ∨ canonEnd q fs ≤ p) :
    tcanon k buf (text fs) p q flag m = (encode m q fs, canonEnd q fs - q) := by
  have hne : ¬ (flag = true ∧ p = q) := fun h' => h h'.2.symm
  rw [tcanon, if_neg hne, tloop_text (Nat.le_refl _) hs.form hl ha]

/- The form begins at a word, and takes as much there as at any word. -/
theorem canonEnd_word (fs : List Field) (h : q % 4 = 0) : canonEnd q fs = q + canonEnd 0 fs := by
  have hq : q = 0 + 4 * (q / 4) := by omega
  have hs := canonEnd_shift fs 0 (q / 4)
  rw [← hq] at hs
  omega

/-- What tcanon does in place: it brings the form from the work buffer. -/
theorem tcanon_inPlace (hs : Fits k fs) (hl : Laid m p fs) (hp : p % 4 = 0) (hb : buf % 4 = 0)
    (ha : canonEnd p fs ≤ buf ∨ buf + k.size ≤ p) :
    tcanon k buf (text fs) p p true m =
      (Mem.write (encode m buf fs) p (Mem.read (encode m buf fs) buf (canonEnd 0 fs).toNat),
        canonEnd p fs - p) := by
  have he := extent_le_canonEnd fs (Int.le_refl p)
  have h1 := canonEnd_word fs hp
  have h2 := canonEnd_word fs hb
  have hfit : canonEnd 0 fs ≤ k.size := hs
  have hlen : canonEnd buf fs - buf = canonEnd 0 fs := by omega
  rw [tcanon, if_pos ⟨rfl, rfl⟩, tloop_text (Nat.le_refl _) hs.form hl (by omega)]
  simp only [hlen]
  rw [h1]
  congr 1
  omega

/- The canonical form that came from the work buffer. -/
theorem inPlace_at {j : Int} (hp : p % 4 = 0) {a : Int} (ha : p ≤ a) (ha' : a < canonEnd p fs) :
    Mem.write m p (Mem.read m (p + 4 * j) (canonEnd 0 fs).toNat) a = m (a + 4 * j) := by
  have h1 := canonEnd_word fs hp
  have hp' : p + 4 * j + -(4 * j) = p := by omega
  have ha1 : a + 4 * j + -(4 * j) = a := by omega
  have hc := @Mem.copied _ m m (p + 4 * j) (a + 4 * j) (-(4 * j)) (canonEnd 0 fs).toNat (by omega)
    (by omega)
  rw [hp', ha1] at hc
  exact hc

/-- Wherever it is put, tcanon returns the length of the canonical form and leaves it there. -/
theorem tcanon_canonical (hs : Fits k fs) (hp : p % 4 = 0) (hl : Laid m p fs)
    (hpl : Placed k fs p q buf flag) :
    (tcanon k buf (text fs) p q flag m).2 = canonEnd q fs - q ∧
      Canonical (tcanon k buf (text fs) p q flag m).1 q fs := by
  cases hpl with
  | separate h ha =>
    rw [tcanon_separate hs hl h ha]
    exact ⟨rfl, canon_encode m q fs⟩
  | inPlace h hf hb ha =>
    subst h hf
    rw [tcanon_inPlace hs hl hp hb ha]
    obtain ⟨j, rfl⟩ : ∃ j, buf = q + 4 * j := ⟨(buf - q) / 4, by omega⟩
    have hback : q + 4 * j + 4 * -j = q := by omega
    have hend := canonEnd_shift fs q j
    have hc := @Canonical.shift _ (Mem.write
      (encode m (q + 4 * j) fs) q (Mem.read (encode m (q + 4 * j) fs) (q + 4 * j)
        (canonEnd 0 fs).toNat)) _ _ (canon_encode m (q + 4 * j) fs) (-j) fun a h1 h2 => by
          have ha : a + 4 * -j + 4 * j = a := by omega
          rw [inPlace_at hp (by omega) (by omega), ha]
    rw [hback] at hc
    exact ⟨rfl, hc⟩

/-- The two copies make the same bytes of any structure. -/
theorem sameBytes (hs : Fits k fs) (hs' : Fits k' fs) : SameBytes k k' fs := by
  intro m p q buf buf' flag hp hl hpl hpl'
  have hlen := (tcanon_canonical hs hp hl hpl).1
  have hlen' := (tcanon_canonical hs' hp hl hpl').1
  refine ⟨hlen.trans hlen'.symm, fun hq => ?_, fun a ha ha' hw => ?_⟩
  · cases hpl with
    | inPlace h => exact (hq h).elim
    | separate h ha =>
      rw [tcanon_separate hs hl h ha, tcanon_separate hs' hl h ha]
  · cases hpl with
    | separate h hap =>
      rw [tcanon_separate hs hl h hap, tcanon_separate hs' hl h hap]
    | inPlace h hf hb hap =>
      cases hpl' with
      | separate h' => exact (h' h).elim
      | inPlace h' hf' hb' hap' =>
        subst h hf
        rw [tcanon_inPlace hs hl hp hb hap, tcanon_inPlace hs' hl hp hb' hap']
        obtain ⟨j, rfl⟩ : ∃ j, buf = q + 4 * j := ⟨(buf - q) / 4, by omega⟩
        obtain ⟨j', rfl⟩ : ∃ j', buf' = q + 4 * j' := ⟨(buf' - q) / 4, by omega⟩
        simp only
        rw [inPlace_at hp ha ha', inPlace_at hp ha ha']
        by_cases hwr : Written q a fs
        · rw [encode_written hwr m m, encode_written hwr m m]
        · have h1 : q + 4 * j + (a - q) = a + 4 * j := by omega
          have h2 : q + 4 * j' + (a - q) = a + 4 * j' := by omega
          have hpad := hw.resolve_left hwr
          rw [h1, h2] at hpad
          rw [encode_out (mt (written_shift j).1 hwr), encode_out (mt (written_shift j').1 hwr),
            hpad]

/-- fcanon undoes it when no byte drifts. -/
theorem NoDrift.roundTrip (hd : NoDrift fs) (hs : Fits k fs) (hs' : Fits k' fs) :
    RoundTrip k k' fs := by
  intro m p q d buf flag hp hd4 hl hpl hback
  obtain ⟨hlen, hc⟩ := tcanon_canonical hs hp hl hpl
  have he := le_extent fs d
  have hback' : d ≤ q ∨ canonEnd q fs ≤ d := by
    rcases hback with h | h | h
    · exact .inl (by omega)
    · exact .inl (by omega)
    · exact .inr h
  obtain ⟨n', r', -, -, hloop⟩ := floop_text (r := q) [] (by rw [List.append_nil]) hs'.form hc
    (by simpa using hd) (.inl rfl) hback'
  have hend : extent d fs = extent p fs + (d - p) := by
    have hdp : p + 4 * ((d - p) / 4) = d := by omega
    have hsh := extent_shift fs p ((d - p) / 4)
    rw [hdp] at hsh
    omega
  have hnil : floop k'.duatoi n' (text []) ⟨r', extent d fs, layout
      (tcanon k buf (text fs) p q flag m).1 d fs⟩ = (true, ⟨r', extent d fs, layout
      (tcanon k buf (text fs) p q flag m).1 d fs⟩) := by
    cases n' with
    | _ => rfl
  rw [List.append_nil, hnil] at hloop
  refine ⟨hlen, ?_, ?_⟩
  · rw [fcanon, hloop]
    exact laid_layout _ _ _
  · rw [fcanon, hloop]
    simp only
    omega

end Svr32.Canon

/-! A byte after an array that does not end at a word: tcanon has gone on to the next word, and
fcanon takes the padding for the byte. -/
namespace Svr32.Canon
open Svr32.Lib
variable {k k' : Copy} {m m' : Mem UInt8} {p q d a : Int} {n : Nat} {f : Field}
  {fs : List Field}

/- What is below `to` stays. -/
structure Above (x y : Cursor) : Prop where
  dst_le : x.dst ≤ y.dst
  below : ∀ a, a < x.dst → y.mem a = x.mem a

theorem Above.refl (x : Cursor) : Above x x := ⟨Int.le_refl _, fun _ _ => rfl⟩

theorem Above.trans {x y z : Cursor} (h : Above x y) (h' : Above y z) : Above x z where
  dst_le := Int.le_trans h.dst_le h'.dst_le
  below a ha := (h'.below a (Int.lt_of_lt_of_le ha h.dst_le)).trans (h.below a ha)

theorem Above.write (x : Cursor) (r t : Int) (bs : List UInt8) (ht : x.dst ≤ t) :
    Above x ⟨r, t + bs.length, Mem.write x.mem t bs⟩ where
  dst_le := Int.le_trans ht (Int.le_add_of_nonneg_right (Int.natCast_nonneg _))
  below a ha := Mem.write_out (.inl (by omega))

theorem Above.copy (n : Nat) (x : Cursor) : Above x (Cursor.copy n x) := by
  induction n generalizing x with
  | zero => exact Above.refl x
  | succ n ih =>
    refine Above.trans ?_ (ih _)
    refine ⟨?_, fun a ha => Function.update_of_ne (by omega) _ _⟩
    simp only
    omega

/-- Whatever fcanon takes the rest of the form for, it does not go back in the structure. -/
theorem floop_above (duatoi : List Char → Int × List Char) (n : Nat) (fmt : List Char)
    (x : Cursor) : Above x (floop duatoi n fmt x).2 := by
  induction n generalizing fmt x with
  | zero =>
    cases fmt with
    | _ => exact Above.refl x
  | succ n ih =>
    cases fmt with
    | nil => exact Above.refl x
    | cons c fmt =>
      have hs := le_SALIGN x.dst
      have hl := le_LALIGN x.dst
      rw [floop]
      split
      · exact (Above.write x _ _ _ hs).trans (ih _ _)
      · split
        · exact (Above.write x _ _ _ hl).trans (ih _ _)
        · split
          · exact (Above.write x _ _ _ hl).trans (ih _ _)
          · split
            · exact (Above.write x _ _ _ (Int.le_refl _)).trans (ih _ _)
            · split
              · have hcopy := Above.copy (if (duatoi fmt).1 = 0 then long x.mem (LALIGN x.src)
                  else ulong (duatoi fmt).1) ⟨LNEXT (LALIGN x.src), x.dst, x.mem⟩
                exact Above.trans ⟨hcopy.dst_le, hcopy.below⟩ (ih _ _)
              · exact Above.refl x

theorem fcanon_mem (k : Copy) (fmt : List Char) (q d : Int) (m : Mem UInt8) :
    (fcanon k fmt q d m).1 = (floop k.duatoi fmt.length fmt ⟨q, d, m⟩).2.mem := by
  rw [fcanon]
  split <;> next h => rw [h]

/-- The byte that fcanon puts after the array is the padding after it. -/
theorem fcanon_drift {gs hs : List Field} {ds : List (Fin 10)} {bs : List UInt8}
    {hc : Counted ds bs} {v : UInt8} (hfs : fs = gs ++ .c ds bs hc :: .b v :: hs)
    (hd : NoDrift (gs ++ [.c ds bs hc])) (hf : ∀ f ∈ fs, f.form.length ≤ k.size)
    (hm : Canonical m q fs) (ha : canonEnd q fs ≤ d) :
    (fcanon k (text fs) q d m).1 (extent d (gs ++ [.c ds bs hc])) =
      m (LALIGN (canonEnd q gs) + (4 + bs.length)) := by
  subst hfs
  obtain ⟨hm1, hm2, -⟩ := canon_append.1 hm
  rw [canonEnd_append] at ha
  have hE := le_extent gs d
  have hQ := le_canonEnd gs q
  have hQ' := (Field.c ds bs hc).le_cplace (canonEnd q gs)
  have hQ'' := (Field.c ds bs hc).form_le_cnext (canonEnd q gs)
  have hb := le_canonEnd hs ((Field.b v).cnext ((Field.c ds bs hc).cnext (canonEnd q gs)))
  have hbn : (Field.b v).cnext ((Field.c ds bs hc).cnext (canonEnd q gs)) =
    (Field.c ds bs hc).cnext (canonEnd q gs) + 1 := rfl
  rw [canonEnd, canonEnd] at ha
  have hx := (Field.c ds bs hc).le_next (extent d gs)
  have hpl := (Field.c ds bs hc).le_place (extent d gs)
  obtain ⟨n', r', hn', hr', h1⟩ := floop_text (k := k) (r := q) (d := d)
    (.c ds bs hc :: .b v :: hs) (Nat.le_refl _)
    (fun f hf' => hf f (List.mem_append_left _ hf')) hm1 hd (.inl rfl) (.inr (by omega))
  have hplace := Reach.cplace hr'
  have hc' : Mem.Holds (layout m d gs) ((Field.c ds bs hc).cplace r') (Field.c ds bs hc).form := by
    rw [hplace]
    refine Mem.Same.holds (fun a h1 h2 => layout_out (.inl ?_)) hm2
    omega
  obtain ⟨n2, hn2, h2⟩ := @floop_field _ _ _ (extent d gs) _ (text (.b v :: hs)) _ hn'
    (text_head _) (hf _ (by simp)) hc' (.inr (by omega))
  rw [hplace] at h2
  have hlen : (Field.c ds bs hc).form.length = 4 + bs.length := by
    rw [Field.form, List.length_append, length_longBytes]
  have hz : LALIGN (canonEnd q gs) + (4 + bs.length) =
      (Field.c ds bs hc).cplace (canonEnd q gs) + (Field.c ds bs hc).form.length := by
    have hcp : (Field.c ds bs hc).cplace (canonEnd q gs) = LALIGN (canonEnd q gs) := rfl
    rw [hlen, hcp]
    omega
  cases n2 with
  | zero => cases hn2
  | succ n3 =>
    -- the byte; what is put after it is above it
    have h3 := floop_above k.duatoi n3 (text hs) (Cursor.b
      ⟨(Field.c ds bs hc).cplace (canonEnd q gs) + (Field.c ds bs hc).form.length,
        (Field.c ds bs hc).next (extent d gs), Mem.write (layout m d gs)
          ((Field.c ds bs hc).place (extent d gs)) (Field.c ds bs hc).raw⟩)
    have hD : extent d (gs ++ [.c ds bs hc]) = (Field.c ds bs hc).next (extent d gs) := by
      rw [extent_append]
      rfl
    have hlt : (Field.c ds bs hc).cplace (canonEnd q gs) + (Field.c ds bs hc).form.length < d := by
      omega
    rw [fcanon_mem, h1, text_cons, h2, hD, hz]
    refine (h3.below _ (Int.lt_succ _)).trans ?_
    simp only [Cursor.b, Cursor.put, Mem.write, Function.update_self]
    rw [Mem.write_out (.inl (by omega)), layout_out (.inl hlt)]

/- The padding after a ragged array. -/
theorem not_written_ragged {gs hs : List Field} {ds : List (Fin 10)} {bs : List UInt8}
    {hc : Counted ds bs} (hb : bs.length % 4 ≠ 0) :
    ¬ Written q (LALIGN (canonEnd q gs) + (4 + bs.length)) (gs ++ .c ds bs hc :: hs) := by
  have hform : (Field.c ds bs hc).form.length = 4 + bs.length := by
    rw [Field.form, List.length_append, length_longBytes]
  have hplace : (Field.c ds bs hc).cplace (canonEnd q gs) = LALIGN (canonEnd q gs) := rfl
  have hnext : (Field.c ds bs hc).cnext (canonEnd q gs) =
      LALIGN (LALIGN (canonEnd q gs) + (Field.c ds bs hc).form.length) := rfl
  intro hw
  rw [written_append, Written, hplace] at hw
  rw [hform] at hw hnext
  rcases hw with hw | hw | hw
  · have hr := hw.range
    have hl := le_LALIGN (canonEnd q gs)
    omega
  · omega
  · have hr := hw.range
    simp only [LALIGN] at hr hnext
    omega

/-- A byte after a ragged array is lost for some contents of the padding. -/
theorem not_roundTrip (hfit : Fits k fs) (hfit' : Fits k' fs) (hd : ¬ NoDrift fs) :
    ¬ RoundTrip k k' fs := by
  obtain ⟨gs, ds, bs, hc, v, hs, hfs, hb, hg⟩ := NoDrift.split hd
  intro hrt
  -- the structure at 0, and another byte than `v` in all the rest of the memory
  obtain ⟨m, hm⟩ : ∃ m, m = layout (fun _ => v + 1) 0 fs := ⟨_, rfl⟩
  have hl : Laid m 0 fs := hm ▸ laid_layout (fun _ => v + 1) 0 fs
  obtain ⟨q, hq⟩ : ∃ q, extent 0 fs < q := ⟨extent 0 fs + 1, by omega⟩
  have he := le_extent fs 0
  have hap : extent 0 fs ≤ q ∨ canonEnd q fs ≤ 0 := .inl (by omega)
  have hne : q ≠ 0 := by omega
  have hdl := le_LALIGN (canonEnd q fs)
  have hdw : LALIGN (canonEnd q fs) % 4 = 0 := by
    rw [LALIGN]
    omega
  obtain ⟨-, hlaid, -⟩ := hrt m 0 q (LALIGN (canonEnd q fs)) 0 false rfl hdw hl
    (.separate hne hap) (.inr (.inr hdl))
  rw [tcanon_separate hfit hl hne hap] at hlaid
  have hdrift := fcanon_drift hfs hg hfit'.form (canon_encode m q fs) hdl
  have hz : encode m q fs (LALIGN (canonEnd q gs) + (4 + bs.length)) = v + 1 := by
    have hge := le_canonEnd gs q
    have hal := le_LALIGN (canonEnd q gs)
    rw [encode_out (hfs ▸ not_written_ragged hb), hm, layout_out (.inr (by omega))]
  have hfs' : fs = (gs ++ [.c ds bs hc]) ++ .b v :: hs := by
    rw [hfs, List.append_assoc]
    rfl
  rw [hfs', laid_append, ← hfs'] at hlaid
  have hv : v + 1 = v := (hdrift.trans hz).symm.trans hlaid.2.1.1
  exact absurd hv (by simp)

/-- Through both copies, whichever makes the form and whichever takes it apart, a structure comes
back and the bytes of the form are the same exactly if no byte comes right after an array that
does not end at a word. -/
theorem canon_roundTrip_iff (k k' : Copy) (fs : List Field) (h : Fits k fs) (h' : Fits k' fs) :
    RoundTrip k k' fs ∧ SameBytes k k' fs ↔ NoDrift fs := by
  constructor
  · intro hr
    by_contra hd
    exact not_roundTrip h h' hd hr.1
  · intro hd
    exact ⟨hd.roundTrip h h', sameBytes h h'⟩

/- "c3b": a string of two letters, in the array, and a byte. -/
def ragged : List Field := [.c [3] [65, 66, 0] rfl, .b 7]

/- "sc0bl" with a string of three letters. -/
def mixed : List Field :=
  [.s 258, .c [0] [65, 66, 67, 0] ⟨[65, 66, 67], rfl, by decide⟩, .b 7, .l 1]

theorem canon_roundTrip_iff_mixed :
    RoundTrip nudnix libns mixed ∧ SameBytes nudnix libns mixed ↔ NoDrift mixed :=
  canon_roundTrip_iff nudnix libns mixed (by decide) (by decide)

theorem ragged_not_roundTrip : Fits nudnix ragged ∧ ¬ RoundTrip nudnix nudnix ragged := by
  refine ⟨by decide, fun hrt => ?_⟩
  have hl := laid_layout (fun _ => 9) 0 ragged
  obtain ⟨-, hlaid, -⟩ := hrt (layout (fun _ => 9) 0 ragged) 0 8 24 0 false rfl rfl hl
    (.separate (by decide) (.inl (by decide))) (.inr (.inr (by decide)))
  have h7 : (fcanon nudnix (text ragged) 8 24
      (tcanon nudnix 0 (text ragged) 0 8 false (layout (fun _ => 9) 0 ragged)).1).1 27 = 7 :=
    hlaid.2.1.1
  exact absurd h7 (by decide)

end Svr32.Canon
