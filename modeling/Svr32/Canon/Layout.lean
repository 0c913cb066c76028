import Svr32.Lib.Mem
import Svr32.Lib.Word

/-! lib/libns/canon.c and nudnix/canon.c: the conversion to and from the canonical form.
A word of the 3B2 keeps its high byte first; an unsigned word is a `Nat` below 2^32. -/
namespace Svr32.Canon
open Svr32.Lib

def SALIGN (p : Int) : Int := (p + 1) / 2 * 2
def IALIGN (p : Int) : Int := (p + 3) / 4 * 4
def LALIGN (p : Int) : Int := (p + 3) / 4 * 4

def SNEXT (p : Int) : Int := p + 2
def INEXT (p : Int) : Int := p + 4
def LNEXT (p : Int) : Int := p + 4

/- hibyte, lobyte of a short, and of the two halves of a long. -/
def shortBytes (n : Nat) : List UInt8 := [UInt8.ofNat (n / 2 ^ 8), UInt8.ofNat n]

def longBytes (n : Nat) : List UInt8 := shortBytes (n / 2 ^ 16) ++ shortBytes n

/- *(short *)p and *(long *)p -/
def short (m : Mem UInt8) (p : Int) : Nat := (m p).toNat * 2 ^ 8 + (m (p + 1)).toNat

def long (m : Mem UInt8) (p : Int) : Nat := short m p * 2 ^ 16 + short m (p + 2)

/- A short that is assigned to a long. -/
def extend (n : Nat) : Nat := if n < 2 ^ 15 then n else n + (2 ^ 32 - 2 ^ 16)

def digit (c : Char) : Bool := '0' ≤ c && c ≤ '9'

/- The kernel: TEN_TIMES(n) + CTOI(c) in an int. -/
def atoi : Int → List Char → Int × List Char
  | n, [] => (n, [])
  | n, c :: s => if digit c then atoi (i32 (n * 8 + n * 2 + c.toNat % 16)) s else (n, c :: s)

/- The library: 10 * n + **str - '0' in a short. -/
def satoi : Int → List Char → Int × List Char
  | n, [] => (n, [])
  | n, c :: s => if digit c then satoi (i16 (10 * n + c.toNat - '0'.toNat)) s else (n, c :: s)

/- The number that a string of digits is, after `n`. -/
def numberFrom : Nat → List (Fin 10) → Nat
  | n, [] => n
  | n, d :: ds => numberFrom (10 * n + d.val) ds

def number (ds : List (Fin 10)) : Nat := numberFrom 0 ds

def digitChar (d : Fin 10) : Char := Char.ofNat ('0'.toNat + d.val)

/-- One of the two copies of the file: its duatoi and the size of its work buffer, which is
enough for every number whose array fits the buffer. -/
structure Copy where
  duatoi : List Char → Int × List Char
  size : Nat
  size_short : size < 2 ^ 15
  duatoi_digits : ∀ ds rest, number ds ≤ size → (∀ c ∈ rest.head?, digit c = false) →
    duatoi (ds.map digitChar ++ rest) = ((number ds : Int), rest)

/- Where `from` and `to` are. -/
structure Cursor where
  src : Int
  dst : Int
  mem : Mem UInt8

/- *to++ = .. for each of the bytes. -/
def Cursor.put (x : Cursor) (bs : List UInt8) : Cursor :=
  { x with dst := x.dst + bs.length, mem := Mem.write x.mem x.dst bs }

/- while(ltmp--) *to++ = *from++; -/
def Cursor.copy : Nat → Cursor → Cursor
  | 0, x => x
  | n + 1, x =>
    Cursor.copy n ⟨x.src + 1, x.dst + 1, Function.update x.mem x.dst (x.mem x.src)⟩

/- A string that is not ended fills the memory. -/
def strlenFrom (m : Mem UInt8) : Nat → Int → Nat
  | 0, _ => 0
  | n + 1, p => if m p = 0 then 0 else strlenFrom m n (p + 1) + 1

def strlen (m : Mem UInt8) (p : Int) : Nat := strlenFrom m (2 ^ 32) p

def ulong (n : Int) : Nat := (n % 2 ^ 32).toNat

/- case 's', 'i', 'l', 'b' and 'c' of tcanon; `n` is what duatoi gave. -/
def Cursor.ts (x : Cursor) : Cursor :=
  let p := SALIGN x.src
  { Cursor.put { x with dst := LALIGN x.dst } (longBytes (extend (short x.mem p))) with
    src := SNEXT p }

def Cursor.ti (x : Cursor) : Cursor :=
  let p := IALIGN x.src
  { Cursor.put { x with dst := LALIGN x.dst } (longBytes (long x.mem p)) with src := INEXT p }

def Cursor.tl (x : Cursor) : Cursor :=
  let p := LALIGN x.src
  { Cursor.put { x with dst := LALIGN x.dst } (longBytes (long x.mem p)) with src := LNEXT p }

def Cursor.b (x : Cursor) : Cursor :=
  { Cursor.put x [x.mem x.src] with src := x.src + 1 }

def Cursor.tc (x : Cursor) (n : Int) : Cursor :=
  let ltmp := if n = 0 then ulong (strlen x.mem x.src + 1) else ulong n
  let x := Cursor.put { x with dst := LALIGN x.dst } (longBytes ltmp)
  let x := Cursor.copy ltmp x
  { x with dst := LALIGN x.dst }

/- The loop of tcanon over the format; false is the default case. The bound is the length of
the format. -/
def tloop (duatoi : List Char → Int × List Char) : Nat → List Char → Cursor → Bool × Cursor
  | _, [], x => (true, x)
  | 0, _ :: _, x => (false, x)
  | n + 1, c :: fmt, x =>
    if c = 's' then tloop duatoi n fmt x.ts
    else if c = 'i' then tloop duatoi n fmt x.ti
    else if c = 'l' then tloop duatoi n fmt x.tl
    else if c = 'b' then tloop duatoi n fmt x.b
    else if c = 'c' then tloop duatoi n (duatoi fmt).2 (x.tc (duatoi fmt).1)
    else (false, x)

/-- tcanon: the memory afterwards and what is returned. `buf` is where the work buffer is. -/
def tcanon (k : Copy) (buf : Int) (fmt : List Char) (src dst : Int) (flag : Bool)
    (m : Mem UInt8) : Mem UInt8 × Int :=
  if flag ∧ src = dst then
    match tloop k.duatoi fmt.length fmt ⟨src, buf, m⟩ with
    | (false, x) => (x.mem, 0)
    | (true, x) => (Mem.write x.mem dst (Mem.read x.mem buf (x.dst - buf).toNat), x.dst - buf)
  else
    match tloop k.duatoi fmt.length fmt ⟨src, dst, m⟩ with
    | (false, x) => (x.mem, 0)
    | (true, x) => (x.mem, x.dst - dst)

/- The same cases of fcanon: ltmp has the four bytes at `from`. -/
def Cursor.fs (x : Cursor) : Cursor :=
  let p := LALIGN x.src
  { Cursor.put { x with dst := SALIGN x.dst } (shortBytes (long x.mem p)) with src := LNEXT p }

def Cursor.fi (x : Cursor) : Cursor :=
  let p := LALIGN x.src
  { Cursor.put { x with dst := IALIGN x.dst } (longBytes (long x.mem p)) with src := LNEXT p }

def Cursor.fl (x : Cursor) : Cursor :=
  let p := LALIGN x.src
  { Cursor.put { x with dst := LALIGN x.dst } (longBytes (long x.mem p)) with src := LNEXT p }

def Cursor.fc (x : Cursor) (n : Int) : Cursor :=
  let p := LALIGN x.src
  let ltmp := if n = 0 then long x.mem p else ulong n
  Cursor.copy ltmp { x with src := LNEXT p }

def floop (duatoi : List Char → Int × List Char) : Nat → List Char → Cursor → Bool × Cursor
  | _, [], x => (true, x)
  | 0, _ :: _, x => (false, x)
  | n + 1, c :: fmt, x =>
    if c = 's' then floop duatoi n fmt x.fs
    else if c = 'i' then floop duatoi n fmt x.fi
    else if c = 'l' then floop duatoi n fmt x.fl
    else if c = 'b' then floop duatoi n fmt x.b
    else if c = 'c' then floop duatoi n (duatoi fmt).2 (x.fc (duatoi fmt).1)
    else (false, x)

def fcanon (k : Copy) (fmt : List Char) (src dst : Int) (m : Mem UInt8) : Mem UInt8 × Int :=
  match floop k.duatoi fmt.length fmt ⟨src, dst, m⟩ with
  | (false, x) => (x.mem, 0)
  | (true, x) => (x.mem, x.dst - dst)

theorem digit_digitChar (d : Fin 10) : digit (digitChar d) = true := by
  revert d
  decide

theorem digitChar_toNat (d : Fin 10) : (digitChar d).toNat = 48 + d.val := by
  revert d
  decide

/- A step of one of the two loops does what 10 * n + d does while that is small enough. -/
theorem le_numberFrom (ds : List (Fin 10)) (n : Nat) :
    n ≤ numberFrom n ds := by
  induction ds generalizing n with
  | nil => exact le_refl n
  | cons d ds ih => exact le_trans (by omega) (ih (10 * n + d.val))

theorem atoi_digits (ds : List (Fin 10)) (rest : List Char) (n : Nat)
    (h : numberFrom n ds ≤ 2048)
    (hr : ∀ c ∈ rest.head?, digit c = false) :
    atoi n (ds.map digitChar ++ rest) = ((numberFrom n ds : Int), rest) := by
  induction ds generalizing n with
  | nil =>
    cases rest with
    | nil => rfl
    | cons c rest =>
      have hc := hr c rfl
      simp [atoi, numberFrom, hc]
  | cons d ds ih =>
    have hd := le_numberFrom ds (10 * n + d.val)
    rw [numberFrom] at h
    have hn : i32 ((n : Int) * 8 + n * 2 + (digitChar d).toNat % 16) = ((10 * n + d.val : Nat) : Int) := by
      rw [digitChar_toNat, i32_eq] <;> omega
    rw [List.map_cons, List.cons_append, atoi, if_pos (digit_digitChar d), hn]
    exact ih _ h

theorem satoi_digits (ds : List (Fin 10)) (rest : List Char) (n : Nat)
    (h : numberFrom n ds ≤ 1400)
    (hr : ∀ c ∈ rest.head?, digit c = false) :
    satoi n (ds.map digitChar ++ rest) = ((numberFrom n ds : Int), rest) := by
  induction ds generalizing n with
  | nil =>
    cases rest with
    | nil => rfl
    | cons c rest =>
      have hc := hr c rfl
      simp [satoi, numberFrom, hc]
  | cons d ds ih =>
    have hd := le_numberFrom ds (10 * n + d.val)
    rw [numberFrom] at h
    have h0 : '0'.toNat = 48 := rfl
    have hn : i16 (10 * (n : Int) + (digitChar d).toNat - '0'.toNat) = ((10 * n + d.val : Nat) : Int) := by
      rw [digitChar_toNat, h0, i16_eq] <;> omega
    rw [List.map_cons, List.cons_append, satoi, if_pos (digit_digitChar d), hn]
    exact ih _ h

/-- nudnix/canon.c, with rfs_tbuf. -/
def nudnix : Copy where
  duatoi := atoi 0
  size := 2048
  size_short := by decide
  duatoi_digits := fun ds rest h hr => atoi_digits ds rest 0 h hr

/-- lib/libns/canon.c, with cbuf. -/
def libns : Copy where
  duatoi := satoi 0
  size := 1400
  size_short := by decide
  duatoi_digits := fun ds rest h hr => satoi_digits ds rest 0 h hr

end Svr32.Canon

/-! A structure of a format: its fields in memory as the 3B2 lays them out, and its canonical
form. -/
namespace Svr32.Canon
open Svr32.Lib
variable {m m' : Mem UInt8} {p q : Int}

/- The bytes of an array with the count `ds`: that many, or a string and its terminator. -/
def Counted (ds : List (Fin 10)) (bs : List UInt8) : Prop :=
  if number ds = 0 then ∃ str, bs = str ++ [0] ∧ 0 ∉ str else bs.length = number ds

/-- A field with its value. -/
inductive Field
  | s (v : UInt16)
  | i (v : UInt32)
  | l (v : UInt32)
  | b (v : UInt8)
  | c (ds : List (Fin 10)) (bs : List UInt8) (h : Counted ds bs)

/- How the format has it. -/
def Field.text : Field → List Char
  | .s _ => ['s']
  | .i _ => ['i']
  | .l _ => ['l']
  | .b _ => ['b']
  | .c ds _ _ => 'c' :: ds.map digitChar

def text (fs : List Field) : List Char := fs.flatMap Field.text

/- The bytes of the field in the structure. -/
def Field.raw : Field → List UInt8
  | .s v => shortBytes v.toNat
  | .i v => longBytes v.toNat
  | .l v => longBytes v.toNat
  | .b v => [v]
  | .c _ bs _ => bs

def Field.place (p : Int) : Field → Int
  | .s _ => SALIGN p
  | .i _ => IALIGN p
  | .l _ => LALIGN p
  | .b _ => p
  | .c _ _ _ => p

def Field.next (p : Int) (f : Field) : Int := f.place p + f.raw.length

/- Where the structure ends. -/
def extent (p : Int) : List Field → Int
  | [] => p
  | f :: fs => extent (f.next p) fs

/-- The structure with these values is at `p`. -/
def Laid (m : Mem UInt8) (p : Int) : List Field → Prop
  | [] => True
  | f :: fs => Mem.Holds m (f.place p) f.raw ∧ Laid m (f.next p) fs

/- The structure is put at `p`. -/
def layout (m : Mem UInt8) (p : Int) : List Field → Mem UInt8
  | [] => m
  | f :: fs => layout (Mem.write m (f.place p) f.raw) (f.next p) fs

/- The bytes of the field in the canonical form. -/
def Field.form : Field → List UInt8
  | .s v => longBytes (extend v.toNat)
  | .i v => longBytes v.toNat
  | .l v => longBytes v.toNat
  | .b v => [v]
  | .c _ bs _ => longBytes bs.length ++ bs

def Field.cplace (q : Int) : Field → Int
  | .b _ => q
  | _ => LALIGN q

/- Where tcanon goes on: it leaves an array at a word. -/
def Field.cnext (q : Int) : Field → Int
  | .c ds bs h => LALIGN (Field.cplace q (.c ds bs h) + (Field.c ds bs h).form.length)
  | f => f.cplace q + f.form.length

def canonEnd (q : Int) : List Field → Int
  | [] => q
  | f :: fs => canonEnd (f.cnext q) fs

def Canonical (m : Mem UInt8) (q : Int) : List Field → Prop
  | [] => True
  | f :: fs => Mem.Holds m (f.cplace q) f.form ∧ Canonical m (f.cnext q) fs

def encode (m : Mem UInt8) (q : Int) : List Field → Mem UInt8
  | [] => m
  | f :: fs => encode (Mem.write m (f.cplace q) f.form) (f.cnext q) fs

/- The addresses that the canonical form gives a byte; the others are padding. -/
def Written (q a : Int) : List Field → Prop
  | [] => False
  | f :: fs => (f.cplace q ≤ a ∧ a < f.cplace q + f.form.length) ∨ Written (f.cnext q) a fs

/-- The canonical form fits the work buffer of the copy. -/
def Fits (k : Copy) (fs : List Field) : Prop := canonEnd 0 fs ≤ k.size

instance (k : Copy) (fs : List Field) : Decidable (Fits k fs) :=
  inferInstanceAs (Decidable (_ ≤ _))

theorem le_SALIGN (p : Int) : p ≤ SALIGN p := by
  simp only [SALIGN]
  omega

theorem le_LALIGN (p : Int) : p ≤ LALIGN p := by
  simp only [LALIGN]
  omega

theorem Field.le_place (f : Field) (p : Int) : p ≤ f.place p := by
  cases f with
  | s v => exact le_SALIGN p
  | i v => exact le_LALIGN p
  | l v => exact le_LALIGN p
  | b v => exact Int.le_refl p
  | c ds bs h => exact Int.le_refl p

theorem Field.le_cplace (f : Field) (q : Int) : q ≤ f.cplace q := by
  cases f with
  | b v => exact Int.le_refl q
  | _ => exact le_LALIGN q

theorem Field.form_le_cnext (f : Field) (q : Int) : f.cplace q + f.form.length ≤ f.cnext q := by
  cases f with
  | c ds bs h => exact le_LALIGN _
  | _ => exact Int.le_refl _

theorem Field.le_next (f : Field) (p : Int) : p ≤ f.next p := by
  have h := f.le_place p
  simp only [Field.next]
  omega

theorem Field.le_cnext (f : Field) (q : Int) : q ≤ f.cnext q := by
  have h := f.le_cplace q
  have h' := f.form_le_cnext q
  omega

theorem le_extent (fs : List Field) (p : Int) : p ≤ extent p fs := by
  induction fs generalizing p with
  | nil => exact Int.le_refl p
  | cons f fs ih => exact Int.le_trans (f.le_next p) (ih _)

theorem le_canonEnd (fs : List Field) (q : Int) : q ≤ canonEnd q fs := by
  induction fs generalizing q with
  | nil => exact Int.le_refl q
  | cons f fs ih => exact Int.le_trans (f.le_cnext q) (ih _)

theorem length_longBytes (n : Nat) : (longBytes n).length = 4 := rfl

/- The field in the structure is no longer than its canonical form. -/
theorem Field.next_le_cnext (f : Field) (h : p ≤ q) : f.next p ≤ f.cnext q := by
  cases f with
  | s v =>
    simp only [Field.next, Field.cnext, Field.place, Field.cplace, Field.raw, Field.form,
      shortBytes, length_longBytes, SALIGN, LALIGN, List.length_cons, List.length_nil]
    omega
  | i v =>
    simp only [Field.next, Field.cnext, Field.place, Field.cplace, Field.raw, Field.form,
      length_longBytes, IALIGN, LALIGN]
    omega
  | l v =>
    simp only [Field.next, Field.cnext, Field.place, Field.cplace, Field.raw, Field.form,
      length_longBytes, LALIGN]
    omega
  | b v =>
    simp only [Field.next, Field.cnext, Field.place, Field.cplace, Field.raw, Field.form,
      List.length_cons, List.length_nil]
    omega
  | c ds bs hc =>
    simp only [Field.next, Field.cnext, Field.place, Field.cplace, Field.raw, Field.form,
      List.length_append, length_longBytes, LALIGN]
    omega

theorem extent_le_canonEnd (fs : List Field) (h : p ≤ q) : extent p fs ≤ canonEnd q fs := by
  induction fs generalizing p q with
  | nil => exact h
  | cons f fs ih => exact ih (f.next_le_cnext h)

theorem extent_append (fs gs : List Field) (p : Int) :
    extent p (fs ++ gs) = extent (extent p fs) gs := by
  induction fs generalizing p with
  | nil => rfl
  | cons f fs ih => exact ih _

theorem canonEnd_append (fs gs : List Field) (q : Int) :
    canonEnd q (fs ++ gs) = canonEnd (canonEnd q fs) gs := by
  induction fs generalizing q with
  | nil => rfl
  | cons f fs ih => exact ih _

theorem laid_append {fs gs : List Field} :
    Laid m p (fs ++ gs) ↔ Laid m p fs ∧ Laid m (extent p fs) gs := by
  induction fs generalizing p with
  | nil => simp [Laid, extent]
  | cons f fs ih =>
    rw [List.cons_append, Laid, Laid, ih, extent, and_assoc]

theorem canon_append {fs gs : List Field} :
    Canonical m q (fs ++ gs) ↔ Canonical m q fs ∧ Canonical m (canonEnd q fs) gs := by
  induction fs generalizing q with
  | nil => simp [Canonical, canonEnd]
  | cons f fs ih =>
    rw [List.cons_append, Canonical, Canonical, ih, canonEnd, and_assoc]

theorem text_cons (f : Field) (fs : List Field) : text (f :: fs) = f.text ++ text fs :=
  List.flatMap_cons

/- No field begins with a digit. -/
theorem text_head (fs : List Field) : ∀ c ∈ (text fs).head?, digit c = false := by
  intro c hc
  cases fs with
  | nil => cases hc
  | cons f fs =>
    rw [text_cons] at hc
    cases f with
    | _ =>
      have hc' := Option.some.inj hc
      subst hc'
      decide

theorem layout_out {fs : List Field} {a : Int} (h : a < p ∨ extent p fs ≤ a) :
    layout m p fs a = m a := by
  induction fs generalizing m p with
  | nil => rfl
  | cons f fs ih =>
    have hp := f.le_place p
    have hn := le_extent fs (f.next p)
    rw [extent] at h
    simp only [Field.next] at h hn
    rw [layout, ih, Mem.write_out]
    · omega
    · simp only [Field.next]
      omega

theorem encode_out {fs : List Field} {a : Int} (h : ¬ Written q a fs) :
    encode m q fs a = m a := by
  induction fs generalizing m q with
  | nil => rfl
  | cons f fs ih =>
    rw [Written] at h
    rw [encode, ih fun h' => h (.inr h'), Mem.write_out]
    omega

theorem Written.range {fs : List Field} {a : Int} (h : Written q a fs) :
    q ≤ a ∧ a < canonEnd q fs := by
  induction fs generalizing q with
  | nil => exact h.elim
  | cons f fs ih =>
    have hq := f.le_cplace q
    have hf := f.form_le_cnext q
    cases h with
    | inl h =>
      have he := le_canonEnd fs (f.cnext q)
      rw [canonEnd]
      omega
    | inr h =>
      have h' := ih h
      rw [canonEnd]
      omega

/- A structure takes as much at one word as at another. -/
theorem Field.next_shift (f : Field) (p k : Int) : f.next (p + 4 * k) = f.next p + 4 * k := by
  cases f with
  | s v =>
    simp only [Field.next, Field.place, SALIGN]
    omega
  | i v =>
    simp only [Field.next, Field.place, IALIGN]
    omega
  | l v =>
    simp only [Field.next, Field.place, LALIGN]
    omega
  | _ =>
    simp only [Field.next, Field.place]
    omega

theorem extent_shift (fs : List Field) (p k : Int) :
    extent (p + 4 * k) fs = extent p fs + 4 * k := by
  induction fs generalizing p with
  | nil => rfl
  | cons f fs ih => rw [extent, f.next_shift, ih, extent]

theorem Field.cplace_shift (f : Field) (q k : Int) :
    f.cplace (q + 4 * k) = f.cplace q + 4 * k := by
  cases f with
  | b v => rfl
  | _ =>
    simp only [Field.cplace, LALIGN]
    omega

theorem Field.cnext_shift (f : Field) (q k : Int) : f.cnext (q + 4 * k) = f.cnext q + 4 * k := by
  have h := f.cplace_shift q k
  cases f with
  | c ds bs hc =>
    simp only [Field.cnext, LALIGN] at h ⊢
    omega
  | _ =>
    simp only [Field.cnext] at h ⊢
    omega

theorem written_shift {fs : List Field} {a : Int} (k : Int) :
    Written (q + 4 * k) (a + 4 * k) fs ↔ Written q a fs := by
  induction fs generalizing q with
  | nil => exact Iff.rfl
  | cons f fs ih =>
    rw [Written, Written, f.cplace_shift, f.cnext_shift, ih]
    exact or_congr (by omega) Iff.rfl

theorem written_append {fs gs : List Field} {a : Int} :
    Written q a (fs ++ gs) ↔ Written q a fs ∨ Written (canonEnd q fs) a gs := by
  induction fs generalizing q with
  | nil => simp [Written, canonEnd]
  | cons f fs ih => rw [List.cons_append, Written, Written, ih, canonEnd, or_assoc]

theorem canonEnd_shift (fs : List Field) (q k : Int) :
    canonEnd (q + 4 * k) fs = canonEnd q fs + 4 * k := by
  induction fs generalizing q with
  | nil => rfl
  | cons f fs ih => rw [canonEnd, f.cnext_shift, ih, canonEnd]

theorem Canonical.shift {fs : List Field} (hc : Canonical m q fs) (k : Int)
    (h : ∀ a, q ≤ a → a < canonEnd q fs → m' (a + 4 * k) = m a) :
    Canonical m' (q + 4 * k) fs := by
  induction fs generalizing q with
  | nil => trivial
  | cons f fs ih =>
    have hq := f.le_cplace q
    have hf := f.form_le_cnext q
    have he := le_canonEnd fs (f.cnext q)
    rw [canonEnd] at h
    rw [Canonical, f.cplace_shift, f.cnext_shift]
    refine ⟨hc.1.shift fun a h1 h2 => h a ?_ ?_, ih hc.2 fun a h1 h2 => h a ?_ h2⟩
    · omega
    · omega
    · omega

/- What is written does not depend on the memory, nor on the word where the form begins. -/
theorem encode_written {fs : List Field} {a : Int} (h : Written q a fs) (m m' : Mem UInt8)
    (k : Int) : encode m' (q + 4 * k) fs (a + 4 * k) = encode m q fs a := by
  induction fs generalizing m m' q with
  | nil => exact h.elim
  | cons f fs ih =>
    rw [encode, encode, f.cplace_shift, f.cnext_shift]
    by_cases hw : Written (f.cnext q) a fs
    · exact ih hw _ _
    · have hf := f.form_le_cnext q
      have hs := f.cnext_shift q k
      have h1 := h.resolve_right hw
      rw [encode_out hw, encode_out fun h' => ?_]
      · exact Mem.write_shift h1.1 h1.2
      · have hr := h'.range
        omega

/-- The structure that is put at `p` is there. -/
theorem laid_layout (m : Mem UInt8) (p : Int) (fs : List Field) : Laid (layout m p fs) p fs := by
  induction fs generalizing m p with
  | nil => trivial
  | cons f fs ih =>
    have hw : Mem.Same (Mem.write m (f.place p) f.raw)
        (layout (Mem.write m (f.place p) f.raw) (f.next p) fs) (f.place p) (f.next p) :=
      fun a ha ha' => layout_out (.inl ha')
    exact ⟨hw.holds Mem.write_holds, ih _ _⟩

theorem canon_encode (m : Mem UInt8) (q : Int) (fs : List Field) : Canonical (encode m q fs) q fs := by
  induction fs generalizing m q with
  | nil => trivial
  | cons f fs ih =>
    have hf := f.form_le_cnext q
    have hw : Mem.Same (Mem.write m (f.cplace q) f.form)
        (encode (Mem.write m (f.cplace q) f.form) (f.cnext q) fs) (f.cplace q)
        (f.cplace q + f.form.length) := by
      refine fun a ha ha' => encode_out fun h => ?_
      have hr := h.range
      omega
    exact ⟨hw.holds Mem.write_holds, ih _ _⟩

end Svr32.Canon

/-! What the loads, the copying and strlen find in a memory that holds a field. -/
namespace Svr32.Canon
open Svr32.Lib
variable {m m' : Mem UInt8} {p q : Int} {n : Nat}

theorem short_holds (h : Mem.Holds m p (shortBytes n)) : short m p = n % 2 ^ 16 := by
  rw [short, h.1, h.2.1, UInt8.toNat_ofNat', UInt8.toNat_ofNat']
  omega

theorem long_holds (h : Mem.Holds m p (longBytes n)) : long m p = n % 2 ^ 32 := by
  obtain ⟨hi, lo⟩ := Mem.holds_append.1 h
  have h1 := short_holds hi
  have h2 : short m (p + 2) = n % 2 ^ 16 := short_holds lo
  rw [long, h1, h2]
  omega

theorem ofNat_congr {k : Nat} (h : n % 2 ^ 8 = k % 2 ^ 8) : UInt8.ofNat n = UInt8.ofNat k := by
  apply UInt8.toNat_inj.1
  rw [UInt8.toNat_ofNat', UInt8.toNat_ofNat', h]

/-- A short that became a long and is cut off again. -/
theorem shortBytes_extend (n : Nat) : shortBytes (extend n) = shortBytes n := by
  rw [extend]
  split
  · rfl
  · rw [shortBytes, shortBytes, ofNat_congr (n := n + (2 ^ 32 - 2 ^ 16)) (k := n) (by omega),
      ofNat_congr (n := (n + (2 ^ 32 - 2 ^ 16)) / 2 ^ 8) (k := n / 2 ^ 8) (by omega)]

theorem extend_lt (h : n < 2 ^ 16) : extend n < 2 ^ 32 := by
  rw [extend]
  split <;> omega

theorem strlenFrom_holds {str : List UInt8} {k : Nat} (h : Mem.Holds m p (str ++ [0]))
    (h0 : 0 ∉ str) (hk : str.length < k) : strlenFrom m k p = str.length := by
  induction str generalizing p k with
  | nil =>
    cases k with
    | zero => omega
    | succ k => rw [strlenFrom, if_pos h.1, List.length_nil]
  | cons c str ih =>
    cases k with
    | zero => omega
    | succ k =>
      rw [List.length_cons] at hk
      have hc : m p ≠ 0 := fun he => h0 (he.symm.trans h.1 ▸ List.mem_cons_self)
      rw [strlenFrom, if_neg hc, ih h.2 (fun h' => h0 (List.mem_cons_of_mem c h')) (by omega),
        List.length_cons]

theorem read_same (h : Mem.Same m m' p (p + n)) : Mem.read m' p n = Mem.read m p n := by
  induction n generalizing p with
  | zero => rfl
  | succ n ih =>
    have hp := h p (by omega) (by omega)
    rw [Mem.read, Mem.read, hp, ih (h.mono (by omega) (by omega))]

/-- The bytes are taken one after the other; none is overwritten before it is taken. -/
theorem copy_eq (x : Cursor) (h : x.dst ≤ x.src ∨ x.src + n ≤ x.dst) :
    Cursor.copy n x =
      ⟨x.src + n, x.dst + n, Mem.write x.mem x.dst (Mem.read x.mem x.src n)⟩ := by
  induction n generalizing x with
  | zero => simp [Cursor.copy, Mem.read, Mem.write]
  | succ n ih =>
    have hs : Mem.Same x.mem (Function.update x.mem x.dst (x.mem x.src)) (x.src + 1)
        (x.src + 1 + n) := fun i hi hi' => Function.update_of_ne (by omega) _ _
    rw [Cursor.copy, ih _ (by simp only; omega)]
    rw [Mem.read, Mem.write, read_same hs]
    congr 1 <;> simp only <;> omega

theorem ulong_small (h : n < 2 ^ 32) : ulong n = n := by
  rw [ulong]
  omega

end Svr32.Canon
