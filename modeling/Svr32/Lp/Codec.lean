import Svr32.Lib.Mem
import Svr32.Lib.Word
import Mathlib.Data.List.Defs
import Mathlib.Tactic.Ring

/-! lp/lib/msgs: hslconv.c, msgfmts.c, _putmessage.c and _getmessage.c. Addresses in a message
are counted from its buffer. -/
namespace Svr32.Lp
open Svr32.Lib

def LAST_UMESSAGE : Int := 68
def LAST_IMESSAGE : Int := 70

def HEAD_SIZE : Int := 8
def HEAD_TYPE : Int := 12
def HEAD_LEN : Int := 16
def TAIL_LEN : Int := 6
def CONTROL_LEN : Int := HEAD_LEN + TAIL_LEN
def MSGMAX : Int := 2048

/- "0123456789ABCDEF" -/
def hextable : List UInt8 :=
  [48, 49, 50, 51, 52, 53, 54, 55, 56, 57, 65, 66, 67, 68, 69, 70]

/- What strchr says of a digit; the terminator is found too. -/
def strchr (c : UInt8) : Option Nat := (hextable ++ [0]).idxOf? c

/- while (i >= 0); `i` is the number of the digits that are left. -/
def tos (s : Int) : Nat → Nat → Mem UInt8 → Mem UInt8
  | 0, _, m => m
  | i + 1, v, m => tos s i (v / 16) (Function.update m (s + i) (hextable.getD (v % 16) 0))

def htos (s h : Int) (m : Mem UInt8) : Mem UInt8 := tos s 4 (h % 2 ^ 16).toNat m

def ltos (s l : Int) (m : Mem UInt8) : Mem UInt8 := tos s 8 (l % 2 ^ 32).toNat m

/- What is taken for a digit that strchr does not find: 0 less the address of the table. -/
structure Machine where
  hexaddr : Nat
  /- The callers of stoh declare it to be short, and it returns unsigned short. -/
  signed : Bool

/- h <<= 4; h += strchr(..) - _lp_hextable, in `w` bits. -/
def shiftIn (M : Machine) (w : Nat) (h : Nat) (c : UInt8) : Nat :=
  match strchr c with
  | some k => (h * 16 + k) % 2 ^ w
  | none => (h * 16 + (2 ^ w - M.hexaddr % 2 ^ w)) % 2 ^ w

/- What can be read of a memory: a byte that is outside is a fault. -/
abbrev View := Int → Option UInt8

/- `n` digits that are left. -/
def sto (M : Machine) (w : Nat) (b : View) : Nat → Int → Nat → Option Nat
  | 0, _, h => some h
  | n + 1, s, h => do sto M w b n (s + 1) (shiftIn M w h (← b s))

/- stoh as its callers see it. -/
def stoh (M : Machine) (b : View) (s : Int) : Option Int :=
  (sto M 16 b 4 s 0).map fun h : Nat => if M.signed then i16 h else h

def stol (M : Machine) (b : View) (s : Int) : Option Int :=
  (sto M 32 b 8 s 0).map fun l : Nat => i32 l

/- The letters of a format. -/
inductive Conv
  | H
  | L
  | S
deriving DecidableEq

open Conv in
/- _lp_msg_fmts -/
def msgFmts (useFifos : Bool) : List (List Conv) :=
  [[], if useFifos then [H, S, S] else [L, L, S], [H], [H], [H, S], [S], [H, S, L], [S], [H, S],
    [S], [H, L], [S], [H], [S, S, S, S, S], [H, S, S, L, L, H, S, S, S], [S], [H], [S], [H], [S],
    [H, S, S, S, S, S, H, S, L, L], [S], [H], [S], [H], [S], [H, S, H, S, L], [S, S, S], [H],
    [S, S, S], [H], [S, S], [H, L], [S, S], [H, S, H], [S], [H], [S, S], [H], [S], [H],
    [S, S, H], [H, S], [], [H], [], [H], [S], [H], [S], [H], [], [H], [], [H], [S], [H], [S],
    [H], [], [H], [S, H], [H], [S, L, S], [H], [H], [H], [], [L, H, H, H], [], []]

def fmts (useFifos : Bool) (type : Int) : List Conv := (msgFmts useFifos).getD type.toNat []

/- A C string without its terminator. -/
structure CStr where
  bytes : List UInt8
  nonul : 0 ∉ bytes

/- The arguments for a format: ints, and strings that may be NULL. -/
inductive Args : List Conv → Type
  | nil : Args []
  | H {f : List Conv} (h : Int) (as : Args f) : Args (.H :: f)
  | L {f : List Conv} (l : Int) (as : Args f) : Args (.L :: f)
  | S {f : List Conv} (s : Option CStr) (as : Args f) : Args (.S :: f)

/- The bytes of a string with its terminator; NULL is taken for an empty string. -/
def cbytes (s : Option CStr) : List UInt8 := (s.map CStr.bytes).getD [] ++ [0]

/- What memcpy copies, or the byte that is stored for NULL. -/
def copied : Option CStr → Nat → List UInt8
  | some s, n => (s.bytes ++ [0]).take n
  | none, _ => [0]

/- The loop of _putmessage. -/
def putArgs : {f : List Conv} → Args f → Option (Mem UInt8) → Int → Option (Mem UInt8) × Int
  | _, .nil, buf, size => (buf, size)
  | _, .H h as, buf, size => putArgs as (buf.map (htos size (i16 h))) (size + 4)
  | _, .L l as, buf, size => putArgs as (buf.map (ltos size l)) (size + 8)
  | _, .S s as, buf, size =>
    let n := i16 (cbytes s).length
    putArgs as ((buf.map (htos size n)).map (Mem.write · (size + 4) (copied s n.toNat)))
      (size + 4 + n)

inductive Errno
  | EBADMSG
  | ENOSPC
  | ENOMSG
  | EINVAL

/-- _putmessage: the buffer, if there is one, and the size. -/
def putmessage (useFifos : Bool) (buf : Option (Mem UInt8)) (type : Int)
    (arg : Args (fmts useFifos type)) : Except Errno (Option (Mem UInt8) × Int) :=
  if type < 0 ∨ LAST_IMESSAGE < type then .error .EBADMSG
  else
    let (buf, size) := putArgs arg (buf.map (htos HEAD_TYPE type)) HEAD_LEN
    let buf := buf.map (Function.update · size 0)
    let size := size + 1 + TAIL_LEN
    .ok (buf.map (htos HEAD_SIZE size), size)

/- What is stored through an argument of getmessage: a number, or the address of a string. -/
inductive Ret
  | H (h : Int)
  | L (l : Int)
  | S (buf : Int)

/- Something stored before the rest. -/
def stored (r : Ret) : List Ret × Except Errno Unit → List Ret × Except Errno Unit
  | (rs, e) => (r :: rs, e)

/- The loop of _getmessage. -/
def getArgs (M : Machine) (b : View) (endbuf : Int) :
    List Conv → Int → Option (List Ret × Except Errno Unit)
  | [], _ => some ([], .ok ())
  | .H :: f, buf =>
    if endbuf < buf + 4 then some ([], .error .ENOMSG)
    else do return stored (.H (i16 (← stoh M b buf))) (← getArgs M b endbuf f (buf + 4))
  | .L :: f, buf =>
    if endbuf < buf + 8 then some ([], .error .ENOMSG)
    else do return stored (.L (← stol M b buf)) (← getArgs M b endbuf f (buf + 8))
  | .S :: f, buf =>
    if endbuf < buf + 4 then some ([], .error .ENOMSG)
    else do
      let temp ← stoh M b buf
      if endbuf < buf + 4 + temp then some ([], .error .ENOMSG)
      else return stored (.S (buf + 4)) (← getArgs M b endbuf f (buf + 4 + temp))

/- What was stored and what is returned. -/
def finish (etype : Int) : List Ret × Except Errno Unit → List Ret × Except Errno Int
  | (rs, .ok ()) => (rs, .ok etype)
  | (rs, .error e) => (rs, .error e)

/-- _getmessage; `none` where it reads outside of what is given. -/
def getmessage (M : Machine) (useFifos : Bool) (b : Option View) (rtype : Int) :
    Option (List Ret × Except Errno Int) :=
  match b with
  | none => some ([], .error .ENOSPC)
  | some b => do
    let endbuf ← stoh M b HEAD_SIZE
    if endbuf < CONTROL_LEN then some ([], .error .ENOMSG)
    else
      let etype := i16 (← stoh M b HEAD_TYPE)
      if etype < 0 ∨ LAST_UMESSAGE < etype then some ([], .error .EBADMSG)
      else if etype = rtype ∨ LAST_UMESSAGE < rtype ∧ rtype ≤ LAST_IMESSAGE then
        return finish etype (← getArgs M b endbuf (fmts useFifos rtype) HEAD_LEN)
      else some ([], .error .EINVAL)

end Svr32.Lp

/-! hslconv.c: the digits that are written are read again. -/
namespace Svr32.Lp
open Svr32.Lib
variable {M : Machine} {m m' : Mem UInt8} {s e p : Int} {v w n h : Nat} {bs : List UInt8}

/- The last `n` hexadecimal digits. -/
def digits : Nat → Nat → List UInt8
  | 0, _ => []
  | n + 1, v => digits n (v / 16) ++ [hextable.getD (v % 16) 0]

theorem length_digits (n v : Nat) : (digits n v).length = n := by
  induction n generalizing v with
  | zero => rfl
  | succ n ih => rw [digits, List.length_append, ih, List.length_singleton]

theorem tos_out {q : Int} (hq : q < s ∨ s + n ≤ q) : tos s n v m q = m q := by
  induction n generalizing v m with
  | zero => rfl
  | succ n ih =>
    rw [tos, ih (by omega), Function.update_of_ne (by omega)]

theorem tos_holds : Mem.Holds (tos s n v m) s (digits n v) := by
  induction n generalizing v m with
  | zero => trivial
  | succ n ih =>
    refine Mem.holds_append.mpr ⟨ih, ?_, trivial⟩
    rw [tos, length_digits, tos_out (by omega), Function.update_self]

theorem strchr_digit (v : Nat) : strchr (hextable.getD (v % 16) 0) = some (v % 16) := by
  have hall : ∀ d : Fin 16, strchr (hextable.getD d 0) = some d.val := by decide
  exact hall ⟨v % 16, Nat.mod_lt v (by decide)⟩

/-- Shifting in the digits of a number gives its last bits. -/
theorem foldl_digits (n v : Nat) :
    (digits n v).foldl (shiftIn M w) 0 = v % 16 ^ n % 2 ^ w := by
  induction n generalizing v with
  | zero => rw [pow_zero, Nat.mod_one, Nat.zero_mod]; rfl
  | succ n ih =>
    have hsplit : v % 16 ^ (n + 1) = v % 16 + 16 * (v / 16 % 16 ^ n) := by
      rw [pow_succ', Nat.mod_mul]
    rw [digits, List.foldl_append, ih, List.foldl_cons, List.foldl_nil, shiftIn, strchr_digit,
      hsplit, Nat.add_comm (v % 16), Nat.mul_comm 16]
    simp only [Nat.add_mod, Nat.mul_mod, Nat.mod_mod]

/- What can be read of a memory up to an address. -/
def upto (m : Mem UInt8) (e : Int) : View := fun i => if i < e then some (m i) else none

theorem upto_eq (h : p < e) : upto m e p = some (m p) := if_pos h

theorem sto_upto (hb : Mem.Holds m s bs) (he : s + bs.length ≤ e) :
    sto M w (upto m e) bs.length s h = some (bs.foldl (shiftIn M w) h) := by
  induction bs generalizing s h with
  | nil => rfl
  | cons b bs ih =>
    rw [List.length_cons] at he ⊢
    rw [sto, upto_eq (by omega), hb.1, Option.bind_eq_bind, Option.bind_some,
      ih hb.2 (by omega), List.foldl_cons]

theorem sto_digits (hb : Mem.Holds m s (digits n v)) (he : s + n ≤ e) :
    sto M w (upto m e) n s 0 = some (v % 16 ^ n % 2 ^ w) := by
  have hlen := length_digits n v
  have hsto := @sto_upto M m s e w 0 _ hb (by rw [hlen]; exact he)
  rw [hlen] at hsto
  rw [hsto, foldl_digits]

/- The digits of a halfword and of a word. -/
abbrev hdigits (h : Int) : List UInt8 := digits 4 (h % 2 ^ 16).toNat
abbrev ldigits (l : Int) : List UInt8 := digits 8 (l % 2 ^ 32).toNat

theorem stoh_digits {x : Int} (hb : Mem.Holds m s (hdigits x)) (he : s + 4 ≤ e) :
    stoh M (upto m e) s = some (if M.signed then i16 x else x % 2 ^ 16) := by
  have hmod : (((x % 2 ^ 16).toNat % 16 ^ 4 % 2 ^ 16 : Nat) : Int) = x % 2 ^ 16 := by omega
  rw [stoh, sto_digits hb he, Option.map_some, hmod, i16_emod]

theorem stol_digits {x : Int} (hb : Mem.Holds m s (ldigits x)) (he : s + 8 ≤ e) :
    stol M (upto m e) s = some (i32 x) := by
  have hmod : (((x % 2 ^ 32).toNat % 16 ^ 8 % 2 ^ 32 : Nat) : Int) = x % 2 ^ 32 := by omega
  rw [stol, sto_digits hb he, Option.map_some, hmod, i32_emod]

/-- A number that is not negative as a short is read as it is. -/
theorem stoh_small {x : Int} (hb : Mem.Holds m s (hdigits x)) (he : s + 4 ≤ e) (h0 : 0 ≤ x)
    (h1 : x < 2 ^ 15) : stoh M (upto m e) s = some x := by
  have hmod : x % 2 ^ 16 = x := Int.emod_eq_of_lt h0 (by omega)
  rw [stoh_digits hb he, i16_eq (by omega) h1, hmod, ite_self]

/-- A short is read as it is. -/
theorem stoh_short {x : Int} (hb : Mem.Holds m s (hdigits x)) (he : s + 4 ≤ e) :
    (stoh M (upto m e) s).map i16 = some (i16 x) := by
  rw [stoh_digits hb he, Option.map_some]
  split
  · rw [i16_i16]
  · rw [i16_emod]

end Svr32.Lp
