import Svr32.Lp.Codec
import Svr32.Lp.Fifo

/-! What _putmessage builds is taken apart by _getmessage, and how far it looks. -/
namespace Svr32.Lp
open Svr32.Lib
variable {M : Machine} {m m' : Mem UInt8} {f : List Conv} {p e endbuf lo : Int}
  {args : Args f} {rs : List Ret} {useFifos : Bool} {type rtype : Int}

/- The bytes that the arguments take. -/
def Args.len : {f : List Conv} → Args f → Nat
  | _, .nil => 0
  | _, .H _ as => 4 + as.len
  | _, .L _ as => 8 + as.len
  | _, .S s as => 4 + (cbytes s).length + as.len

/- The memory holds the arguments from `p` on. -/
def Encoded (m : Mem UInt8) : {f : List Conv} → Args f → Int → Prop
  | _, .nil, _ => True
  | _, .H h as, p => Mem.Holds m p (hdigits (i16 h)) ∧ Encoded m as (p + 4)
  | _, .L l as, p => Mem.Holds m p (ldigits l) ∧ Encoded m as (p + 8)
  | _, .S s as, p => Mem.Holds m p (hdigits (cbytes s).length) ∧
    Mem.Holds m (p + 4) (cbytes s) ∧ Encoded m as (p + 4 + (cbytes s).length)

/-- What is stored for the arguments: shorts, longs, and where the strings are. -/
inductive Gives (m : Mem UInt8) : {f : List Conv} → Args f → List Ret → Prop
  | nil : Gives m .nil []
  | H {f : List Conv} {as : Args f} {rs : List Ret} (h : Int) :
    Gives m as rs → Gives m (.H h as) (.H (i16 h) :: rs)
  | L {f : List Conv} {as : Args f} {rs : List Ret} (l : Int) :
    Gives m as rs → Gives m (.L l as) (.L (i32 l) :: rs)
  | S {f : List Conv} {as : Args f} {rs : List Ret} {s : Option CStr} {p : Int} :
    Mem.Holds m p (cbytes s) → Gives m as rs → Gives m (.S s as) (.S p :: rs)

theorem length_hdigits (x : Int) : ((hdigits x).length : Int) = 4 := by
  rw [length_digits]
  rfl

theorem length_ldigits (x : Int) : ((ldigits x).length : Int) = 8 := by
  rw [length_digits]
  rfl

theorem Encoded.same (h : Encoded m args p) (hs : Mem.Same m m' p (p + args.len)) :
    Encoded m' args p := by
  induction args generalizing p with
  | nil => trivial
  | H x as ih =>
    rw [Args.len] at hs
    have hlen := length_hdigits (i16 x)
    exact ⟨(hs.mono (le_refl p) (by omega)).holds h.1,
      ih h.2 (hs.mono (by omega) (by omega))⟩
  | L x as ih =>
    rw [Args.len] at hs
    have hlen := length_ldigits x
    exact ⟨(hs.mono (le_refl p) (by omega)).holds h.1,
      ih h.2 (hs.mono (by omega) (by omega))⟩
  | S s as ih =>
    rw [Args.len] at hs
    have hlen := length_hdigits (cbytes s).length
    exact ⟨(hs.mono (le_refl p) (by omega)).holds h.1,
      (hs.mono (by omega) (by omega)).holds h.2.1, ih h.2.2 (hs.mono (by omega) (by omega))⟩

theorem htos_same (h : lo ≤ p) (x : Int) (r : Int) : Mem.Same m (htos p x m) r lo :=
  fun _ _ hi => tos_out (.inl (by omega))

theorem ltos_same (h : lo ≤ p) (x : Int) (r : Int) : Mem.Same m (ltos p x m) r lo :=
  fun _ _ hi => tos_out (.inl (by omega))

theorem htos_same_above (h : p + 4 ≤ lo) (x : Int) (r : Int) : Mem.Same m (htos p x m) lo r :=
  fun _ hi _ => tos_out (.inr (by omega))

theorem copied_eq (s : Option CStr) : copied s (cbytes s).length = cbytes s := by
  cases s with
  | none => rfl
  | some s => exact List.take_length

/-- The loop of _putmessage writes the arguments and nothing below them. -/
theorem putArgs_spec (hlen : args.len < 2 ^ 15) :
    ∃ m', putArgs args (some m) p = (some m', p + args.len) ∧ Encoded m' args p ∧
      ∀ r, Mem.Same m m' r p := by
  induction args generalizing m p with
  | nil => exact ⟨m, by rw [putArgs, Args.len]; simp, trivial, fun r i _ _ => rfl⟩
  | H x as ih =>
    rw [Args.len] at hlen
    obtain ⟨m', hput, henc, hsame⟩ := @ih (htos p (i16 x) m) (p + 4) (by omega)
    refine ⟨m', ?_, ⟨(hsame p).mono (le_refl p) ?_ |>.holds tos_holds, henc⟩, fun r => ?_⟩
    · rw [putArgs, Option.map_some, hput, Args.len]
      push_cast
      rw [add_assoc]
    · rw [length_hdigits]
    · exact (htos_same (le_refl p) _ r).trans ((hsame r).mono (le_refl r) (by omega))
  | L x as ih =>
    rw [Args.len] at hlen
    obtain ⟨m', hput, henc, hsame⟩ := @ih (ltos p x m) (p + 8) (by omega)
    refine ⟨m', ?_, ⟨(hsame p).mono (le_refl p) ?_ |>.holds tos_holds, henc⟩, fun r => ?_⟩
    · rw [putArgs, Option.map_some, hput, Args.len]
      push_cast
      rw [add_assoc]
    · rw [length_ldigits]
    · exact (ltos_same (le_refl p) _ r).trans ((hsame r).mono (le_refl r) (by omega))
  | S s as ih =>
    rw [Args.len] at hlen
    have hn : i16 (cbytes s).length = (cbytes s).length := i16_eq (by omega) (by omega)
    obtain ⟨m', hput, henc, hsame⟩ :=
      @ih (Mem.write (htos p (cbytes s).length m) (p + 4) (cbytes s))
        (p + 4 + (cbytes s).length) (by omega)
    have hwrite : ∀ r, Mem.Same (htos p (cbytes s).length m)
        (Mem.write (htos p (cbytes s).length m) (p + 4) (cbytes s)) r (p + 4) := fun r =>
      Mem.same_write_below (le_refl _) _ r _
    have hhead : ∀ r, Mem.Same (htos p (cbytes s).length m) m' r (p + 4) := fun r =>
      (hwrite r).trans ((hsame r).mono (le_refl r) (by omega))
    refine ⟨m', ?_, ⟨?_, (hsame _).holds Mem.write_holds, henc⟩, fun r => ?_⟩
    · rw [putArgs]
      simp only [hn, Int.toNat_natCast, copied_eq]
      rw [Option.map_some, Option.map_some, hput, Args.len]
      push_cast
      simp only [add_assoc]
    · have hlen4 := length_hdigits (cbytes s).length
      exact ((hhead p).mono (le_refl p) (by omega)).holds tos_holds
    · exact (htos_same (le_refl p) _ r).trans ((hhead r).mono (le_refl r) (by omega))

/-- The loop of _getmessage reads the arguments. -/
theorem getArgs_spec (h : Encoded m args p) (hlen : args.len < 2 ^ 15)
    (hend : p + args.len ≤ endbuf) (he : endbuf ≤ e) :
    ∃ rs, getArgs M (upto m e) endbuf f p = some (rs, .ok ()) ∧ Gives m args rs := by
  induction args generalizing p with
  | nil => exact ⟨[], rfl, .nil⟩
  | H x as ih =>
    rw [Args.len] at hlen hend
    obtain ⟨rs, hget, hgives⟩ := ih h.2 (by omega) (by omega)
    have hread := @stoh_short M m p e (i16 x) h.1 (by omega)
    obtain ⟨y, hy, hyx⟩ := Option.map_eq_some_iff.mp hread
    refine ⟨.H (i16 x) :: rs, ?_, .H x hgives⟩
    rw [getArgs, if_neg (by omega), hy, hget]
    simp only [Option.bind_eq_bind, Option.bind_some, hyx, i16_i16]
    rfl
  | L x as ih =>
    rw [Args.len] at hlen hend
    obtain ⟨rs, hget, hgives⟩ := ih h.2 (by omega) (by omega)
    refine ⟨.L (i32 x) :: rs, ?_, .L x hgives⟩
    rw [getArgs, if_neg (by omega), stol_digits h.1 (by omega), hget]
    rfl
  | S s as ih =>
    rw [Args.len] at hlen hend
    obtain ⟨rs, hget, hgives⟩ := ih h.2.2 (by omega) (by omega)
    refine ⟨.S (p + 4) :: rs, ?_, .S h.2.1 hgives⟩
    rw [getArgs, if_neg (by omega), stoh_small h.1 (by omega) (by omega) (by omega)]
    simp only [Option.bind_eq_bind, Option.bind_some]
    rw [if_neg (by omega), hget]
    rfl

end Svr32.Lp

/-! The message codec: the round trip, and how far _getmessage looks into any buffer. -/
namespace Svr32.Lp
open Svr32.Lib
variable {M : Machine} {m m' : Mem UInt8} {f : List Conv} {p e endbuf : Int}
  {useFifos : Bool} {type rtype : Int}

theorem sizes : HEAD_LEN = 16 ∧ HEAD_SIZE = 8 ∧ HEAD_TYPE = 12 ∧ TAIL_LEN = 6 ∧
    CONTROL_LEN = 22 ∧ MSGMAX = 2048 ∧ LAST_UMESSAGE = 68 ∧ LAST_IMESSAGE = 70 :=
  ⟨rfl, rfl, rfl, rfl, rfl, rfl, rfl, rfl⟩

/-- What _putmessage leaves in a buffer: the size, the type and the arguments. -/
theorem putmessage_spec (arg : Args (fmts useFifos type)) (h0 : 0 ≤ type)
    (h1 : type ≤ LAST_IMESSAGE) (hlen : HEAD_LEN + arg.len + 1 + TAIL_LEN ≤ MSGMAX)
    (m : Mem UInt8) : ∃ m', putmessage useFifos (some m) type arg =
      .ok (some m', HEAD_LEN + arg.len + 1 + TAIL_LEN) ∧
      Mem.Holds m' HEAD_SIZE (hdigits (HEAD_LEN + arg.len + 1 + TAIL_LEN)) ∧
      Mem.Holds m' HEAD_TYPE (hdigits type) ∧ Encoded m' arg HEAD_LEN := by
  simp only [HEAD_LEN, HEAD_SIZE, HEAD_TYPE, TAIL_LEN, MSGMAX, LAST_IMESSAGE] at *
  obtain ⟨m₁, hput, henc, hsame⟩ := @putArgs_spec (htos 12 type m) _ 16 arg (by omega)
  have hnul : ∀ r, Mem.Same m₁ (Function.update m₁ (16 + (arg.len : Int)) 0) r
      (16 + arg.len) := fun r i _ hi => Function.update_of_ne (by omega) _ _
  refine ⟨htos 8 (16 + arg.len + 1 + 6) (Function.update m₁ (16 + (arg.len : Int)) 0),
    ?_, tos_holds, ?_, ?_⟩
  · rw [putmessage, if_neg (by simp only [LAST_IMESSAGE]; omega)]
    simp only [HEAD_LEN, HEAD_SIZE, HEAD_TYPE, TAIL_LEN, Option.map_some, hput]
  · have hlen4 := length_hdigits type
    have hhead : Mem.Same (htos 12 type m) m₁ 12 16 := hsame 12
    have hrest : Mem.Same m₁ (Function.update m₁ (16 + (arg.len : Int)) 0) 12 16 :=
      (hnul 12).mono (le_refl 12) (by omega)
    exact (((hhead.trans hrest).trans (htos_same_above (by omega) _ _)).mono (le_refl 12)
      (by omega)).holds tos_holds
  · apply Encoded.same (henc.same (hnul 16))
    exact htos_same_above (by omega) _ _

/-- _getmessage gives what _putmessage was given. -/
theorem round_trip (M : Machine) (arg : Args (fmts useFifos type)) (h0 : 0 ≤ type)
    (h1 : type ≤ LAST_UMESSAGE) (hlen : HEAD_LEN + arg.len + 1 + TAIL_LEN ≤ MSGMAX)
    (m : Mem UInt8) : ∃ m' size, putmessage useFifos (some m) type arg = .ok (some m', size) ∧
      ∃ rs, getmessage M useFifos (some (upto m' size)) type = some (rs, .ok type) ∧
        Gives m' arg rs := by
  obtain ⟨hHL, hHS, hHT, hTL, hCL, hMM, hLU, hLI⟩ := sizes
  obtain ⟨m', hput, hsize, htype, henc⟩ := putmessage_spec arg h0 (by omega) hlen m
  refine ⟨m', _, hput, ?_⟩
  obtain ⟨rs, hget, hgives⟩ := @getArgs_spec M m' _ HEAD_LEN
    (HEAD_LEN + arg.len + 1 + TAIL_LEN) _ arg henc (by omega) (by omega) (le_refl _)
  have hetype : i16 type = type := i16_eq (by omega) (by omega)
  refine ⟨rs, ?_, hgives⟩
  rw [getmessage]
  rw [stoh_small hsize (by omega) (by omega) (by omega), Option.bind_eq_bind, Option.bind_some,
    if_neg (by omega), stoh_small htype (by omega) h0 (by omega), Option.bind_some, hetype,
    if_neg (by omega), if_pos (.inl rfl), hget]
  rfl

/-- The messages of the spooler itself are refused. -/
theorem refused (M : Machine) (arg : Args (fmts useFifos type)) (h0 : LAST_UMESSAGE < type)
    (h1 : type ≤ LAST_IMESSAGE) (hlen : HEAD_LEN + arg.len + 1 + TAIL_LEN ≤ MSGMAX)
    (m : Mem UInt8) : ∃ m' size, putmessage useFifos (some m) type arg = .ok (some m', size) ∧
      ∀ rtype, getmessage M useFifos (some (upto m' size)) rtype =
        some ([], .error .EBADMSG) := by
  obtain ⟨hHL, hHS, hHT, hTL, hCL, hMM, hLU, hLI⟩ := sizes
  obtain ⟨m', hput, hsize, htype, -⟩ := putmessage_spec arg (by omega) h1 hlen m
  refine ⟨m', _, hput, fun rtype => ?_⟩
  have hetype : i16 type = type := i16_eq (by omega) (by omega)
  rw [getmessage]
  rw [stoh_small hsize (by omega) (by omega) (by omega), Option.bind_eq_bind, Option.bind_some,
    if_neg (by omega), stoh_small htype (by omega) (by omega) (by omega), Option.bind_some,
    hetype, if_pos (.inr (by omega))]

theorem sto_all {w n h : Nat} (he : p + n ≤ e) :
    ∃ v, sto M w (upto m e) n p h = some v ∧ sto M w (all m) n p h = some v := by
  induction n generalizing p h with
  | zero => exact ⟨h, rfl, rfl⟩
  | succ n ih =>
    obtain ⟨v, hv, hv'⟩ := @ih (p + 1) (shiftIn M w h (m p)) (by omega)
    refine ⟨v, ?_, hv'⟩
    rw [sto, upto_eq (by omega)]
    exact hv

theorem stoh_all (he : p + 4 ≤ e) : ∃ x, stoh M (upto m e) p = some x ∧
    stoh M (all m) p = some x ∧ (M.signed = false → 0 ≤ x) := by
  obtain ⟨v, hv, hv'⟩ := @sto_all M m p e 16 4 0 he
  refine ⟨if M.signed then i16 v else v, by rw [stoh, hv]; rfl, by rw [stoh, hv']; rfl, ?_⟩
  intro h
  simp [h]

theorem stol_all (he : p + 8 ≤ e) : ∃ x, stol M (upto m e) p = some x := by
  obtain ⟨v, hv, -⟩ := @sto_all M m p e 32 8 0 he
  exact ⟨i32 v, by rw [stol, hv]; rfl⟩

/- A string that is returned: what its length says is in front of `size`. -/
def Inside (M : Machine) (m : Mem UInt8) (lo size p : Int) : Prop :=
  ∃ n, stoh M (all m) (p - 4) = some n ∧ p ≤ size ∧ p + n ≤ size ∧
    (M.signed = false → lo ≤ p ∧ 0 ≤ n)

/-- The loop of _getmessage, on any bytes. -/
theorem getArgs_all (f : List Conv) (p : Int) (he : endbuf ≤ e) :
    ∃ r, getArgs M (upto m e) endbuf f p = some r ∧
      ∀ q, Ret.S q ∈ r.1 → Inside M m (p + 4) endbuf q := by
  induction f generalizing p with
  | nil => exact ⟨([], .ok ()), rfl, fun q hq => absurd hq List.not_mem_nil⟩
  | cons c f ih =>
    cases c with
    | H =>
      by_cases hend : endbuf < p + 4
      · exact ⟨_, if_pos hend, fun q hq => absurd hq List.not_mem_nil⟩
      · obtain ⟨r, hr, hin⟩ := ih (p + 4)
        obtain ⟨x, hx, -⟩ := @stoh_all M m p e (by omega)
        refine ⟨stored (.H (i16 x)) r, ?_, fun q hq => ?_⟩
        · rw [getArgs, if_neg hend, hx, hr]
          rfl
        · obtain ⟨n, hn, hq1, hq2, hlo⟩ := hin q ((List.mem_cons.mp hq).resolve_left nofun)
          exact ⟨n, hn, hq1, hq2, fun hs => ⟨by have := (hlo hs).1; omega, (hlo hs).2⟩⟩
    | L =>
      by_cases hend : endbuf < p + 8
      · exact ⟨_, if_pos hend, fun q hq => absurd hq List.not_mem_nil⟩
      · obtain ⟨r, hr, hin⟩ := ih (p + 8)
        obtain ⟨x, hx⟩ := @stol_all M m p e (by omega)
        refine ⟨stored (.L x) r, ?_, fun q hq => ?_⟩
        · rw [getArgs, if_neg hend, hx, hr]
          rfl
        · obtain ⟨n, hn, hq1, hq2, hlo⟩ := hin q ((List.mem_cons.mp hq).resolve_left nofun)
          exact ⟨n, hn, hq1, hq2, fun hs => ⟨by have := (hlo hs).1; omega, (hlo hs).2⟩⟩
    | S =>
      by_cases hend : endbuf < p + 4
      · exact ⟨_, if_pos hend, fun q hq => absurd hq List.not_mem_nil⟩
      · obtain ⟨x, hx, hall, hpos⟩ := @stoh_all M m p e (by omega)
        by_cases hstr : endbuf < p + 4 + x
        · refine ⟨([], .error .ENOMSG), ?_, fun q hq => absurd hq List.not_mem_nil⟩
          rw [getArgs, if_neg hend, hx]
          exact if_pos hstr
        · obtain ⟨r, hr, hin⟩ := ih (p + 4 + x)
          refine ⟨stored (.S (p + 4)) r, ?_, fun q hq => ?_⟩
          · rw [getArgs, if_neg hend, hx, Option.bind_eq_bind, Option.bind_some, if_neg hstr, hr]
            rfl
          · rcases List.mem_cons.mp hq with heq | hq
            · cases heq
              exact ⟨x, by rw [show p + 4 - 4 = p by omega]; exact hall, by omega, by omega,
                fun hs => ⟨le_refl _, hpos hs⟩⟩
            · obtain ⟨n, hn, hq1, hq2, hlo⟩ := hin q hq
              exact ⟨n, hn, hq1, hq2, fun hs => ⟨by
                have := (hlo hs).1
                have := hpos hs
                omega, (hlo hs).2⟩⟩

/-- Any bytes: nothing behind the size is read, but for the size itself. -/
theorem getmessage_all (M : Machine) (useFifos : Bool) (m : Mem UInt8) (rtype : Int) :
    ∃ size, stoh M (all m) HEAD_SIZE = some size ∧
      ∃ r, getmessage M useFifos (some (upto m (max HEAD_TYPE size))) rtype = some r ∧
        ∀ q, Ret.S q ∈ r.1 → Inside M m (HEAD_LEN + 4) size q := by
  obtain ⟨hHL, hHS, hHT, hTL, hCL, hMM, hLU, hLI⟩ := sizes
  obtain ⟨size, -, hsize, -⟩ := @stoh_all M m HEAD_SIZE HEAD_TYPE (by omega)
  obtain ⟨size', hread, hall, -⟩ := @stoh_all M m HEAD_SIZE (max HEAD_TYPE size) (by omega)
  cases hsize.symm.trans hall
  refine ⟨size, hsize, ?_⟩
  simp only [getmessage, hread, Option.bind_eq_bind, Option.bind_some]
  by_cases hend : size < CONTROL_LEN
  · exact ⟨_, if_pos hend, fun q hq => absurd hq List.not_mem_nil⟩
  obtain ⟨t, ht, -⟩ := @stoh_all M m HEAD_TYPE (max HEAD_TYPE size) (by omega)
  rw [if_neg hend, ht, Option.bind_some]
  by_cases hbad : i16 t < 0 ∨ LAST_UMESSAGE < i16 t
  · exact ⟨_, if_pos hbad, fun q hq => absurd hq List.not_mem_nil⟩
  rw [if_neg hbad]
  by_cases hr : i16 t = rtype ∨ LAST_UMESSAGE < rtype ∧ rtype ≤ LAST_IMESSAGE
  · obtain ⟨⟨rs, res⟩, hget, hin⟩ := @getArgs_all M m (max HEAD_TYPE size) size
      (fmts useFifos rtype) HEAD_LEN (by omega)
    refine ⟨finish (i16 t) (rs, res), ?_, fun q hq => hin q ?_⟩
    · rw [if_pos hr, hget]
      rfl
    · cases res with
      | ok u => exact hq
      | error err => exact hq
  · exact ⟨_, if_neg hr, fun q hq => absurd hq List.not_mem_nil⟩

/-- The codec, for the messages of the users and for any bytes. -/
theorem message_codec (M : Machine) (useFifos : Bool) (m : Mem UInt8) :
    (∀ type (arg : Args (fmts useFifos type)), 0 ≤ type → type ≤ LAST_UMESSAGE →
      HEAD_LEN + arg.len + 1 + TAIL_LEN ≤ MSGMAX →
      ∃ m' size, putmessage useFifos (some m) type arg = .ok (some m', size) ∧
        ∃ rs, getmessage M useFifos (some (upto m' size)) type = some (rs, .ok type) ∧
          Gives m' arg rs) ∧
    (∀ type (arg : Args (fmts useFifos type)), LAST_UMESSAGE < type → type ≤ LAST_IMESSAGE →
      HEAD_LEN + arg.len + 1 + TAIL_LEN ≤ MSGMAX →
      ∃ m' size, putmessage useFifos (some m) type arg = .ok (some m', size) ∧
        ∀ rtype, getmessage M useFifos (some (upto m' size)) rtype =
          some ([], .error .EBADMSG)) ∧
    ∀ rtype, ∃ size, stoh M (all m) HEAD_SIZE = some size ∧
      ∃ r, getmessage M useFifos (some (upto m (max HEAD_TYPE size))) rtype = some r ∧
        ∀ q, Ret.S q ∈ r.1 → Inside M m (HEAD_LEN + 4) size q :=
  ⟨fun _ arg h0 h1 hlen => round_trip M arg h0 h1 hlen m,
    fun _ arg h0 h1 hlen => refused M arg h0 h1 hlen m, getmessage_all M useFifos m⟩

/- The string "AB" as an argument. -/
def ab : Args (fmts true 5) := .S (some ⟨[65, 66], by decide⟩) .nil

/-- A print request comes back. -/
theorem message_codec_request :
    ∃ m' size, putmessage true (some fun _ => 0) 5 ab = .ok (some m', size) ∧
      ∃ rs, getmessage ⟨0, false⟩ true (some (upto m' size)) 5 = some (rs, .ok 5) ∧
        Gives m' ab rs :=
  (message_codec ⟨0, false⟩ true fun _ => 0).1 5 ab (by decide) (by decide) (by decide)

/- A print request of 22 bytes whose string is "AB" without a terminator. -/
def unended : Mem UInt8 := fun i =>
  [1, 1, 1, 1, 1, 1, 1, 1, 48, 48, 49, 54, 48, 48, 48, 53, 48, 48, 48, 50, 65, 66].getD i.toNat 1

theorem unended_read : stoh ⟨0, false⟩ (all unended) HEAD_SIZE = some 22 ∧
    getmessage ⟨0, false⟩ true (some (all unended)) 5 = some ([.S 20], .ok 5) := by
  have hsize : stoh ⟨0, false⟩ (all unended) HEAD_SIZE = some 22 := by decide
  have htype : stoh ⟨0, false⟩ (all unended) HEAD_TYPE = some 5 := by decide
  have hlen : stoh ⟨0, false⟩ (all unended) HEAD_LEN = some 2 := by decide
  refine ⟨hsize, ?_⟩
  have hfmt : fmts true 5 = [.S] := rfl
  have hshort : i16 5 = 5 := i16_eq (by omega) (by omega)
  rw [getmessage, hsize, Option.bind_eq_bind, Option.bind_some, if_neg (by decide), htype,
    Option.bind_some, hshort, if_neg (by decide), if_pos (.inl rfl), hfmt, getArgs,
    if_neg (by decide), hlen]
  rfl

/-- Messages of the spooler do not come back, and a string need not end in the buffer. -/
theorem message_codec_not :
    (¬ ∀ type (arg : Args (fmts true type)), 0 ≤ type → type ≤ LAST_IMESSAGE →
      HEAD_LEN + arg.len + 1 + TAIL_LEN ≤ MSGMAX → ∀ m m' size,
        putmessage true (some m) type arg = .ok (some m', size) →
        ∃ rs, getmessage ⟨0, false⟩ true (some (upto m' size)) type = some (rs, .ok type)) ∧
    ¬ ∀ m rtype size r, stoh ⟨0, false⟩ (all m) HEAD_SIZE = some size →
      getmessage ⟨0, false⟩ true (some (all m)) rtype = some r →
      ∀ q, Ret.S q ∈ r.1 → ∃ z, q ≤ z ∧ z < size ∧ m z = 0 := by
  constructor
  · intro h
    obtain ⟨m', size, hput, hget⟩ := @refused true 69 ⟨0, false⟩ .nil (by decide) (by decide)
      (by decide) unended
    obtain ⟨rs, hrs⟩ := h 69 .nil (by decide) (by decide) (by decide) unended m' size hput
    cases (hget 69).symm.trans hrs
  · intro h
    obtain ⟨z, hz, hz', h0⟩ := h unended 5 22 ([.S 20], .ok 5) unended_read.1
      unended_read.2 20 List.mem_cons_self
    have hcase : z = 20 ∨ z = 21 := by omega
    rcases hcase with rfl | rfl
    · exact absurd h0 (by decide)
    · exact absurd h0 (by decide)

end Svr32.Lp
