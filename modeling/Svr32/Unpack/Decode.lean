import Svr32.Lib.Mem
import Svr32.Lib.Word

/-! cmd/unpack/unpack.c: the dictionary of a packed file and the bits behind it. An entry of a
table is there when getdict has filled it for this file. Each call of read and of write gives what
the program is handed. -/
namespace Svr32.Unpack
open Lib (Arr put put_self put_ne i32)

abbrev Byte := Fin 256

def US : Byte := ⟨31, by decide⟩
def RS : Byte := ⟨30, by decide⟩
def BUFSIZ : Nat := 1024

/- short intnodes[25]; char *tree[25]; char characters[256]; -/
inductive Table where
  | intnodes | tree | characters
  deriving DecidableEq

def Table.size : Table → Nat
  | .intnodes => 25
  | .tree => 25
  | .characters => 256

/- How the program stops short of its result: at an entry it has not filled, or at a message. -/
inductive Stop where
  | outside (t : Table) (i : Nat)
  | unfilled (t : Table) (i : Nat)
  | notPacked | readError | unpackingError | writeError
  deriving DecidableEq

def inside (t : Table) (i : Nat) : Except Stop Unit :=
  if i < t.size then .ok () else .error (.outside t i)

/- An entry that is read. -/
def fetch {α : Type} (t : Table) (a : Arr (Option α)) (i : Nat) : Except Stop α :=
  if i < t.size then
    match a i with
    | some x => .ok x
    | none => .error (.unfilled t i)
  else .error (.outside t i)

def nothing {α : Type} : Arr (Option α) := ⟨fun _ => none⟩

/- read (infile, &inbuff[0], BUFSIZ): what is behind the bytes read stays. -/
def overlay (inbuff : Arr Byte) (got : List Byte) : Arr Byte := ⟨fun k => got.getD k (inbuff k)⟩

/- for (i=1; i<=maxlev; i++) intnodes[i] = *inp++ & 0377; -/
def leaves (inbuff : Arr Byte) : Nat → Arr (Option Nat) → Except Stop (Arr (Option Nat))
  | 0, intnodes => .ok intnodes
  | i + 1, intnodes => do
    let intnodes ← leaves inbuff i intnodes
    inside .intnodes (i + 1)
    .ok (put intnodes (i + 1) (some (inbuff (7 + i))))

/- The characters filled so far are the ones before eof. -/
structure Filling where
  tree : Arr (Option Nat)
  characters : Arr (Option Byte)
  eof : Nat
  inp : Nat

/- for (c=intnodes[i]; c>0; c--) -/
def fillLevel (inbuff : Arr Byte) : Nat → Filling → Except Stop Filling
  | 0, s => .ok s
  | c + 1, s =>
    if s.eof ≥ 255 then .error .notPacked
    else do
      inside .characters s.eof
      fillLevel inbuff c { s with
        characters := put s.characters s.eof (some (inbuff s.inp)), eof := s.eof + 1, inp := s.inp + 1 }

/- for (i=1; i<=maxlev; i++): the first `i` levels. -/
def fillLevels (inbuff : Arr Byte) (intnodes : Arr (Option Nat)) :
    Nat → Filling → Except Stop Filling
  | 0, s => .ok s
  | i + 1, s => do
    let s ← fillLevels inbuff intnodes i s
    inside .tree (i + 1)
    let c ← fetch .intnodes intnodes (i + 1)
    fillLevel inbuff c { s with tree := put s.tree (i + 1) (some s.eof) }

/- for (i=maxlev; i>=1; i--): the leaves of a level become its internal nodes. -/
def convert : Nat → Nat → Arr (Option Nat) → Except Stop (Arr (Option Nat))
  | 0, _, intnodes => .ok intnodes
  | i + 1, nchildren, intnodes => do
    let c ← fetch .intnodes intnodes (i + 1)
    convert i (nchildren / 2 + c) (put intnodes (i + 1) (some (nchildren / 2)))

structure Dict where
  origsize : Int
  maxlev : Nat
  intnodes : Arr (Option Nat)
  tree : Arr (Option Nat)
  characters : Arr (Option Byte)
  eof : Nat
  inp : Nat

/- getdict from the level count on, with `inleft` bytes read. -/
def dictionary (inbuff : Arr Byte) (inleft : Nat) : Except Stop Dict := do
  let origsize := (List.range 4).foldl (fun n k => i32 (n * 256 + inbuff (2 + k))) (0 : Int)
  let maxlev : Nat := inbuff 6
  if maxlev > 24 then .error .notPacked
  else do
    let intnodes ← leaves inbuff maxlev nothing
    let s ← fillLevels inbuff intnodes maxlev ⟨nothing, nothing, 0, 7 + maxlev⟩
    inside .characters s.eof
    let characters := put s.characters s.eof (some (inbuff s.inp))
    let last ← fetch .intnodes intnodes maxlev
    if inleft < s.inp + 1 then .error .notPacked
    else do
      let intnodes ← convert maxlev 0 (put intnodes maxlev (some (last + 2)))
      .ok ⟨origsize, maxlev, intnodes, s.tree, characters, s.eof + 1, s.inp + 1⟩

structure Decoding where
  lev : Nat
  i : Nat
  outbuff : List Byte
  written : List Byte
  origsize : Int
  writes : List Bool

inductive Turn where
  | more (s : Decoding)
  | done (out : List Byte)

/- write (outfile, &outbuff[0], c): a call that is not told to fail is good. -/
def write (s : Decoding) : Except Stop Decoding :=
  if s.writes.headD true then
    .ok { s with outbuff := [], written := s.written ++ s.outbuff, writes := s.writes.tail,
                 origsize := i32 (s.origsize - s.outbuff.length) }
  else .error .writeError

/- The body of while (--bitsleft >= 0). -/
def bitStep (d : Dict) (bit : Bool) (s : Decoding) : Except Stop Turn := do
  let i := if bit then s.i * 2 + 1 else s.i * 2
  let nodes ← fetch .intnodes d.intnodes s.lev
  if nodes ≤ i then do
    let leaf ← fetch .tree d.tree s.lev
    let p := leaf + (i - nodes)
    if p = d.eof then do
      let s ← write s
      if s.origsize = 0 then .ok (.done s.written) else .error .unpackingError
    else do
      let ch ← fetch .characters d.characters p
      let s := { s with outbuff := s.outbuff ++ [ch], lev := 1, i := 0 }
      if s.outbuff.length = BUFSIZ then do
        let s ← write s
        .ok (.more s)
      else .ok (.more s)
  else .ok (.more { s with lev := s.lev + 1, i := i })

def byteLoop (d : Dict) : Nat → Nat → Decoding → Except Stop Turn
  | 0, _, s => .ok (.more s)
  | bitsleft + 1, c, s => do
    match ← bitStep d (c &&& 128 != 0) s with
    | .more s => byteLoop d bitsleft (c * 2) s
    | .done out => .ok (.done out)

/- The bytes of one read. -/
def buffLoop (d : Dict) : List Byte → Decoding → Except Stop Turn
  | [], s => .ok (.more s)
  | c :: inbuff, s => do
    match ← byteLoop d 8 c s with
    | .more s => buffLoop d inbuff s
    | .done out => .ok (.done out)

/- while (1): what each further call of read gives; none is an error, nothing the end. -/
def decodeLoop (d : Dict) : List (Option (List Byte)) → Decoding → Except Stop (List Byte)
  | [], _ => .error .unpackingError
  | none :: _, _ => .error .readError
  | some [] :: _, _ => .error .unpackingError
  | some (c :: inbuff) :: reads, s => do
    match ← buffLoop d (c :: inbuff) s with
    | .more s => decodeLoop d reads s
    | .done out => .ok out

def decode (d : Dict) (left : List Byte) (reads : List (Option (List Byte))) (writes : List Bool) :
    Except Stop (List Byte) := do
  match ← buffLoop d left ⟨1, 0, [], [], d.origsize, writes⟩ with
  | .more s => decodeLoop d reads s
  | .done out => .ok out

inductive Unpacked where
  | expand
  | decoded (out : List Byte)

/- getdict -/
def getdict (inbuff : Arr Byte) (reads : List (Option (List Byte))) (writes : List Bool) :
    Except Stop Unpacked :=
  match reads.headD (some []) with
  | none => .error .readError
  | some got =>
    let inbuff := overlay (put inbuff 6 ⟨25, by decide⟩) got
    if inbuff 0 ≠ US then .error .notPacked
    else if inbuff 1 = US then .ok .expand
    else if inbuff 1 ≠ RS then .error .notPacked
    else do
      let d ← dictionary inbuff got.length
      let out ← decode d (got.drop d.inp) reads.tail writes
      .ok (.decoded out)

end Svr32.Unpack

/-! Whatever the dictionary says, getdict and decode use only entries that getdict has filled,
unless it says that there are no levels at all. -/
namespace Svr32.Unpack
open Lib (Arr put put_self put_ne i32)

/- eprintf -/
def Stop.IsMessage : Stop → Prop
  | .outside _ _ => False
  | .unfilled _ _ => False
  | _ => True

/-- The end is a message, or a result of which `P` holds. -/
def Ends {α : Type} (r : Except Stop α) (P : α → Prop) : Prop :=
  match r with
  | .ok a => P a
  | .error e => e.IsMessage

theorem Ends.bind {α β : Type} {r : Except Stop α} {f : α → Except Stop β} {P : α → Prop}
    {Q : β → Prop} (hr : Ends r P) (hf : ∀ a, P a → Ends (f a) Q) : Ends (r >>= f) Q := by
  cases r with
  | ok a => exact hf a hr
  | error e => exact hr

theorem Ends.mono {α : Type} {r : Except Stop α} {P Q : α → Prop} (hr : Ends r P)
    (h : ∀ a, P a → Q a) : Ends r Q := by
  cases r with
  | ok a => exact h a hr
  | error e => exact hr

theorem inside_bind {β : Type} {t : Table} {i : Nat} (h : i < t.size) (f : Unit → Except Stop β) :
    (inside t i >>= f) = f () := by
  rw [inside, if_pos h]
  rfl

theorem fetch_bind {α β : Type} {t : Table} {a : Arr (Option α)} {i : Nat} {x : α}
    (hi : i < t.size) (hx : a i = some x) (f : α → Except Stop β) : (fetch t a i >>= f) = f x := by
  rw [fetch, if_pos hi, hx]
  rfl

/-- What getdict leaves to decode: `nodes` and `leaf` are intnodes and tree of its levels. -/
structure Ready (d : Dict) (nodes leaf : Nat → Nat) : Prop where
  levels : 1 ≤ d.maxlev ∧ d.maxlev ≤ 24
  intnodes : ∀ l, 1 ≤ l → l ≤ d.maxlev → d.intnodes l = some (nodes l)
  tree : ∀ l, 1 ≤ l → l ≤ d.maxlev → d.tree l = some (leaf l)
  characters : ∀ k < d.eof, ∃ ch, d.characters k = some ch
  eof : 1 ≤ d.eof ∧ d.eof ≤ 256
  first : leaf 1 = 0
  last : nodes d.maxlev = 0
  room : ∀ l, 1 ≤ l → l < d.maxlev → leaf (l + 1) + 2 * nodes l ≤ nodes (l + 1) + (d.eof + 1)

/-- Where decode is in the tree: at the root, or below an internal node. -/
structure InTree (d : Dict) (nodes : Nat → Nat) (s : Decoding) : Prop where
  level : 1 ≤ s.lev ∧ s.lev ≤ d.maxlev
  root : s.lev = 1 → s.i = 0
  below : ∀ l, 1 ≤ l → s.lev = l + 1 → s.i < nodes l

theorem write_ends (s : Decoding) : Ends (write s) fun s' => s'.lev = s.lev ∧ s'.i = s.i := by
  rw [write]
  split
  · exact ⟨rfl, rfl⟩
  · trivial

/- The next place is a leaf of the level, or one place before the end of the characters. -/
theorem InTree.place {d : Dict} {nodes leaf : Nat → Nat} {s : Decoding} (h : Ready d nodes leaf)
    (hs : InTree d nodes s) {i : Nat} (hi : i ≤ 2 * s.i + 1) (hle : nodes s.lev ≤ i) :
    leaf s.lev + (i - nodes s.lev) ≤ d.eof := by
  have heof := h.eof.1
  have hlev := hs.level
  by_cases hroot : s.lev = 1
  · have hzero := hs.root hroot
    rw [hroot, h.first]
    omega
  · obtain ⟨l, hl⟩ := Nat.exists_eq_add_of_le' hlev.1
    have hbelow := hs.below l (by omega) hl
    have hroom := h.room l (by omega) (by omega)
    rw [← hl] at hroom
    omega

theorem bitStep_ends {d : Dict} {nodes leaf : Nat → Nat} {s : Decoding} (h : Ready d nodes leaf)
    (hs : InTree d nodes s) (bit : Bool) :
    Ends (bitStep d bit s) fun t => ∀ s', t = .more s' → InTree d nodes s' := by
  have hlev := hs.level
  have hmax := h.levels
  have hroot : ∀ s' : Decoding, s'.lev = 1 → s'.i = 0 → InTree d nodes s' := by
    intro s' hl hi
    refine ⟨by omega, fun _ => hi, fun l hl₁ hl₂ => ?_⟩
    omega
  rw [bitStep]
  dsimp only
  generalize hi : (if bit = true then s.i * 2 + 1 else s.i * 2) = i
  have hi' : i ≤ 2 * s.i + 1 := by split at hi <;> omega
  have hsize : Table.intnodes.size = 25 := rfl
  rw [fetch_bind (by omega) (h.intnodes s.lev hlev.1 hlev.2)]
  by_cases hle : nodes s.lev ≤ i
  · have hsize' : Table.tree.size = 25 := rfl
    rw [if_pos hle, fetch_bind (by omega) (h.tree s.lev hlev.1 hlev.2)]
    have hplace := hs.place h hi' hle
    by_cases hend : leaf s.lev + (i - nodes s.lev) = d.eof
    · rw [if_pos hend]
      apply (write_ends s).bind
      intro s' _
      split
      · exact fun s'' heq => nomatch heq
      · trivial
    · obtain ⟨ch, hch⟩ := h.characters (leaf s.lev + (i - nodes s.lev)) (by omega)
      have heof := h.eof.2
      have hsize'' : Table.characters.size = 256 := rfl
      rw [if_neg hend, fetch_bind (by omega) hch]
      split
      · apply (write_ends _).bind
        rintro s' ⟨hl, hi⟩ s'' heq
        exact Turn.more.inj heq ▸ hroot s' hl hi
      · intro s'' heq
        exact Turn.more.inj heq ▸ hroot _ rfl rfl
  · rw [if_neg hle]
    intro s'' heq
    rw [← Turn.more.inj heq]
    have hne : s.lev ≠ d.maxlev := by
      intro heq
      rw [heq, h.last] at hle
      omega
    refine ⟨⟨Nat.succ_pos _, by change s.lev + 1 ≤ d.maxlev; omega⟩, ?_, ?_⟩
    · intro hl
      change s.lev + 1 = 1 at hl
      omega
    · intro l _ hl
      have hll : s.lev = l := Nat.succ.inj hl
      change i < nodes l
      rw [← hll]
      omega

theorem byteLoop_ends {d : Dict} {nodes leaf : Nat → Nat} (h : Ready d nodes leaf)
    (bitsleft c : Nat) (s : Decoding) (hs : InTree d nodes s) :
    Ends (byteLoop d bitsleft c s) fun t => ∀ s', t = .more s' → InTree d nodes s' := by
  induction bitsleft generalizing c s with
  | zero => exact fun s' heq => Turn.more.inj heq ▸ hs
  | succ bitsleft ih =>
    rw [byteLoop]
    apply (bitStep_ends h hs _).bind
    intro t ht
    cases t with
    | more s' => exact ih (c * 2) s' (ht s' rfl)
    | done out => exact fun s' heq => nomatch heq

theorem buffLoop_ends {d : Dict} {nodes leaf : Nat → Nat} (h : Ready d nodes leaf)
    (inbuff : List Byte) (s : Decoding) (hs : InTree d nodes s) :
    Ends (buffLoop d inbuff s) fun t => ∀ s', t = .more s' → InTree d nodes s' := by
  induction inbuff generalizing s with
  | nil => exact fun s' heq => Turn.more.inj heq ▸ hs
  | cons c inbuff ih =>
    rw [buffLoop]
    apply (byteLoop_ends h 8 c s hs).bind
    intro t ht
    cases t with
    | more s' => exact ih s' (ht s' rfl)
    | done out => exact fun s' heq => nomatch heq

theorem decodeLoop_ends {d : Dict} {nodes leaf : Nat → Nat} (h : Ready d nodes leaf)
    (reads : List (Option (List Byte))) (s : Decoding) (hs : InTree d nodes s) :
    Ends (decodeLoop d reads s) fun _ => True := by
  induction reads generalizing s with
  | nil => trivial
  | cons r reads ih =>
    match r with
    | none => trivial
    | some [] => trivial
    | some (c :: inbuff) =>
      rw [decodeLoop]
      apply (buffLoop_ends h (c :: inbuff) s hs).bind
      intro t ht
      cases t with
      | more s' => exact ih s' (ht s' rfl)
      | done out => trivial

theorem decode_ends {d : Dict} {nodes leaf : Nat → Nat} (h : Ready d nodes leaf)
    (left : List Byte) (reads : List (Option (List Byte))) (writes : List Bool) :
    Ends (decode d left reads writes) fun _ => True := by
  have hstart : InTree d nodes ⟨1, 0, [], [], d.origsize, writes⟩ := by
    refine ⟨⟨Nat.le_refl 1, h.levels.1⟩, fun _ => rfl, fun l _ hl => ?_⟩
    change 1 = l + 1 at hl
    omega
  rw [decode]
  apply (buffLoop_ends h left _ hstart).bind
  intro t ht
  cases t with
  | more s' => exact decodeLoop_ends h reads s' (ht s' rfl)
  | done out => trivial

/- The leaves that the dictionary says level `l` has. -/
def count (inbuff : Arr Byte) (l : Nat) : Nat := inbuff (6 + l)

theorem leaves_spec (inbuff : Arr Byte) (i : Nat) (hi : i ≤ 24) :
    ∃ a, leaves inbuff i nothing = .ok a ∧ ∀ l, 1 ≤ l → l ≤ i → a l = some (count inbuff l) := by
  have hsize : Table.intnodes.size = 25 := rfl
  induction i with
  | zero =>
    refine ⟨nothing, rfl, fun l h₁ h₂ => ?_⟩
    omega
  | succ i ih =>
    obtain ⟨a, hrun, ha⟩ := ih (by omega)
    refine ⟨put a (i + 1) (some (inbuff (7 + i))), ?_, fun l h₁ h₂ => ?_⟩
    · rw [leaves, hrun]
      exact inside_bind (by omega) _
    · by_cases hl : l = i + 1
      · have hpos : 6 + (i + 1) = 7 + i := by omega
        rw [hl, put_self, count, hpos]
      · rw [put_ne a _ hl]
        exact ha l h₁ (by omega)

/-- The characters filled are those before eof, which stays in the table. -/
structure Filled (s : Filling) : Prop where
  eof : s.eof ≤ 255
  characters : ∀ k < s.eof, ∃ ch, s.characters k = some ch

theorem fillLevel_ends (inbuff : Arr Byte) (c : Nat) (s : Filling) (h : Filled s) :
    Ends (fillLevel inbuff c s) fun s' => Filled s' ∧ s'.eof = s.eof + c ∧ s'.tree = s.tree := by
  induction c generalizing s with
  | zero => exact ⟨h, rfl, rfl⟩
  | succ c ih =>
    rw [fillLevel]
    by_cases hfull : s.eof ≥ 255
    · rw [if_pos hfull]
      trivial
    · have hsize : Table.characters.size = 256 := rfl
      rw [if_neg hfull, inside_bind (by omega)]
      refine (ih _ ⟨?_, ?_⟩).mono ?_
      · change s.eof + 1 ≤ 255
        omega
      · intro k hk
        change k < s.eof + 1 at hk
        change ∃ ch, put s.characters s.eof (some (inbuff s.inp)) k = some ch
        by_cases hk' : k = s.eof
        · exact ⟨_, by rw [hk', put_self]⟩
        · rw [put_ne _ _ hk']
          exact h.characters k (by omega)
      · rintro s' ⟨hfilled, heof, htree⟩
        refine ⟨hfilled, ?_, htree⟩
        rw [heof]
        change s.eof + 1 + c = _
        omega

/- The leaves of the first `i` levels. -/
def upto (inbuff : Arr Byte) : Nat → Nat
  | 0 => 0
  | i + 1 => upto inbuff i + count inbuff (i + 1)

theorem upto_mono (inbuff : Arr Byte) {i j : Nat} (h : i ≤ j) : upto inbuff i ≤ upto inbuff j := by
  induction h with
  | refl => exact Nat.le_refl _
  | step _ ih => exact Nat.le_trans ih (Nat.le_add_right _ _)

theorem fillLevels_ends {inbuff : Arr Byte} {intnodes : Arr (Option Nat)} {maxlev : Nat}
    (hmax : maxlev ≤ 24) (hnodes : ∀ l, 1 ≤ l → l ≤ maxlev → intnodes l = some (count inbuff l))
    (inp i : Nat) (hi : i ≤ maxlev) :
    Ends (fillLevels inbuff intnodes i ⟨nothing, nothing, 0, inp⟩) fun s =>
      Filled s ∧ s.eof = upto inbuff i ∧ ∀ l < i, s.tree (l + 1) = some (upto inbuff l) := by
  have hsize : Table.intnodes.size = 25 := rfl
  have hsize' : Table.tree.size = 25 := rfl
  induction i with
  | zero =>
    refine ⟨⟨Nat.zero_le _, fun k hk => ?_⟩, rfl, fun l hl => ?_⟩
    · exact absurd hk k.not_lt_zero
    · exact absurd hl l.not_lt_zero
  | succ i ih =>
    rw [fillLevels]
    apply (ih (by omega)).bind
    rintro s ⟨hfilled, heof, htree⟩
    rw [inside_bind (by omega), fetch_bind (by omega) (hnodes (i + 1) (by omega) hi)]
    refine (fillLevel_ends inbuff (count inbuff (i + 1))
      { s with tree := put s.tree (i + 1) (some s.eof) } ⟨hfilled.eof, hfilled.characters⟩).mono ?_
    rintro s' ⟨hfilled', heof', htree'⟩
    refine ⟨hfilled', by rw [heof', upto, ← heof], fun l hl => ?_⟩
    rw [htree']
    by_cases hli : l = i
    · rw [hli, put_self, heof]
    · rw [put_ne _ _ (by omega)]
      exact htree l (by omega)

/- Every level has room for the children of the internal nodes of the level above. -/
theorem convert_spec (i : Nat) (hi : i ≤ 24) (nchildren : Nat) (a : Arr (Option Nat))
    (leaves : Nat → Nat) (ha : ∀ l, 1 ≤ l → l ≤ i → a l = some (leaves l)) :
    ∃ (b : Arr (Option Nat)) (nodes : Nat → Nat), convert i nchildren a = .ok b ∧
      (∀ l, 1 ≤ l → l ≤ i → b l = some (nodes l)) ∧ (∀ l, i < l → b l = a l) ∧ nodes i = nchildren / 2 ∧
      ∀ l, 1 ≤ l → l < i → nodes l = (nodes (l + 1) + leaves (l + 1)) / 2 := by
  have hsize : Table.intnodes.size = 25 := rfl
  induction i generalizing nchildren a with
  | zero =>
    refine ⟨a, fun _ => nchildren / 2, rfl, ?_, fun l _ => rfl, rfl, ?_⟩ <;> intros <;> omega
  | succ i ih =>
    obtain ⟨b, nodes, hrun, hb, hrest, htop, hbelow⟩ := ih (by omega)
      (nchildren / 2 + leaves (i + 1)) (put a (i + 1) (some (nchildren / 2))) fun l h₁ h₂ => by
        rw [put_ne _ _ (by omega)]
        exact ha l h₁ (by omega)
    refine ⟨b, Function.update nodes (i + 1) (nchildren / 2), ?_, ?_, ?_,
      Function.update_self _ _ _, ?_⟩
    · rw [convert, fetch_bind (by omega) (ha (i + 1) (by omega) (Nat.le_refl _))]
      exact hrun
    · intro l h₁ h₂
      by_cases hl : l = i + 1
      · rw [hl, hrest (i + 1) (Nat.lt_succ_self i), put_self, Function.update_self]
      · rw [Function.update_of_ne hl]
        exact hb l h₁ (by omega)
    · intro l hl
      rw [hrest l (by omega), put_ne _ _ (by omega)]
    · intro l h₁ h₂
      rw [Function.update_of_ne (by omega)]
      by_cases hl : l = i
      · rw [hl, Function.update_self, htop]
      · rw [Function.update_of_ne (by omega)]
        exact hbelow l h₁ (by omega)

theorem dictionary_ends (inbuff : Arr Byte) (inleft : Nat) (h : inbuff 6 ≠ 0) :
    Ends (dictionary inbuff inleft) fun d => ∃ nodes leaf, Ready d nodes leaf := by
  have hpos : 1 ≤ (inbuff 6 : Nat) := by
    have hval : (inbuff 6 : Nat) ≠ 0 := fun heq => h (Fin.ext heq)
    omega
  rw [dictionary]
  dsimp only
  generalize hlev : (inbuff 6 : Nat) = maxlev at hpos ⊢
  by_cases hmax : maxlev > 24
  · rw [if_pos hmax]
    trivial
  have hmax' : maxlev ≤ 24 := by omega
  obtain ⟨a, hrun, ha⟩ := leaves_spec inbuff maxlev hmax'
  rw [if_neg hmax, hrun]
  apply (fillLevels_ends hmax' ha (7 + maxlev) maxlev (Nat.le_refl _)).bind
  rintro s ⟨hfilled, heof, htree⟩
  have hsize : Table.characters.size = 256 := rfl
  have hsize' : Table.intnodes.size = 25 := rfl
  have heof' := hfilled.eof
  rw [inside_bind (by omega), fetch_bind (by omega) (ha maxlev hpos (Nat.le_refl _))]
  split
  · trivial
  let last : Nat → Nat := fun l => if l = maxlev then count inbuff l + 2 else count inbuff l
  obtain ⟨b, nodes, hconv, hb, -, htop, hbelow⟩ := convert_spec maxlev hmax' 0
    (put a maxlev (some (count inbuff maxlev + 2))) last (by
      intro l h₁ h₂
      by_cases hl : l = maxlev
      · rw [hl, put_self]
        exact congrArg some (if_pos rfl).symm
      · rw [put_ne _ _ hl, ha l h₁ h₂]
        exact congrArg some (if_neg hl).symm)
  rw [hconv]
  refine ⟨nodes, fun l => upto inbuff (l - 1), ⟨hpos, hmax'⟩, hb, ?_, ?_, ?_, rfl, htop, ?_⟩
  · intro l h₁ h₂
    change l ≤ maxlev at h₂
    obtain ⟨k, rfl⟩ := Nat.exists_eq_add_of_le' h₁
    exact htree k (by omega)
  · intro k hk
    change k < s.eof + 1 at hk
    change ∃ ch, put s.characters s.eof (some (inbuff s.inp)) k = some ch
    by_cases hk' : k = s.eof
    · exact ⟨_, by rw [hk', put_self]⟩
    · rw [put_ne _ _ hk']
      exact hfilled.characters k (by omega)
  · change 1 ≤ s.eof + 1 ∧ s.eof + 1 ≤ 256
    omega
  · intro l h₁ h₂
    change l < maxlev at h₂
    change upto inbuff l + 2 * nodes l ≤ nodes (l + 1) + (s.eof + 1 + 1)
    have hnodes := hbelow l h₁ h₂
    have hupto : upto inbuff (l + 1) = upto inbuff l + count inbuff (l + 1) := rfl
    have hmono := upto_mono inbuff (i := l + 1) (j := maxlev) h₂
    have hlast : last (l + 1) ≤ count inbuff (l + 1) + 2 := by
      change (if l + 1 = maxlev then _ else _) ≤ _
      split <;> omega
    omega

theorem dictionary_zero (inbuff : Arr Byte) (inleft : Nat) (h : inbuff 6 = 0) :
    dictionary inbuff inleft = .error (.unfilled .intnodes 0) := by
  rw [dictionary]
  dsimp only
  rw [h]
  rfl

/-- Behind the magic number any bytes at all may follow: getdict and decode end with a result or a
message, and use only what getdict has filled, exactly when the level count is not 0. -/
theorem getdict_ends_iff (inbuff : Arr Byte) (l : List Byte) (reads : List (Option (List Byte)))
    (writes : List Bool) :
    ((∃ u, getdict inbuff (some (US :: RS :: l) :: reads) writes = .ok u) ∨
      ∃ e, getdict inbuff (some (US :: RS :: l) :: reads) writes = .error e ∧ e.IsMessage) ↔
    (US :: RS :: l)[6]? ≠ some 0 := by
  have hends : Ends (getdict inbuff (some (US :: RS :: l) :: reads) writes) (fun _ => True) ↔
      (US :: RS :: l)[6]? ≠ some 0 := by
    have hsix : overlay (put inbuff 6 ⟨25, by decide⟩) (US :: RS :: l) 6 = 0 ↔
        (US :: RS :: l)[6]? = some 0 := by
      change (US :: RS :: l).getD 6 (put inbuff 6 ⟨25, by decide⟩ 6) = 0 ↔ _
      rw [put_self, List.getD_eq_getElem?_getD]
      cases (US :: RS :: l)[6]? with
      | none => exact ⟨fun heq => absurd heq (by decide), fun heq => nomatch heq⟩
      | some b => exact (Option.some_inj).symm
    have hrun : getdict inbuff (some (US :: RS :: l) :: reads) writes =
        (dictionary (overlay (put inbuff 6 ⟨25, by decide⟩) (US :: RS :: l)) (l.length + 2) >>= fun d =>
          decode d ((US :: RS :: l).drop d.inp) reads writes >>= fun out =>
            .ok (.decoded out)) := rfl
    rw [hrun]
    by_cases hzero : (US :: RS :: l)[6]? = some 0
    · rw [dictionary_zero _ _ (hsix.mpr hzero)]
      exact ⟨fun h => absurd h id, fun h => absurd hzero h⟩
    · refine ⟨fun _ => hzero, fun _ => ?_⟩
      apply (dictionary_ends _ _ fun heq => hzero (hsix.mp heq)).bind
      rintro d ⟨nodes, leaf, hready⟩
      apply (decode_ends hready _ reads writes).bind
      exact fun _ _ => trivial
  rw [← hends]
  cases getdict inbuff (some (US :: RS :: l) :: reads) writes with
  | ok u => exact ⟨fun _ => trivial, fun _ => .inl ⟨u, rfl⟩⟩
  | error e =>
    constructor
    · rintro (⟨u, hu⟩ | ⟨e', he', hm⟩)
      · exact nomatch hu
      · exact Except.error.inj he' ▸ hm
    · exact fun hm => .inr ⟨e, rfl, hm⟩

/-- A file whose dictionary has no levels: getdict uses intnodes[0], and decode, were it left to,
intnodes[1]. -/
theorem getdict_no_levels :
    getdict ⟨fun _ => 0⟩ [some [US, RS, 0, 0, 0, 1, 0, 65, 128]] [] =
        .error (.unfilled .intnodes 0) ∧
      decode ⟨1, 0, nothing, nothing, put nothing 0 (some 65), 1, 8⟩ [128] [] [] =
        .error (.unfilled .intnodes 1) := by
  constructor
  · rfl
  · rfl

end Svr32.Unpack
