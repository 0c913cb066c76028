import Mathlib.Logic.Function.Basic
import Mathlib.Data.Nat.Bitwise
import Mathlib.Data.List.Pairwise

/-! sh/blok.c and sh/stak.c. Memory is one array of bytes; a pointer that is stored in it is kept
in the cell of its first byte, and its other three bytes are overwritten. setbrk always has more
memory behind what it gave before. -/
namespace Svr32.Sh

abbrev Mem := Nat → Nat

/- p->word = v -/
def putw (p v : Nat) (m : Mem) : Mem := fun a =>
  if a = p then v else if p < a ∧ a < p + 4 then 0 else m a

/- A word without its bit BUSY, and with it. -/
def clear (v : Nat) : Nat := v - v % 2
def mark (v : Nat) : Nat := clear v + 1

def busy (m : Mem) (p : Nat) : Prop := m p % 2 = 1

instance (m : Mem) (p : Nat) : Decidable (busy m p) := inferInstanceAs (Decidable (m p % 2 = 1))

/- round(a, BYTESPERWORD) -/
def round (a : Nat) : Nat := (a + 3) / 4 * 4

/- brkincr.h -/
def BRKMAX : Nat := 2048

structure State where
  mem : Mem
  brkincr : Nat
  brkbegin : Nat
  blokp : Nat
  bloktop : Nat
  stakbas : Nat
  stakbot : Nat
  staktop : Nat
  stakbsy : Nat

/- while (!busy(q = p->word)) p->word = q->word, a number of turns. -/
def merge : Nat → Nat → Mem → Option Mem
  | 0, _, _ => none
  | f + 1, p, m => if busy m (m p) then some m else merge f p (putw p (m (m p)) m)

/- The do loop of alloc: a free block of `rbytes`, or none. -/
def scan (rbytes : Nat) : Nat → Nat → Nat → Mem → Option (Option Nat × Mem)
  | 0, _, _, _ => none
  | f + 1, c, p, m =>
    match if busy m p then some m else merge f p m with
    | none => none
    | some m =>
      if ¬ busy m p ∧ rbytes ≤ m p - p then some (some p, m)
      else if p < clear (m p) then scan rbytes f c (clear (m p)) m
      else if c = 0 then scan rbytes f (c + 1) (clear (m p)) m
      else some (none, m)

/- The block at `p` is taken, and what it has more than `rbytes` is left as a free block. -/
def carve (rbytes p : Nat) (s : State) : State :=
  let blokp := p + rbytes
  let m := if blokp < s.mem p then putw blokp (s.mem p) s.mem else s.mem
  { s with blokp := blokp, mem := putw p (mark blokp) m }

/- movstr(a, b), where the string has less than `n` characters: where its end is now. -/
def movstr : Nat → Nat → Nat → Mem → Nat × Mem
  | 0, _, b, m => (b, m)
  | n + 1, a, b, m =>
    if m a = 0 then (b, Function.update m b 0)
    else movstr n (a + 1) (b + 1) (Function.update m b (m a))

/- The stack segment becomes a busy block that is on the list of stakbsy. -/
def cover (s : State) : State :=
  let m := Function.update s.mem s.staktop 0
  let rndstak := round (s.staktop + 1)
  let blokstak := s.stakbas - 4
  { s with
    mem := putw s.bloktop (mark rndstak) (putw blokstak s.stakbsy m)
    staktop := s.staktop + 1
    stakbsy := blokstak
    bloktop := rndstak }

/- A free block of `reqd` on top of the arena, and a stack segment above it. -/
def extend (reqd : Nat) (s : State) : State :=
  let bloktop := s.bloktop + reqd
  let m := putw bloktop (s.brkbegin + 1) (putw s.bloktop bloktop s.mem)
  let stakadr := bloktop + 8
  let r := if s.stakbot ≠ s.staktop then movstr (s.staktop - s.stakbot) s.stakbot stakadr m
    else (stakadr, m)
  { s with
    mem := r.2
    blokp := s.bloktop
    bloktop := bloktop
    staktop := r.1
    stakbas := stakadr
    stakbot := stakadr }

/- addblok; `base` is what setbrk returns for the first block. -/
def addblok (base reqd : Nat) (s : State) : State :=
  let s := if s.stakbot = 0 then { s with brkbegin := base, bloktop := base } else s
  let s := if s.stakbas ≠ s.staktop then cover s else s
  let reqd := reqd + s.brkincr
  extend (reqd - (reqd &&& (s.brkincr - 1))) s

def alloc (base nbytes : Nat) : Nat → State → Option (Nat × State)
  | 0, _ => none
  | f + 1, s =>
    let rbytes := round (nbytes + 4)
    match scan rbytes f 0 s.blokp s.mem with
    | none => none
    | some (some p, m) => some (p + 4, carve rbytes p { s with mem := m })
    | some (none, m) => alloc base nbytes f (addblok base rbytes { s with mem := m })

def free (ap : Nat) (s : State) : State :=
  if ap ≠ 0 ∧ ap < s.bloktop ∧ s.brkbegin < ap then
    { s with mem := putw (ap - 4) (clear (s.mem (ap - 4))) s.mem }
  else s

def pushstak (c : Nat) (s : State) : State :=
  { s with mem := Function.update s.mem s.staktop c, staktop := s.staktop + 1 }

def getstak (asize : Nat) (s : State) : Nat × State :=
  (s.stakbot, { s with staktop := s.stakbot + round asize, stakbot := s.stakbot + round asize })

/- What locstak does to brkincr. -/
def locstak (s : State) : State :=
  { s with brkincr := if s.brkincr < BRKMAX then s.brkincr + 256 else s.brkincr }

def endstak (argp : Nat) (s : State) : Nat × State :=
  (s.stakbot, { s with
    mem := Function.update s.mem argp 0
    stakbot := round (argp + 1)
    staktop := round (argp + 1) })

/- The loop of tdystak. -/
def unbusy : Nat → Nat → State → Option State
  | 0, _, _ => none
  | f + 1, x, s =>
    if x < s.stakbsy then
      let s := free s.stakbsy s
      unbusy f x { s with stakbsy := s.mem s.stakbsy }
    else some s

def tdystak (f x : Nat) (s : State) : Option State :=
  match unbusy f x s with
  | none => none
  | some s => some { s with staktop := max x s.stakbas, stakbot := max x s.stakbas }

end Svr32.Sh

/-! The chain of words from brkbegin to bloktop. -/
namespace Svr32.Sh
variable {m m' m'' : Mem} {l l' pre post : List Nat} {a b e p v : Nat}

/- The first of the words `l`, or the end of the chain. -/
def nxt (l : List Nat) (e : Nat) : Nat := l.headD e

/-- The words of the chain are at the addresses `l`, in order, and the last leads to `e`. -/
def Linked (m : Mem) : List Nat → Nat → Prop
  | [], _ => True
  | a :: l, e => a % 4 = 0 ∧ a + 4 ≤ nxt l e ∧ nxt l e % 4 = 0 ∧ clear (m a) = nxt l e ∧ Linked m l e

theorem clear_eq (hv : v % 4 = 0) : clear v = v := by
  rw [clear]
  omega

theorem mark_eq (hv : v % 4 = 0) : mark v = v + 1 := by rw [mark, clear_eq hv]

theorem clear_even (h : v % 2 = 0) : clear v = v := by
  rw [clear]
  omega

@[simp] theorem putw_self : putw p v m p = v := if_pos rfl

theorem putw_out (h : a < p ∨ p + 4 ≤ a) : putw p v m a = m a := by
  rw [putw, if_neg (by omega), if_neg (by omega)]

theorem putw_word (hp : p % 4 = 0) (ha : a % 4 = 0) (h : a ≠ p) : putw p v m a = m a :=
  putw_out (by omega)

theorem Linked.aligned (h : Linked m l e) : ∀ a ∈ l, a % 4 = 0 := by
  induction l with
  | nil => exact fun a ha => absurd ha List.not_mem_nil
  | cons b l ih =>
    intro a ha
    rcases List.mem_cons.1 ha with rfl | ha
    · exact h.1
    · exact ih h.2.2.2.2 a ha

theorem Linked.congr (h : Linked m l e) (hl : ∀ a ∈ l, clear (m' a) = clear (m a)) :
    Linked m' l e := by
  induction l with
  | nil => trivial
  | cons a l ih =>
    refine ⟨h.1, h.2.1, h.2.2.1, (hl a List.mem_cons_self).trans h.2.2.2.1, ?_⟩
    exact ih h.2.2.2.2 fun b hb => hl b (List.mem_cons_of_mem a hb)

theorem nxt_append : nxt (pre ++ post) e = nxt pre (nxt post e) := by
  cases pre <;> rfl

theorem Linked.append_iff :
    Linked m (pre ++ post) e ↔ Linked m pre (nxt post e) ∧ Linked m post e := by
  induction pre with
  | nil => exact (and_iff_right trivial).symm
  | cons a pre ih =>
    rw [List.cons_append, Linked, Linked, ih, nxt_append]
    simp only [and_assoc]

theorem Linked.nxt_le (h : Linked m l e) : nxt l e ≤ e := by
  induction l with
  | nil => exact Nat.le_refl e
  | cons a l ih =>
    have hl := ih h.2.2.2.2
    have ha := h.2.1
    have hn : nxt (a :: l) e = a := rfl
    omega

/-- The words are in the order of their addresses, and each block ends before the next. -/
theorem Linked.later (h : Linked m (a :: l) e) : ∀ b ∈ l, clear (m a) ≤ b := by
  induction l generalizing a with
  | nil => exact fun b hb => absurd hb List.not_mem_nil
  | cons c l ih =>
    intro b hb
    rw [h.2.2.2.1]
    rcases List.mem_cons.1 hb with rfl | hb
    · exact Nat.le_refl _
    · have hlt := ih h.2.2.2.2 b hb
      have hc := h.2.2.2.2.2.1
      have hcm := h.2.2.2.2.2.2.2.1
      have hn : nxt (c :: l) e = c := rfl
      omega

theorem Linked.bounds (h : Linked m l e) :
    ∀ a ∈ l, nxt l e ≤ a ∧ a + 4 ≤ clear (m a) ∧ clear (m a) ≤ e ∧ clear (m a) % 4 = 0 := by
  induction l with
  | nil => exact fun a ha => absurd ha List.not_mem_nil
  | cons b l ih =>
    intro a ha
    have hb := h.2.2.2.1
    have hlink := h.2.1
    have hle := h.2.2.2.2.nxt_le
    have hn : nxt (b :: l) e = b := rfl
    rcases List.mem_cons.1 ha with rfl | ha
    · have h4 := h.2.2.1
      omega
    · have hrest := ih h.2.2.2.2 a ha
      omega

theorem Linked.disjoint (h : Linked m l e) (ha : a ∈ l) (hb : b ∈ l) (hne : a ≠ b) :
    clear (m a) ≤ b ∨ clear (m b) ≤ a := by
  induction l with
  | nil => exact absurd ha List.not_mem_nil
  | cons c l ih =>
    rcases List.mem_cons.1 ha with rfl | ha'
    · rcases List.mem_cons.1 hb with rfl | hb'
      · exact absurd rfl hne
      · exact Or.inl (h.later b hb')
    · rcases List.mem_cons.1 hb with rfl | hb'
      · exact Or.inr (h.later a ha')
      · exact ih h.2.2.2.2 ha' hb'

theorem Linked.nodup (h : Linked m l e) : l.Nodup := by
  induction l with
  | nil => exact List.nodup_nil
  | cons a l ih =>
    rw [List.nodup_cons]
    apply And.intro ?_ (ih h.2.2.2.2)
    intro hm
    have hle := h.later a hm
    have hb := (h.bounds a List.mem_cons_self).2.1
    omega

/-- There is one chain. -/
theorem Linked.unique (h : Linked m l e) (h' : Linked m l' e) (hn : nxt l e = nxt l' e) : l = l' := by
  induction l generalizing l' with
  | nil =>
    cases l' with
    | nil => rfl
    | cons a l' =>
      have hb := h'.bounds a List.mem_cons_self
      have hn1 : nxt ([] : List Nat) e = e := rfl
      have hn2 : nxt (a :: l') e = a := rfl
      omega
  | cons a l ih =>
    cases l' with
    | nil =>
      have hb := h.bounds a List.mem_cons_self
      have hn1 : nxt ([] : List Nat) e = e := rfl
      have hn2 : nxt (a :: l) e = a := rfl
      omega
    | cons a' l' =>
      have ha : a = a' := hn
      subst ha
      rw [ih h.2.2.2.2 h'.2.2.2.2 (h.2.2.2.1.symm.trans h'.2.2.2.1)]

/-- The byte is in a free block. -/
def InFree (m : Mem) (l : List Nat) (b : Nat) : Prop := ∃ a ∈ l, ¬ busy m a ∧ a ≤ b ∧ b < m a

theorem busy_not (h : ¬ busy m a) : clear (m a) = m a := clear_even (Nat.mod_two_ne_one.1 h)

theorem Linked.not_free (h : Linked m l e) (ha : a ∈ l) (hb : busy m a) {x : Nat} (hx : a ≤ x)
    (hx' : x < clear (m a)) : ¬ InFree m l x := by
  rintro ⟨c, hc, hfree, hlo, hhi⟩
  have hne : a ≠ c := fun he => hfree (he ▸ hb)
  have hcl := busy_not hfree
  have hd := h.disjoint ha hc hne
  omega

/-- What the search for a block keeps: busy blocks, and the bytes outside free blocks. -/
structure Keeps (m : Mem) (l : List Nat) (m' : Mem) (l' : List Nat) : Prop where
  busy : ∀ a ∈ l, busy m a → a ∈ l' ∧ m' a = m a
  frame : ∀ b, ¬ InFree m l b → m' b = m b
  free : ∀ b, InFree m' l' b → InFree m l b

theorem Keeps.refl (m : Mem) (l : List Nat) : Keeps m l m l :=
  ⟨fun _ ha _ => ⟨ha, rfl⟩, fun _ _ => rfl, fun _ hb => hb⟩

theorem Keeps.trans {l'' : List Nat} (h : Keeps m l m' l') (h' : Keeps m' l' m'' l'') :
    Keeps m l m'' l'' where
  busy a ha hb := by
    obtain ⟨ha', heq⟩ := h.busy a ha hb
    have hb' : Sh.busy m' a := by
      rw [Sh.busy, heq]
      exact hb
    obtain ⟨ha'', heq'⟩ := h'.busy a ha' hb'
    exact ⟨ha'', heq'.trans heq⟩
  frame b hb := (h'.frame b fun hf => hb (h.free b hf)).trans (h.frame b hb)
  free b hb := h.free b (h'.free b hb)

end Svr32.Sh
