import Svr32.Bdiff.Relay

/-! bdiff.c: the printed listing of a segment does to the whole file what diff's does to the
segment. -/
namespace Svr32.Bdiff
open Svr32.Lib Svr32.Lib.Patch

variable {n : Nat} {O post : List Text} {hurt : Prop} {s s' g : State}

/-- A line comes that is printed as another. -/
def Hurt (n : Nat) (ls : List Text) : Prop := n ≠ 0 ∧ ∃ t, 62 :: 32 :: t ∈ ls ∧ Long t

/-- The whole file `g` is where the segment `s` is, `n` lines further down, with `O` made before.
The lines made are the same unless one is hurt. -/
structure Sim (n : Nat) (O post : List Text) (hurt : Prop) (s g : State) : Prop where
  pos : g.pos = n + s.pos
  rest : g.rest = s.rest ++ post
  out : ∃ o, g.out = O ++ o ∧ o.length = s.out.length ∧ (o = s.out ↔ ¬ hurt)
  adding : g.adding = s.adding

theorem mangled_eq {n : Nat} {x : Text} (hx : IsLine x) :
    mangled n x = x ↔ ¬ (n ≠ 0 ∧ Long x) := by
  rw [mangled]
  split
  · rename_i hl
    obtain ⟨hlen, hc⟩ := hl
    obtain ⟨b, rfl, -⟩ := hx.split
    have hbuf : BUFSIZ = 1024 := rfl
    simp only [List.length_append, List.length_singleton] at hlen
    obtain ⟨b', c, rfl⟩ : ∃ b' c, b = b' ++ [c] :=
      ⟨b.dropLast, b.getLast (by rintro rfl; simp at hlen; omega),
        by rw [List.dropLast_append_getLast]⟩
    have hlen' : b'.length = 1021 := by
      simp only [List.length_append, List.length_singleton] at hlen
      omega
    have hget : ((b' ++ [c]) ++ [newline]).getD 1021 0 = c := by
      rw [List.append_assoc, List.getD_eq_getElem?_getD, ← hlen',
        List.getElem?_append_right (Nat.le_refl _), Nat.sub_self]
      rfl
    have htake : ((b' ++ [c]) ++ [newline]).take 1021 = b' := by
      rw [List.append_assoc, List.take_append_of_le_length (by omega), ← hlen', List.take_length]
    rw [hget] at hc
    have hone : dec (c - 48) = [c] := by
      have hlt : c - 48 < 10 := by
        rw [IsDigit] at hc
        omega
      have hback : 48 + (c - 48) = c := by
        rw [IsDigit] at hc
        omega
      rw [dec]
      cases hd : c - 48 with
      | zero =>
        rw [hd] at hback
        simp [digits, ← hback]
      | succ d =>
        rw [hd] at hlt hback
        rw [digits, if_pos hlt, hback]
    rw [hget, htake]
    have hlong : Long (b' ++ [c] ++ [newline]) := by
      refine ⟨?_, by rwa [hget]⟩
      simp only [List.length_append, List.length_singleton]
      omega
    constructor
    · rintro h ⟨hn, -⟩
      have hcut : dec (c - 48 + n) = dec (c - 48) := by
        rw [hone]
        have hline : dec (c - 48 + n) ++ [newline] = [c] ++ [newline] := by simpa using h
        exact List.append_cancel_right hline
      have hread := readFrom_dec (c - 48 + n) (p := []) trivial
      rw [hcut, readFrom_dec (c - 48) (p := []) trivial] at hread
      simp only [Prod.mk.injEq, and_true] at hread
      omega
    · intro h
      have hn : n = 0 := by
        by_contra hn
        exact h ⟨hn, hlong⟩
      rw [hn, Nat.add_zero, hone]
  · rename_i hl
    exact iff_of_true rfl fun h => hl h.2

theorem copyTo_sim {m : Nat} (hs : Sim n O post hurt s g) (h : copyTo m s = some s') :
    ∃ g', copyTo (m + n) g = some g' ∧ Sim n O post hurt s' g' := by
  obtain ⟨hm, hl, rfl⟩ := copyTo_some h
  obtain ⟨o, ho, holen, hoeq⟩ := hs.out
  have hsub : m + n - g.pos = m - s.pos := by
    rw [hs.pos]
    omega
  have hlen : m + n - g.pos ≤ g.rest.length := by
    rw [hsub, hs.rest, List.length_append]
    omega
  refine ⟨_, copyTo_of (by rw [hs.pos]; omega) hlen, ?_, ?_, ⟨o ++ s.rest.take (m - s.pos), ?_, ?_, ?_⟩,
    hs.adding⟩
  · exact Nat.add_comm m n
  · rw [hsub, hs.rest, List.drop_append_of_le_length hl]
  · rw [hsub, hs.rest, ho, List.take_append_of_le_length hl, List.append_assoc]
  · simp [holen]
  · rw [← hoeq]
    exact List.append_left_inj _

theorem takeTo_sim {hi : Nat} {adding : Bool} (hs : Sim n O post hurt s g)
    (h : takeTo hi adding s = some s') :
    ∃ g', takeTo (hi + n) adding g = some g' ∧ Sim n O post hurt s' g' := by
  obtain ⟨hm, hl, rfl⟩ := takeTo_some h
  have hsub : hi + n - g.pos = hi - s.pos := by
    rw [hs.pos]
    omega
  have hlen : hi + n - g.pos ≤ g.rest.length := by
    rw [hsub, hs.rest, List.length_append]
    omega
  refine ⟨_, takeTo_of (by rw [hs.pos]; omega) hlen, Nat.add_comm hi n, ?_, hs.out, rfl⟩
  rw [hsub, hs.rest, List.drop_append_of_le_length hl]

theorem command_sim {c : Cmd} (hs : Sim n O post hurt s g) (h : command c s = some s') :
    ∃ g', command (shift n c) g = some g' ∧ Sim n O post hurt s' g' := by
  have htake : ∀ {adding}, c.lo ≠ 0 → (copyTo (c.lo - 1) s).bind (takeTo c.hi adding) = some s' →
      ∃ g', (copyTo (c.lo + n - 1) g).bind (takeTo (c.hi + n) adding) = some g' ∧
        Sim n O post hurt s' g' := by
    intro adding hlo hb
    obtain ⟨t, ht, hu⟩ := Option.bind_eq_some_iff.mp hb
    obtain ⟨g₁, hg₁, hs₁⟩ := copyTo_sim hs ht
    obtain ⟨g₂, hg₂, hs₂⟩ := takeTo_sim hs₁ hu
    have hsub : c.lo + n - 1 = c.lo - 1 + n := by omega
    exact ⟨g₂, by rw [hsub, hg₁]; exact hg₂, hs₂⟩
  have hkind : (shift n c).kind = c.kind := rfl
  rw [command] at h
  rw [command, hkind]
  cases hk : c.kind with
  | add =>
    rw [hk] at h
    obtain ⟨t, ht, rfl⟩ := Option.map_eq_some_iff.mp h
    obtain ⟨g', hg', hs'⟩ := copyTo_sim hs ht
    refine ⟨{ g' with gone := [], adding := true }, ?_, ⟨hs'.pos, hs'.rest, hs'.out, rfl⟩⟩
    change Option.map _ (copyTo (c.hi + n) g) = _
    rw [hg']
    rfl
  | delete =>
    rw [hk] at h
    dsimp only at h ⊢
    split at h
    · cases h
    · rename_i hlo
      have hne : (shift n c).lo ≠ 0 := by
        simp only [shift]
        omega
      rw [if_neg hne]
      exact htake hlo h
  | change =>
    rw [hk] at h
    dsimp only at h ⊢
    split at h
    · cases h
    · rename_i hlo
      have hne : (shift n c).lo ≠ 0 := by
        simp only [shift]
        omega
      rw [if_neg hne]
      exact htake hlo h

theorem not_hurt_other {n : Nat} {l : Text} (h : ∀ t, l ≠ 62 :: 32 :: t) : ¬ Hurt n [l] := by
  rintro ⟨-, t, ht, -⟩
  exact h t (List.mem_singleton.mp ht).symm

theorem Sim.weaken (hs : Sim n O post hurt s g) {p : Prop} (hp : p ↔ hurt) :
    Sim n O post p s g := by
  obtain ⟨o, h1, h2, h3⟩ := hs.out
  exact ⟨hs.pos, hs.rest, ⟨o, h1, h2, h3.trans (not_congr hp.symm)⟩, hs.adding⟩

/-- One line of the listing, and the line that is printed of it. -/
theorem feed_sim {l l' : Text} (hl : Shown n l l') (hs : Sim n O post hurt s g)
    (h : feed true s l = some s') :
    ∃ g', feed false g l' = some g' ∧ Sim n O post (hurt ∨ Hurt n [l]) s' g' := by
  cases hl with
  | @command _ _ c hc hlen hf he =>
    have hd := parse_digit hc
    have hno : ¬ Hurt n [l] := by
      apply not_hurt_other
      rintro t rfl
      exact hd (by simp [Stops, IsDigit])
    rw [feed_command s hc] at h
    split at h
    · cases h
    obtain ⟨l'', hf', hc', -⟩ := fixline_command n hc
    rw [hf] at hf'
    obtain rfl := Option.some.inj hf'
    obtain ⟨g', hg', hs'⟩ := command_sim hs h
    refine ⟨g', ?_, hs'.weaken (by simp [hno])⟩
    rw [feed_command g hc', if_neg (by simp)]
    exact hg'
  | @mark m x hm hx hlen =>
    rcases hm with rfl | rfl
    · have hno : ¬ Hurt n [60 :: 32 :: x] := by
        apply not_hurt_other
        intro t ht
        cases ht
      have hsame : s'.pos = s.pos ∧ s'.rest = s.rest ∧ s'.out = s.out ∧ s'.adding = s.adding := by
        simp only [feed, if_true] at h
        split at h
        · split at h
          · cases h
            exact ⟨rfl, rfl, rfl, rfl⟩
          · cases h
        · cases h
      obtain ⟨h1, h2, h3, h4⟩ := hsame
      have hs' : Sim n O post (hurt ∨ Hurt n [60 :: 32 :: x]) s g := hs.weaken (by simp [hno])
      exact ⟨g, rfl, by rw [h1]; exact hs'.pos, by rw [h2]; exact hs'.rest,
        by rw [h3]; exact hs'.out, by rw [h4]; exact hs'.adding⟩
    · simp only [feed] at h
      split at h
      · rename_i hadd
        cases h
        obtain ⟨o, ho, holen, hoeq⟩ := hs.out
        have hone : Hurt n [62 :: 32 :: x] ↔ n ≠ 0 ∧ Long x := by
          rw [Hurt]
          simp
        refine ⟨{ g with out := g.out ++ [mangled n x] }, ?_, hs.pos, hs.rest,
          ⟨o ++ [mangled n x], ?_, by simp [holen], ?_⟩, hs.adding⟩
        · simp only [feed, hs.adding, hadd, if_true]
        · rw [ho, List.append_assoc]
        · rw [not_or, hone, ← mangled_eq hx, ← hoeq]
          constructor
          · intro h
            obtain ⟨h1, h2⟩ := List.append_inj h holen
            exact ⟨h1, by simpa using h2⟩
          · rintro ⟨h1, h2⟩
            rw [h1, h2]
      · cases h
  | separator =>
    have hno : ¬ Hurt n [separator] := by
      apply not_hurt_other
      intro t ht
      cases ht
    have hs1 : s' = s := by
      simp only [feed, separator] at h
      split at h
      · cases h
      · exact (Option.some.inj h).symm
    subst hs1
    exact ⟨g, by simp [feed, separator], hs.weaken (by simp [hno])⟩

/- A line of a file that fgets reads whole. -/
def Good (x : Text) : Prop := IsLine x ∧ x.length < BUFSIZ

/- The commands of a listing fit the buffer. -/
def Short (ls : List Text) : Prop := ∀ l ∈ ls, (∃ c, parse l = some c) → l.length < BUFSIZ

/- What a line of a correct listing is, and so what is printed of it. -/
theorem shown_of_feed (n : Nat) {l : Text} (h : feed true s l = some s')
    (hold : ∀ x ∈ s.gone, Good x) (hnew : ∀ x ∈ s'.out, Good x)
    (hshort : (∃ c, parse l = some c) → l.length < BUFSIZ) : ∃ l', Shown n l l' := by
  rw [feed.eq_def] at h
  split at h
  · rename_i t
    simp only [if_true] at h
    split at h
    · rename_i x g hg
      split at h
      · rename_i hx
        have hgood := hold x (by rw [hg]; simp)
        rw [hx] at hgood
        exact ⟨_, .mark (.inl rfl) hgood.1 hgood.2⟩
      · cases h
    · cases h
  · rename_i t
    split at h
    · cases h
      have hgood := hnew t (by simp)
      exact ⟨_, .mark (.inr rfl) hgood.1 hgood.2⟩
    · cases h
  · split at h
    · cases h
    · rename_i hsep
      have hl : ∃ l', Shown n separator l' := ⟨_, .separator⟩
      simp only [true_and, ne_eq, not_or, not_not] at hsep
      rw [hsep.1]
      exact hl
  · split at h
    · cases h
    · obtain ⟨c, hc, -⟩ := Option.bind_eq_some_iff.mp h
      obtain ⟨l', hf, -, he⟩ := fixline_command n hc
      exact ⟨l', .command hc (hshort ⟨c, hc⟩) hf he⟩

theorem Shown.ended {l l' : Text} (h : Shown n l l') : Ended l' := by
  cases h with
  | command hc hl hf he => exact he
  | @mark m x hm hx hl =>
    obtain ⟨b, rfl, hb⟩ := hx.split
    rw [mangled]
    split
    · refine ⟨m :: 32 :: ((b ++ [newline]).take 1021 ++
        dec ((b ++ [newline]).getD 1021 0 - 48 + n)), by simp, ?_⟩
      have hcut : (b ++ [newline]).take 1021 = b.take 1021 := by
        rename_i hlong
        obtain ⟨hlen, -⟩ := hlong
        have hbuf : BUFSIZ = 1024 := rfl
        simp only [List.length_append, List.length_singleton] at hlen
        exact List.take_append_of_le_length (by omega)
      rw [hcut]
      simp only [List.mem_cons, List.mem_append, newline, not_or]
      exact ⟨by omega, by simp, fun h => hb (List.mem_of_mem_take h), (dec_plain _).1⟩
    · refine ⟨m :: 32 :: b, by simp, ?_⟩
      simp only [List.mem_cons, newline, not_or]
      exact ⟨by omega, by simp, hb⟩
  | separator => exact ⟨[45, 45, 45], rfl, by simp [newline]⟩

/-- The listing of a segment, line by line. -/
theorem run_sim {ls : List Text} {new : List Text} (hs : Sim n O post hurt s g)
    (h : run true s ls = some s') (hfin : finish true s' = some new)
    (hold : ∀ x ∈ s.rest ++ s.gone, Good x) (hnew : ∀ x ∈ new, Good x) (hshort : Short ls) :
    ∃ ls' g', List.Forall₂ (Shown n) ls ls' ∧ run false g ls' = some g' ∧
      Sim n O post (hurt ∨ Hurt n ls) s' g' := by
  induction ls generalizing s g hurt with
  | nil =>
    cases h
    refine ⟨[], g, .nil, rfl, hs.weaken ?_⟩
    simp [Hurt]
  | cons l ls ih =>
    obtain ⟨t, ht, hrest⟩ := Option.bind_eq_some_iff.mp h
    obtain ⟨-, -, hkeep⟩ := feed_some ht
    obtain ⟨-, hout⟩ := run_some hrest
    have hmade : ∀ x ∈ t.out, Good x := by
      intro x hx
      apply hnew
      rw [finish] at hfin
      split at hfin
      · cases hfin
      · rw [← Option.some.inj hfin]
        exact List.mem_append_left _ (hout.subset hx)
    obtain ⟨l', hl⟩ := shown_of_feed n ht (fun x hx => hold x (List.mem_append_right _ hx)) hmade
      fun hc => hshort l (by simp) hc
    obtain ⟨g₁, hg₁, hs₁⟩ := feed_sim hl hs ht
    obtain ⟨ls', g₂, hall, hg₂, hs₂⟩ := ih hs₁ hrest (fun x hx => hold x (hkeep x hx))
      fun m hm => hshort m (by simp [hm])
    refine ⟨l' :: ls', g₂, .cons hl hall, ?_, hs₂.weaken ?_⟩
    · rw [run, hg₁]
      exact hg₂
    · simp only [Hurt, List.mem_cons, List.not_mem_nil, or_false]
      constructor
      · rintro (h | ⟨hn, u, rfl | hu, hlong⟩)
        · exact .inl (.inl h)
        · exact .inl (.inr ⟨hn, u, rfl, hlong⟩)
        · exact .inr ⟨hn, u, hu, hlong⟩
      · rintro ((h | ⟨hn, u, hu, hlong⟩) | ⟨hn, u, hu, hlong⟩)
        · exact .inl h
        · exact .inr ⟨hn, u, .inl hu, hlong⟩
        · exact .inr ⟨hn, u, .inr hu, hlong⟩

/- The first line of a listing is a command. -/
theorem feed_start {a : List Text} {l : Text} {t : State} (h : feed true (start a) l = some t) :
    ∃ c, parse l = some c ∧ command c (start a) = some t := by
  rw [feed.eq_def] at h
  split at h
  · cases h
  · cases h
  · split at h
    · cases h
    · rename_i hno
      exact absurd ⟨rfl, .inr rfl⟩ hno
  · split at h
    · cases h
    · exact Option.bind_eq_some_iff.mp h

/- A command that can be done does not take a line 0. -/
theorem command_behind {c : Cmd} {s t : State} (h : command c s = some t) :
    c.kind ≠ .add → c.lo ≠ 0 := by
  intro hk hlo
  rw [command, hlo] at h
  cases hkind : c.kind with
  | add => exact hk hkind
  | delete => simp [hkind] at h
  | change => simp [hkind] at h

/- The command that is printed can wait for the lines before it to be copied. -/
theorem Shown.feed_eq {k : Nat} {l l' : Text} {c : Cmd} (h : Shown n l l') (hc : parse l = some c)
    (hlo : c.kind ≠ .add → c.lo ≠ 0) (hk : k ≤ g.rest.length) (hn : g.pos + k = n) :
    feed false g l' = feed false (catchUp k [] false g) l' := by
  have hd := parse_digit hc
  cases h with
  | @command _ _ c' hc' hl hf he =>
    obtain ⟨l'', hf', hp, -⟩ := fixline_command n hc
    rw [hf] at hf'
    obtain rfl := Option.some.inj hf'
    rw [feed_command _ hp, feed_command _ hp, if_neg (by simp), if_neg (by simp),
      command_catchUp [] false hk]
    · intro _
      simp only [shift]
      omega
    · intro hkind
      have hne := hlo hkind
      simp only [shift]
      omega
  | mark hm _ _ =>
    refine absurd ?_ hd
    rw [Stops, IsDigit]
    omega
  | separator => exact absurd (by simp [Bdiff.separator, Stops, IsDigit]) hd

/-- Where the segments before have left the whole file: `pend` is still to be copied. The listing
of the next one copies it with its first command. -/
theorem segment_sim {a b pend : List Text} {listing : Text} (hok : apply true listing a = some b)
    (ha : ∀ x ∈ a, Good x) (hb : ∀ x ∈ b, Good x) (hshort : Short (lines listing))
    (hrest : g.rest = pend ++ (a ++ post)) (hpos : g.pos + pend.length = n) :
    ∃ ls' g' pend' b', List.Forall₂ (Shown n) (lines listing) ls' ∧ run false g ls' = some g' ∧
      g'.rest = pend' ++ post ∧ g'.pos + pend'.length = n + a.length ∧
      g'.out ++ pend' = g.out ++ pend ++ b' ∧ b'.length = b.length ∧
      (b' = b ↔ ¬ Hurt n (lines listing)) := by
  obtain ⟨s, hrun, hfin⟩ := Option.bind_eq_some_iff.mp hok
  have hb' : s.out ++ s.rest = b := by
    rw [finish] at hfin
    split at hfin
    · cases hfin
    · exact Option.some.inj hfin
  cases hls : lines listing with
  | nil =>
    rw [hls] at hrun
    cases hrun
    refine ⟨[], g, pend ++ a, a, .nil, rfl, by rw [hrest, List.append_assoc], ?_, ?_, ?_, ?_⟩
    · rw [List.length_append]
      omega
    · rw [List.append_assoc]
    · rw [← hb']
      rfl
    · refine iff_of_true hb' ?_
      simp [Hurt]
  | cons l ls =>
    rw [hls] at hrun hshort
    -- the first line is a command, so it does not matter whether `pend` has been copied
    have hsim : Sim n (g.out ++ pend) post False (start a) (catchUp pend.length [] false g) := by
      refine ⟨hpos, ?_, ⟨[], ?_, rfl, by simp [start]⟩, rfl⟩
      · simp [catchUp, hrest, start]
      · simp [catchUp, hrest]
    obtain ⟨ls', g', hall, hg', hs'⟩ := run_sim hsim hrun hfin (by simpa [start] using ha) hb hshort
    obtain ⟨o, ho, holen, hoeq⟩ := hs'.out
    have hlag : run false g ls' = some g' := by
      obtain ⟨t, ht, -⟩ := Option.bind_eq_some_iff.mp hrun
      obtain ⟨c, hc, hcmd⟩ := feed_start ht
      cases hall with
      | @cons _ l' _ ls'' hl hall =>
        rw [run] at hg' ⊢
        rw [← hg', hl.feed_eq hc (command_behind hcmd) (by rw [hrest]; simp) hpos]
    obtain ⟨hsum, -⟩ := run_some hrun
    refine ⟨ls', g', s.rest, o ++ s.rest, hall, hlag, hs'.rest, ?_, ?_, ?_, ?_⟩
    · rw [hs'.pos]
      simp only [start] at hsum
      omega
    · rw [ho, List.append_assoc]
    · rw [← hb', List.length_append, List.length_append, holen]
    · rw [← hb', List.append_left_inj, hoeq]
      simp

end Svr32.Bdiff
