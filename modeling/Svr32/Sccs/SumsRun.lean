import Svr32.Sccs.Sums

/-! sccs: what delta, rmdel and cdc leave passes the checksum test of the next command. -/
namespace Svr32.Sccs
open Svr32.Lib

section
variable (signed : Bool)

/- What a command that only reads does with an s-file, as far as the sum goes. -/
def checked (file : Text) : Except Fatal Packet := do
  let pkt ← sinit signed file
  getlines signed { pkt with p_chkeof := true }

/-- The next command reads the file to its end, and has the sum that the header has. -/
def Accepted (file : Text) : Prop :=
  ∃ pkt, checked signed file = .ok pkt ∧ (pkt.p_chash - pkt.p_ihash) % 2 ^ 16 = 0

inductive Update where
  | delta (run : DeltaRun)
  | rmdel (steps : List HeaderStep) (D_serial : Int)
  | cdc (steps : List HeaderStep)

/- The new s-file, and the counts in it where there are any. -/
def update (file : Text) : Update → Except Fatal (Text × Option Stats)
  | .delta run => do
    let r ← delta signed file run
    pure (r.1, some r.2)
  | .rmdel steps D_serial => do
    let new ← rmdel signed file steps D_serial
    pure (new, none)
  | .cdc steps => do
    let new ← cdc signed file steps
    pure (new, none)

/- The first line of a file. -/
def header (file : Text) : Text := (takeLine (BUFSIZ - 1) file).1

def Update.isDelta : Update → Bool
  | .delta _ => true
  | _ => false

def Stats.InRange (s : Stats) : Prop :=
  (0 ≤ s.s_ins ∧ s.s_ins < 100000) ∧ (0 ≤ s.s_del ∧ s.s_del < 100000) ∧
    (0 ≤ s.s_unc ∧ s.s_unc < 100000)

variable {signed} {pkt : Packet}

/- Reading to the end sums up what is left. -/
theorem getlinesLoop_accepts (fuel : Nat) {s : Text} (hu : pkt.p_upd = false)
    (hiop : pkt.p_iop = some s) (hfuel : s.length < fuel) (heof : pkt.p_chkeof = true)
    (hre : pkt.p_reopen = false) (h0 : 0 ∉ s)
    (hsum : (pkt.p_chash + chars signed s - pkt.p_ihash) % 2 ^ 16 = 0) :
    ∃ last, getlinesLoop signed fuel pkt = .ok last ∧
      (last.p_chash - last.p_ihash) % 2 ^ 16 = 0 := by
  induction fuel generalizing pkt s with
  | zero => exact absurd hfuel (by simp)
  | succ fuel ih =>
    rw [getlinesLoop, getline, writeOut_read hu]
    cases hf : fgets BUFSIZ s with
    | none =>
      have hs : s = [] := fgets_none hf
      rw [hs] at hsum hiop
      have hsum' : (pkt.p_chash - pkt.p_ihash) % 2 ^ 16 = 0 := by simpa [chars] using hsum
      rw [readline_eof hiop, getlineEof_ok heof hre fun _ => hsum']
      exact ⟨{ pkt with p_iop := none }, rfl, hsum'⟩
    | some r =>
      obtain ⟨l, rest⟩ := r
      have happ : l ++ rest = s := fgets_append hf
      have hlen : rest.length < s.length := fgets_length (by decide) hf
      have hl : 0 ∉ l := fun h => h0 (happ ▸ List.mem_append_left _ h)
      have hrest : 0 ∉ rest := fun h => h0 (happ ▸ List.mem_append_right _ h)
      have hadd := addChars_mod signed pkt.p_chash l
      rw [cstr_eq hl] at hadd
      have hchars := chars_append signed l rest
      rw [happ] at hchars
      rw [readline_line hiop hf]
      have hnext : (addChars signed pkt.p_chash l + chars signed rest - pkt.p_ihash) % 2 ^ 16 = 0 := by
        omega
      exact ih hu rfl (by omega) heof hre hrest hnext

theorem satoiFrom_digit (sum d : Int) (c : Nat) (p : Text) (hc : c = 48 + d.toNat)
    (hd : 0 ≤ d ∧ d < 10) (hs : 0 ≤ sum ∧ sum * 10 + 10 < 2 ^ 31) :
    satoiFrom sum (c :: p) = satoiFrom (sum * 10 + d) p := by
  rw [satoiFrom, if_pos (by omega), i32_eq (by omega) (by omega)]
  have hd' : sum * 10 + ((c : Int) - 48) = sum * 10 + d := by omega
  rw [hd']

theorem satoi_udec5 {x : Nat} (hx : x < 100000) (p : Text) (hp : byte p 0 = newline) :
    satoi (udec5 x ++ p) = ((x : Int), p) := by
  have hend : ∀ sum, satoiFrom sum p = (sum, p) := by
    intro sum
    cases p with
    | nil => rfl
    | cons c p =>
      have hc : c = 10 := hp
      rw [satoiFrom, if_neg (by omega)]
  unfold satoi
  rw [udec5, if_pos hx]
  simp only [List.cons_append, List.nil_append]
  rw [satoiFrom_digit _ (x / 10000) _ _ (by omega) (by omega) (by omega),
    satoiFrom_digit _ (x / 1000 % 10) _ _ (by omega) (by omega) (by omega),
    satoiFrom_digit _ (x / 100 % 10) _ _ (by omega) (by omega) (by omega),
    satoiFrom_digit _ (x / 10 % 10) _ _ (by omega) (by omega) (by omega),
    satoiFrom_digit _ (x % 10) _ _ (by omega) (by omega) (by omega), hend]
  rw [Prod.mk.injEq]
  exact ⟨by omega, rfl⟩

theorem udec5_eq {x : Nat} (hx : x < 100000) :
    ∃ a b c d e, udec5 x = [48 + a, 48 + b, 48 + c, 48 + d, 48 + e] ∧
      (a < 10 ∧ b < 10 ∧ c < 10 ∧ d < 10 ∧ e < 10) :=
  ⟨_, _, _, _, _, if_pos hx, by omega⟩

theorem headline_isLine (hash : Int) : IsLine (headline hash) := by
  have hlt : (hash % 2 ^ 16).toNat < 100000 := by omega
  obtain ⟨a, b, c, d, e, h, hd⟩ := udec5_eq hlt
  rw [headline, h]
  apply isLine_append
  · simp [newline, CTLCHAR, HEAD]
    omega
  · simp [CTLCHAR, HEAD]
    omega

theorem headline_length (hash : Int) : (headline hash).length = 8 := by
  have hlt : (hash % 2 ^ 16).toNat < 100000 := by omega
  rw [headline, udec5, if_pos hlt]
  rfl

theorem sinit_line {file l rest p : Text} {n : Int} (hf : fgets BUFSIZ file = some (l, rest))
    (h₀ : byte l 0 = CTLCHAR) (h₁ : byte l 1 = HEAD) (hsat : satoi (l.drop 2) = (n, p))
    (hp : byte p 0 = newline) :
    sinit signed file =
      .ok { setline signed (opened file) l rest with p_ihash := n, p_chash := 0 } := by
  rw [sinit, getline, writeOut_read rfl, readline_line rfl hf]
  simp only [bind, Except.bind, setline, h₀, h₁, hsat, hp]
  rfl

/-- A file is accepted when its first line has the sum of the rest. -/
theorem headline_accepted {hash : Int} {rest : Text} (h0 : 0 ∉ rest)
    (hsum : hash % 2 ^ 16 = chars signed rest % 2 ^ 16) :
    Accepted signed (headline hash ++ rest) := by
  have hlen : (headline hash).length < BUFSIZ := by
    rw [headline_length]
    decide
  have hget := (headline_isLine hash).fgets hlen rest
  have hlt : (hash % 2 ^ 16).toNat < 100000 := by omega
  have hsat : satoi ((headline hash).drop 2) = (((hash % 2 ^ 16).toNat : Int), [newline]) :=
    satoi_udec5 hlt [newline] rfl
  have hinit := @sinit_line signed _ _ _ _ _ hget rfl rfl hsat rfl
  have hzero : (0 + chars signed rest - (hash % 2 ^ 16).toNat) % 2 ^ 16 = 0 := by omega
  rw [Accepted, checked, hinit]
  exact getlinesLoop_accepts (rest.length + 1) rfl rfl (by omega) rfl rfl h0 hzero

/-- Nothing has been written, and the sum is that of nothing. -/
structure Unopened (pkt : Packet) : Prop where
  created : pkt.Xcreate = false
  sum : pkt.p_nhash = 0

/- The first pass of delta: the packet is not one for writing. -/
structure Reading (pkt : Packet) : Prop extends Unopened pkt where
  upd : pkt.p_upd = false

theorem getlineEof_nhash {r : Packet × Bool} (h : getlineEof pkt = .ok r) (hp : pkt.p_nhash = 0) :
    r.1.p_upd = pkt.p_upd ∧ r.1.Xcreate = pkt.Xcreate ∧ r.1.p_nhash = 0 ∧
      r.1.p_reopen = false ∧ r.2 = false := by
  rw [getlineEof] at h
  split at h
  · cases h
  split at h
  · cases h
  split at h
  · cases h
    exact ⟨rfl, rfl, rfl, rfl, rfl⟩
  · rename_i hre
    cases h
    exact ⟨rfl, rfl, hp, by simpa using hre, rfl⟩

theorem Reading.getline (hr : Reading pkt) {r : Packet × Bool}
    (h : getline signed pkt = .ok r) : Reading r.1 ∧ (r.2 = false → r.1.p_reopen = false) := by
  rw [Sccs.getline, writeOut_read hr.upd, readline] at h
  split at h
  · cases h
  split at h
  · obtain ⟨hu, hc, hn, hre, -⟩ := getlineEof_nhash h hr.sum
    exact ⟨⟨⟨hc.trans hr.created, hn⟩, hu.trans hr.upd⟩, fun _ => hre⟩
  · cases h
    exact ⟨⟨⟨hr.created, hr.sum⟩, hr.upd⟩, fun hf => by simp at hf⟩

theorem reading_kept : Kept signed Reading where
  getline hr h := (hr.getline h).1
  putline s hr := by
    rw [putline_read hr.upd]
    exact hr
  same hr hu hc _ _ hn := ⟨⟨hc.trans hr.created, hn.trans hr.sum⟩, hu.trans hr.upd⟩

theorem Reading.readmodLoop_eof (fuel : Nat) (hr : Reading pkt) {p : Packet}
    (h : readmodLoop signed fuel pkt = .ok (p, false)) : p.p_reopen = false := by
  induction fuel generalizing pkt with
  | zero => cases h
  | succ fuel ih =>
    rw [readmodLoop] at h
    obtain ⟨⟨q, got⟩, hg, h⟩ := bind_ok h
    obtain ⟨hq, heof⟩ := hr.getline hg
    dsimp only at h
    split at h
    · split at h
      · obtain ⟨u, hu, h⟩ := bind_ok h
        exact ih ((@reading_kept signed).control hq hu) h
      · split at h
        · cases h
        · exact ih hq h
    · rename_i hgot
      split at h
      · cases h
        exact heof (by simpa using hgot)
      · cases h

theorem Reading.readmodsLoop_eof (fuel : Nat) (hr : Reading pkt) {r : Packet × List Text}
    (h : readmodsLoop signed fuel pkt = .ok r) : r.1.p_reopen = false := by
  induction fuel generalizing pkt r with
  | zero => cases h
  | succ fuel ih =>
    rw [readmodsLoop] at h
    obtain ⟨⟨p, got⟩, hg, h⟩ := bind_ok h
    dsimp only at h
    split at h
    · obtain ⟨x, hx, h⟩ := bind_ok h
      cases h
      have hlast := ih (reading_kept.readmod hr hg) hx
      exact hlast
    · rename_i hgot
      cases h
      have hgot' : got = false := by simpa using hgot
      rw [hgot'] at hg
      exact hr.readmodLoop_eof _ hg

theorem foldl_putline {I : Packet → Prop} (hk : Kept signed I) (entry : List Text) (hs : I pkt) :
    I (entry.foldl (fun pkt str => putline signed pkt (some str)) pkt) := by
  induction entry generalizing pkt with
  | nil => exact hs
  | cons str entry ih => exact ih (hk.putline _ hs)

/- The line of counts that is written first, and patched at the end. -/
def blankStats : Text := statline (List.replicate 5 48) (List.replicate 5 48) (List.replicate 5 48)

def top : Text := headline 0 ++ blankStats

/- Of the first two lines that are written, the second is summed. -/
theorem putText_sums {a b : Text} (ha : cstr a = a) (hb : cstr b = b) (hu : pkt.p_upd = true)
    (hr : pkt.p_reopen = false) (hw : Unopened pkt) :
    Sums signed (a ++ b) (chars signed b) (putText signed (putText signed pkt a) b) := by
  have hx : (putText signed (putText signed pkt a) b).Xiop = (a ++ b) ++ [] := by
    rw [putText, putText, ha, hb]
    simp [hw.created]
  have hadd := addChars_mod signed 0 b
  rw [hb] at hadd
  refine ⟨hu, rfl, hr, [], hx, by simp, ?_⟩
  simpa [putText, hw.created, hw.sum, chars] using hadd

theorem mkdelt_sums (entry : List Text) (hu : pkt.p_upd = true) (hr : pkt.p_reopen = false)
    (hw : Unopened pkt) : Sums signed top (chars signed blankStats) (mkdelt signed pkt entry) := by
  have hhead : ([CTLCHAR, HEAD] ++ List.replicate 5 48 ++ [newline] : Text) = headline 0 := rfl
  have hblank : cstr blankStats = blankStats := cstr_eq (by decide)
  rw [mkdelt, hhead, putline_text hu]
  refine foldl_putline sums_kept entry ?_
  have ha := (headline_isLine 0).cstr
  rw [newstats, ← blankStats, top]
  generalize headline 0 = a at ha
  generalize blankStats = b at hblank
  rw [putline_text (by exact hu)]
  exact putText_sums ha hblank hu hr hw

/- What a round of the loop starts from. -/
structure Ready (pkt : Packet) : Prop extends Unopened pkt where
  once : pkt.p_reopen = false

theorem attempt_sums (entry : List Text) (newser : Nat) {w r : Weaver} (hw : Ready w.pkt)
    (h : attempt signed entry newser w = .ok r) :
    Sums signed top (chars signed blankStats) r.pkt := by
  rw [attempt] at h
  obtain ⟨⟨p, got⟩, hp, h⟩ := bind_ok h
  obtain ⟨q, hq, h⟩ := bind_ok h
  have hready : p.p_upd = true ∧ Ready p := by
    rw [getline, writeOut_written (by simp), readline] at hp
    dsimp only at hp
    split at hp
    · cases hp
    split at hp
    · obtain ⟨hu, hc, hn, hre, -⟩ := getlineEof_nhash hp hw.sum
      exact ⟨hu, ⟨hc.trans hw.created, hn⟩, hre⟩
    · cases hp
      exact ⟨rfl, ⟨hw.created, hw.sum⟩, hw.once⟩
  obtain ⟨hu, hready⟩ := hready
  have hmk : Sums signed top (chars signed blankStats) (mkdelt signed { p with p_wrttn := 1 } entry) :=
    mkdelt_sums entry hu hready.once ⟨hready.created, hready.sum⟩
  have hfl := sums_kept.flushtoLoop _ _ _ hmk hq
  exact sums_kept.weave newser (w := { w with pkt := q, inserted := 0, deleted := 0 }) hfl h

theorem deltaLoop_sums (entry : List Text) (newser : Nat) (bdiff : Nat → Text × Nat) (n : Nat)
    {w r : Weaver} (hw : Ready w.pkt) (h : deltaLoop signed entry newser bdiff n w = .ok r) :
    Sums signed top (chars signed blankStats) r.pkt := by
  induction n generalizing w with
  | zero => cases h
  | succ n ih =>
    rw [deltaLoop] at h
    dsimp only at h
    obtain ⟨v, hv, h⟩ := bind_ok h
    have hsums := attempt_sums entry newser (by exact hw) hv
    split at h
    · cases h
      exact hsums
    split at h
    · cases h
    · refine ih ?_ h
      exact ⟨⟨rfl, rfl⟩, hsums.once⟩

theorem addDigits_mod (hash : Int) (p : Text) :
    addDigits signed hash p % 2 ^ 16 = (hash + (chars signed p - 48 * p.length)) % 2 ^ 16 := by
  have hsum : (p.map fun c => charval signed c - 48).sum = chars signed p - 48 * p.length := by
    induction p with
    | nil => rfl
    | cons c p ih =>
      simp only [List.map_cons, List.sum_cons, chars, List.length_cons] at ih ⊢
      rw [ih]
      push_cast
      omega
  rw [addDigits, foldl_mod, hsum]

theorem udec5_length {x : Nat} (hx : x < 100000) : (udec5 x).length = 5 := by
  rw [udec5, if_pos hx]
  rfl

theorem zero_notMem_udec5 {x : Nat} (hx : x < 100000) : 0 ∉ udec5 x := by
  rw [udec5, if_pos hx]
  simp
  omega

theorem overwrite_top (a b c : Text) (h : a.length = b.length) : overwrite (a ++ c) b = b ++ c := by
  rw [overwrite, ← h, List.drop_left]

/- The sum of a line of counts, over that of the line that it takes the place of. -/
theorem statline_sum {a b c : Text} (ha : a.length = 5) (hb : b.length = 5) (hc : c.length = 5) :
    chars signed (statline a b c) = chars signed blankStats + (chars signed a - 48 * a.length) +
      (chars signed b - 48 * b.length) + (chars signed c - 48 * c.length) := by
  have hz : chars signed (List.replicate 5 48) = 48 * 5 := by
    cases signed <;> decide
  rw [statline, blankStats, statline]
  simp only [chars_append, hz, ha, hb, hc]
  push_cast
  omega

theorem unsigned_lt {x : Int} (h : 0 ≤ x ∧ x < 100000) : unsigned x < 100000 := by
  rw [unsigned]
  omega

/- delta patches both lines. -/
theorem flushline_stats {stats : Stats} (hs : Sums signed top (chars signed blankStats) pkt)
    (hr : stats.InRange) : Accepted signed (flushline signed pkt (some stats)).Xiop := by
  obtain ⟨hins, hdel, hunc⟩ := hr
  have hput := hs.putline none
  obtain ⟨b, hb, h0, hsum⟩ := hput.written
  rw [flushline, if_neg (by simp [hs.upd])]
  dsimp only
  generalize putline signed pkt none = p at hb hsum
  have hi := udec5_length (unsigned_lt hins)
  have hd := udec5_length (unsigned_lt hdel)
  have hu := udec5_length (unsigned_lt hunc)
  have hi0 := zero_notMem_udec5 (unsigned_lt hins)
  have hd0 := zero_notMem_udec5 (unsigned_lt hdel)
  have hu0 := zero_notMem_udec5 (unsigned_lt hunc)
  generalize udec5 (unsigned stats.s_ins) = ins at *
  generalize udec5 (unsigned stats.s_del) = del at *
  generalize udec5 (unsigned stats.s_unc) = unc at *
  generalize hhash : addDigits signed (addDigits signed (addDigits signed p.p_nhash ins) del) unc =
    hash
  have htop : top.length = (headline hash ++ statline ins del unc).length := by
    rw [top, List.length_append, List.length_append, headline_length, headline_length]
    simp [blankStats, statline, hi, hd, hu]
  rw [hb, overwrite_top _ _ _ htop, List.append_assoc]
  apply headline_accepted
  · simp [statline, hi0, hd0, hu0, h0, CTLCHAR, STATS, newline]
  · have h₁ := @addDigits_mod signed p.p_nhash ins
    have h₂ := @addDigits_mod signed (addDigits signed p.p_nhash ins) del
    have h₃ := @addDigits_mod signed
      (addDigits signed (addDigits signed p.p_nhash ins) del) unc
    have hline := @statline_sum signed _ _ _ hi hd hu
    rw [chars_append]
    omega

/- rmdel and cdc patch the first, which must be as long as what they write. -/
theorem flushline_head {first : Text} (hs : Sums signed first 0 pkt) (hl : first.length = 8) :
    Accepted signed (flushline signed pkt none).Xiop := by
  have hput := hs.putline none
  obtain ⟨b, hb, h0, hsum⟩ := hput.written
  rw [flushline, if_neg (by simp [hs.upd])]
  dsimp only
  generalize putline signed pkt none = p at hb hsum
  rw [hb, overwrite_top _ _ _ (by rw [hl, headline_length])]
  apply headline_accepted h0
  omega

theorem readHeader_kept {I : Packet → Prop} (hk : Kept signed I) (n : Nat) (hs : I pkt)
    {r : Packet} (h : readHeader signed n pkt = .ok r) : I r := by
  induction n generalizing pkt with
  | zero =>
    cases h
    exact hs
  | succ n ih =>
    obtain ⟨⟨p, got⟩, hp, h⟩ := bind_ok h
    exact ih (hk.getline hs hp) h

/- What sinit leaves, whatever is in the first line. -/
theorem sinit_spec {file : Text} (h : sinit signed file = .ok pkt) :
    Reading pkt ∧ pkt.p_reopen = false ∧ pkt.p_wrttn = 0 ∧ pkt.p_line = header file ∧
      byte pkt.p_line 0 = CTLCHAR ∧ byte pkt.p_line 1 = HEAD ∧
      byte (satoi (pkt.p_line.drop 2)).2 0 = newline := by
  obtain ⟨⟨p, got⟩, hp, h⟩ := bind_ok h
  dsimp only at h
  split at h
  · rename_i hcond
    obtain ⟨hgot, h₀, h₁⟩ := hcond
    split at h
    · rename_i hnl
      cases h
      rw [getline, writeOut_read rfl, readline] at hp
      cases hf : fgets BUFSIZ file with
      | none =>
        simp only [opened, hf] at hp
        obtain ⟨-, -, -, -, hfalse⟩ := getlineEof_nhash hp rfl
        rw [hgot] at hfalse
        cases hfalse
      | some r =>
        obtain ⟨l, rest⟩ := r
        simp only [opened, hf] at hp
        cases hp
        rw [fgets] at hf
        split at hf
        · cases hf
        · have hl : l = header file := by
            rw [header]
            simp only [Option.some.injEq] at hf
            rw [hf]
          exact ⟨⟨⟨rfl, rfl⟩, rfl⟩, rfl, rfl, hl, h₀, h₁, hnl⟩
    · cases h
  · cases h

/- satoi takes digits. -/
theorem satoiFrom_split (sum : Int) (p : Text) :
    ∃ ds, p = ds ++ (satoiFrom sum p).2 ∧ ∀ c ∈ ds, 48 ≤ c := by
  induction p generalizing sum with
  | nil => exact ⟨[], rfl, by simp⟩
  | cons c p ih =>
    rw [satoiFrom]
    split
    · rename_i hc
      obtain ⟨ds, hds, hall⟩ := ih (i32 (sum * 10 + ((c : Int) - 48)))
      refine ⟨c :: ds, by rw [List.cons_append, ← hds], ?_⟩
      intro d hd
      rcases List.mem_cons.mp hd with rfl | hd
      · exact hc.1
      · exact hall d hd
    · exact ⟨[], rfl, by simp⟩

theorem byte_cons {p : Text} {i c : Nat} (h : byte p i = c) (hc : c ≠ 0) :
    p.drop i = c :: p.drop (i + 1) := by
  rw [byte, List.getD_eq_getElem?_getD] at h
  cases hp : p[i]? with
  | none =>
    rw [hp] at h
    exact absurd h.symm hc
  | some d =>
    obtain ⟨hi, hd⟩ := List.getElem?_eq_some_iff.mp hp
    rw [hp] at h
    rw [List.drop_eq_getElem_cons hi, hd]
    congr 1

/- The first line that sinit takes is a string. -/
theorem header_string {file : Text} (h₀ : byte (header file) 0 = CTLCHAR)
    (h₁ : byte (header file) 1 = HEAD)
    (hnl : byte (satoi ((header file).drop 2)).2 0 = newline) : 0 ∉ header file := by
  have hl := takeLine_only (BUFSIZ - 1) file
  rw [← header] at hl
  obtain ⟨ds, hds, hall⟩ := satoiFrom_split 0 ((header file).drop 2)
  rw [satoi] at hnl
  have hrest := byte_cons hnl (by decide)
  rw [List.drop_zero] at hrest
  have e₀ := byte_cons h₀ (by decide)
  have e₁ := byte_cons h₁ (by decide)
  rw [List.drop_zero] at e₀
  have hall' : header file =
      [CTLCHAR, HEAD] ++ ds ++ newline :: (satoiFrom 0 ((header file).drop 2)).2.drop 1 := by
    rw [List.append_assoc, ← hrest, ← hds]
    simpa [← e₁] using e₀
  generalize (satoiFrom 0 ((header file).drop 2)).2.drop 1 = t at hall'
  have ht : t = [] := by
    cases t with
    | nil => rfl
    | cons c t =>
      rw [hall', List.dropLast_append_of_ne_nil (by simp), List.dropLast_cons_cons] at hl
      exact absurd (List.mem_append_right _ List.mem_cons_self) hl
  rw [hall', ht]
  intro h
  simp only [List.mem_append, List.mem_cons, List.not_mem_nil, or_false] at h
  rcases h with ((h | h) | h) | h
  · cases h
  · cases h
  · have := hall 0 h
    omega
  · cases h

/- rmdel and cdc: the first line is what the s-file has. -/
theorem rmheader_sums {file : Text} {steps : List HeaderStep}
    (h : rmheader signed file steps = .ok pkt) : Sums signed (header file) 0 pkt := by
  obtain ⟨p, hp, h⟩ := bind_ok h
  obtain ⟨hread, hre, hw, hline, h₀, h₁, hnl⟩ := sinit_spec hp
  rw [hline] at h₀ h₁ hnl
  have hstr := cstr_eq (header_string h₀ h₁ hnl)
  obtain ⟨q, hq, h⟩ := bind_ok h
  obtain ⟨u, hu, hq⟩ := bind_ok hq
  have hout : Sums signed (header file) 0 (writeOut signed { p with p_upd := true }) := by
    rw [writeOut, if_pos hw]
    unfold putline
    rw [if_neg (by simp), if_pos hw]
    refine ⟨rfl, rfl, hre, [], ?_, by simp, ?_⟩
    · simp [putText, hread.created, hline, hstr]
    · simp [putText, hread.created, hread.sum, chars]
  have hline := hout.readline hu
  cases hq
  exact sums_kept.headerSteps steps hline h

/-- After delta, or after rmdel or cdc where the s-file's first line is of the length that they
write, the next command finds the sum right. -/
theorem update_accepted {file : Text} {u : Update} {new : Text} {stats : Option Stats}
    (h : update signed file u = .ok (new, stats)) (hr : ∀ s, stats = some s → s.InRange)
    (hl : u.isDelta = true ∨ (header file).length = 8) : Accepted signed new := by
  cases u with
  | delta run =>
    obtain ⟨r, hr', h⟩ := bind_ok h
    cases h
    obtain ⟨p, hp, hr'⟩ := bind_ok hr'
    obtain ⟨hread, -⟩ := sinit_spec hp
    obtain ⟨q, hq, hr'⟩ := bind_ok hr'
    have hq' := readHeader_kept reading_kept _ (by exact ⟨⟨hread.created, hread.sum⟩, hread.upd⟩) hq
    obtain ⟨v, hv, hr'⟩ := bind_ok hr'
    have hv' := reading_kept.flushtoLoop _ _ _
      (by exact ⟨⟨hq'.created, hq'.sum⟩, hq'.upd⟩) hv
    obtain ⟨x, hx, hr'⟩ := bind_ok hr'
    have hstart : Reading { v with p_chkeof := true } := ⟨⟨hv'.created, hv'.sum⟩, hv'.upd⟩
    have hx' := reading_kept.readmodsLoop _ hstart hx
    have hre := hstart.readmodsLoop_eof _ hx
    obtain ⟨w, hw, hr'⟩ := bind_ok hr'
    cases hr'
    have hsums := deltaLoop_sums run.entry run.newser run.bdiff 7
      (by exact ⟨⟨hx'.created, hx'.sum⟩, hre⟩) hw
    exact flushline_stats hsums (hr _ rfl)
  | rmdel steps D_serial =>
    have hl' : (header file).length = 8 := hl.resolve_left (by simp [Update.isDelta])
    obtain ⟨r, hr', h⟩ := bind_ok h
    cases h
    obtain ⟨p, hp, hr'⟩ := bind_ok hr'
    obtain ⟨q, hq, hr'⟩ := bind_ok hr'
    obtain ⟨v, hv, hr'⟩ := bind_ok hr'
    cases hr'
    have hq' := sums_kept.flushtoLoop _ _ _ (rmheader_sums hp) hq
    have hv' := sums_kept.rmbodyLoop _ _ _ (by exact hq'.same rfl rfl rfl rfl rfl) hv
    exact flushline_head hv' hl'
  | cdc steps =>
    have hl' : (header file).length = 8 := hl.resolve_left (by simp [Update.isDelta])
    obtain ⟨r, hr', h⟩ := bind_ok h
    cases h
    obtain ⟨p, hp, hr'⟩ := bind_ok hr'
    obtain ⟨q, hq, hr'⟩ := bind_ok hr'
    cases hr'
    have hq' := sums_kept.getlinesLoop _ (by exact (rmheader_sums hp).same rfl rfl rfl rfl rfl) hq
    exact flushline_head hq' hl'

/- An s-file of one delta and one line, after its first line. -/
def sbody : Text :=
  [1, 115, 32, 48, 48, 48, 48, 49, 47, 48, 48, 48, 48, 48, 47, 48, 48, 48, 48, 48, 10,
   1, 100, 32, 68, 32, 49, 46, 49, 32, 56, 56, 47, 48, 49, 47, 48, 49, 32, 48, 48, 58, 48, 48, 58, 48, 48, 32, 109, 101, 32, 49, 32, 48, 10,
   1, 99, 32, 120, 10,
   1, 101, 10,
   1, 117, 10,
   1, 85, 10,
   1, 116, 10,
   1, 84, 10,
   1, 73, 32, 49, 10,
   104, 105, 10,
   1, 69, 32, 49, 10]

/- bdiff fails with the first limit, and then lists a change of the line. -/
def replaced : DeltaRun where
  header := 7
  apply _ := true
  maxser := 1
  newser := 2
  entry := [[1, 100, 32, 68, 32, 49, 46, 50, 10], [1, 101, 10]]
  bdiff n :=
    if n = 3500 then ([49, 100, 48, 10, 60, 32, 104, 105, 10], 1)
    else ([49, 99, 49, 10, 60, 32, 104, 105, 10, 45, 45, 45, 10, 62, 32, 121, 111, 10], 0)

theorem update_accepted_retry :
    ∃ new, update true (headline 3996 ++ sbody) (.delta replaced) = .ok (new, some ⟨1, 1, 0⟩) ∧
      Accepted true new := by
  have hok : (update true (headline 3996 ++ sbody) (.delta replaced)).map (·.2) =
      .ok (some ⟨1, 1, 0⟩) := by decide +kernel
  cases hu : update true (headline 3996 ++ sbody) (.delta replaced) with
  | error e =>
    rw [hu] at hok
    cases hok
  | ok r =>
    rw [hu] at hok
    obtain ⟨new, stats⟩ := r
    cases hok
    refine ⟨new, rfl, update_accepted hu ?_ (.inl rfl)⟩
    intro s hs
    cases hs
    simp [Stats.InRange]

/-- With four digits in the first line the sum is right, and cdc, which writes five, spoils it. -/
theorem short_header_spoiled :
    ¬ ∀ (file : Text) (u : Update) (new : Text) (stats : Option Stats),
      (∃ pkt, checked true file = .ok pkt) → update true file u = .ok (new, stats) →
        (∀ s, stats = some s → s.InRange) → Accepted true new := by
  intro h
  have hlast : ∃ pkt, checked true ([1, 104] ++ udec 3996 ++ [10] ++ sbody) = .ok pkt := by
    have hok : (checked true ([1, 104] ++ udec 3996 ++ [10] ++ sbody)).toBool = true := by
      decide +kernel
    cases hc : checked true ([1, 104] ++ udec 3996 ++ [10] ++ sbody) with
    | error e =>
      rw [hc] at hok
      cases hok
    | ok pkt => exact ⟨pkt, rfl⟩
  have hnew : update true ([1, 104] ++ udec 3996 ++ [10] ++ sbody)
      (.cdc [.getline, .getline, .getline, .getline]) =
        .ok (headline 3996 ++ sbody.drop 1, none) := by decide +kernel
  obtain ⟨pkt, hpkt, -⟩ := h _ _ _ _ hlast hnew (by simp)
  have hbad : (checked true (headline 3996 ++ sbody.drop 1)).toBool = false := by decide +kernel
  rw [hpkt] at hbad
  cases hbad

end
end Svr32.Sccs
