import Seron.Location
import Seron.Theory.Lines

/-! # Lines and columns

The location of a token counts the newlines in front of it, and the bytes from the last of them to
the token, as long as an `int` can hold these numbers. -/

namespace Seron

theorem increment_ok {n m : Int} : increment n = .ok m ↔ n < intMax ∧ m = n + 1 := by
  unfold increment
  split
  · rename_i hlt
    rw [Except.ok.injEq]
    exact ⟨fun h => ⟨hlt, h.symm⟩, fun h => h.2.symm⟩
  · rename_i hlt
    exact ⟨nofun, fun h => absurd h.1 hlt⟩

theorem intOfSize_le (n : Nat) : intOfSize n ≤ intMax := by
  have := @BitVec.toInt_lt 32 (BitVec.ofNat 32 n)
  unfold intOfSize intMax
  omega

theorem intOfSize_ge (n : Nat) : -(intMax + 1) ≤ intOfSize n := by
  have := @BitVec.le_toInt 32 (BitVec.ofNat 32 n)
  unfold intOfSize intMax
  omega

/-- An offset is kept by an `int` iff it is not too large. -/
theorem intOfSize_eq {n : Nat} : intOfSize n = n ↔ n ≤ intMax := by
  constructor
  · intro h
    rw [← h]
    exact intOfSize_le n
  · intro h
    unfold intMax at h
    have hlt : n < 2 ^ 32 := by omega
    have hnat : (BitVec.ofNat 32 n).toNat = n := Nat.mod_eq_of_lt hlt
    rw [intOfSize, BitVec.toInt_eq_toNat_of_lt (by omega), hnat]

/-! ## The loop -/

/-- What the three counters are at an offset. -/
def locationAt (src : List UInt8) (i : Nat) : TokenLocation where
  line := 1 + Lines.before newline src i
  column := i - Lines.start newline src i + 1
  start := intOfSize (Lines.start newline src i)

section
variable {src : List UInt8} {c : UInt8} {i position : Nat} {loc : TokenLocation}

theorem locationAt_of_newline (h : src[i]? = some newline) : locationAt src (i + 1) =
    { line := (locationAt src i).line + 1, column := 1, start := intOfSize (i + 1) } := by
  have hstart : Lines.start newline src (i + 1) = i + 1 := by rw [Lines.start, if_pos h]
  simp only [locationAt, hstart, Lines.before_succ_of_sep h, TokenLocation.mk.injEq, and_true]
  omega

theorem locationAt_of_ne (h : src[i]? ≠ some newline) : locationAt src (i + 1) =
    { locationAt src i with column := (locationAt src i).column + 1 } := by
  have hstart : Lines.start newline src (i + 1) = Lines.start newline src i := by
    rw [Lines.start, if_neg h]
  simp only [locationAt, hstart, Lines.before_succ_of_ne h, TokenLocation.mk.injEq, and_true,
    true_and]
  omega

/-- One turn of the loop. -/
theorem getTokenLocation_loop_cons (h : src[i]? = some c) (hi : i ≠ position) (rest : List UInt8) :
    getTokenLocation.loop position (c :: rest) i (locationAt src i) = .ok loc ↔
      (locationAt src i).column < intMax ∧ (c = newline → (locationAt src i).line < intMax) ∧
        getTokenLocation.loop position rest (i + 1) (locationAt src (i + 1)) = .ok loc := by
  rw [getTokenLocation.loop, if_neg hi, Except.bind_ok]
  simp only [increment_ok]
  by_cases hc : c = newline
  · subst hc
    simp only [if_true, Except.bind_ok, increment_ok, forall_const, locationAt_of_newline h]
    constructor
    · rintro ⟨_, ⟨hcolumn, -⟩, _, ⟨hline, rfl⟩, hloop⟩
      exact ⟨hcolumn, hline, hloop⟩
    · intro ⟨hcolumn, hline, hloop⟩
      exact ⟨_, ⟨hcolumn, rfl⟩, _, ⟨hline, rfl⟩, hloop⟩
  · have hne : src[i]? ≠ some newline := fun heq => hc (Option.some.inj (h.symm.trans heq))
    simp only [if_neg hc, locationAt_of_ne hne]
    constructor
    · rintro ⟨_, ⟨hcolumn, rfl⟩, hloop⟩
      exact ⟨hcolumn, fun heq => absurd heq hc, hloop⟩
    · intro ⟨hcolumn, _, hloop⟩
      exact ⟨_, ⟨hcolumn, rfl⟩, hloop⟩

theorem line_mono {j : Nat} (h : i ≤ j) : (locationAt src i).line ≤ (locationAt src j).line := by
  have := @Lines.before_mono _ _ newline src _ _ h
  simp only [locationAt]
  omega

theorem line_min (position : Nat) :
    (locationAt src (min position src.length)).line = (locationAt src position).line := by
  simp only [locationAt, Lines.before_min]

/-- The loop ends at the position, or at the end of the source. -/
theorem getTokenLocation_loop_end {rest : List UInt8} (hrest : src.drop i = rest)
    (hend : i = min position src.length) (hline : (locationAt src i).line ≤ intMax) :
    getTokenLocation.loop position rest i (locationAt src i) = .ok loc ↔
      loc = locationAt src (min position src.length) ∧ (locationAt src position).line ≤ intMax ∧
        ∀ j, i ≤ j → j < position → j < src.length → (locationAt src j).column < intMax := by
  have hstop : getTokenLocation.loop position rest i (locationAt src i) =
      .ok (locationAt src i) := by
    cases rest with
    | nil => rfl
    | cons c rest =>
      have hlt : i < src.length := by
        by_contra hge
        rw [List.drop_eq_nil_of_le (by omega)] at hrest
        cases hrest
      rw [getTokenLocation.loop, if_pos (by omega)]
  rw [hstop, Except.ok.injEq, ← line_min, ← hend, eq_comm]
  exact ⟨fun h => ⟨h, hline, fun j hij hjp hj => by omega⟩, fun h => h.1⟩

/-- The loop arrives at the position, or at the end of the source, unless a counter overflows. -/
theorem getTokenLocation_loop {rest : List UInt8} (hrest : src.drop i = rest)
    (hi : i ≤ min position src.length) (hline : (locationAt src i).line ≤ intMax) :
    getTokenLocation.loop position rest i (locationAt src i) = .ok loc ↔
      loc = locationAt src (min position src.length) ∧ (locationAt src position).line ≤ intMax ∧
        ∀ j, i ≤ j → j < position → j < src.length → (locationAt src j).column < intMax := by
  induction rest generalizing i with
  | nil =>
    have hend : i = min position src.length := by
      have := List.drop_eq_nil_iff.mp hrest
      omega
    exact getTokenLocation_loop_end hrest hend hline
  | cons c rest ih =>
    by_cases hend : i = min position src.length
    · exact getTokenLocation_loop_end hrest hend hline
    have hlt : i < src.length := by omega
    have hnext : i + 1 ≤ min position src.length := by omega
    rw [List.drop_eq_getElem_cons hlt] at hrest
    obtain ⟨hc, hrest⟩ := List.cons.inj hrest
    have hget : src[i]? = some c := by rw [List.getElem?_eq_getElem hlt, hc]
    rw [getTokenLocation_loop_cons hget (by omega)]
    constructor
    · intro hstep
      obtain ⟨hcolumn, hlines, hloop⟩ := hstep
      have hline' : (locationAt src (i + 1)).line ≤ intMax := by
        by_cases hc : c = newline
        · rw [locationAt_of_newline (hc ▸ hget)]
          exact hlines hc
        · rw [locationAt_of_ne fun heq => hc (Option.some.inj (hget.symm.trans heq))]
          exact hline
      obtain ⟨hloc, hend, hcolumns⟩ := (ih hrest hnext hline').mp hloop
      refine ⟨hloc, hend, fun j hij hjp hj => ?_⟩
      rcases Nat.eq_or_lt_of_le hij with rfl | hij
      · exact hcolumn
      · exact hcolumns j hij hjp hj
    · intro harrives
      obtain ⟨hloc, hend, hcolumns⟩ := harrives
      have hline' := Int.le_trans (line_mono (Nat.le_trans hnext (Nat.min_le_left ..))) hend
      refine ⟨hcolumns i (Nat.le_refl i) (by omega) hlt, fun hc => ?_, ?_⟩
      · rw [locationAt_of_newline (hc ▸ hget)] at hline'
        exact hline'
      · apply (ih hrest hnext hline').mpr
        exact ⟨hloc, hend, fun j hij => hcolumns j (by omega)⟩

end

/-! ## The location of a token -/

/-- No counter exceeds `INT_MAX` on the way to the position. -/
structure CountersFit (src : List UInt8) (position : Nat) : Prop where
  line : 1 + Lines.before newline src position ≤ intMax
  column : ∀ i < position, i < src.length → i - Lines.start newline src i + 2 ≤ intMax
  start : Lines.start newline src position ≤ intMax

/-- The counters of every source that is shorter than `INT_MAX` fit. -/
theorem countersFit_of_length {src : List UInt8} (h : src.length + 1 ≤ intMax) (position : Nat) :
    CountersFit src position where
  line := by
    have := (List.count_le_length (a := newline) (l := src.take position))
    have := List.length_take_le' position src
    unfold Lines.before
    omega
  column i _ hi := by omega
  start := by
    have := @Lines.start_le _ _ newline src (min position src.length)
    rw [Lines.start_min] at this
    omega

theorem getTokenLocation_ok_iff {tok : Token} {src : Source} {loc : TokenLocation} :
    getTokenLocation tok src = .ok loc ↔
      loc = locationAt src.chars (min tok.position src.chars.length) ∧
        (locationAt src.chars tok.position).line ≤ intMax ∧
        ∀ i < tok.position, i < src.chars.length → (locationAt src.chars i).column < intMax := by
  have hloop := @getTokenLocation_loop src.chars 0 tok.position loc src.chars rfl
    (Nat.zero_le _) (show 1 + ((0 : Nat) : Int) ≤ intMax by decide)
  simp only [Nat.zero_le, forall_const] at hloop
  exact hloop

theorem getTokenLocation_of_fits {tok : Token} {src : Source}
    (h : CountersFit src.chars tok.position) : getTokenLocation tok src =
      .ok (locationAt src.chars (min tok.position src.chars.length)) := by
  refine getTokenLocation_ok_iff.mpr ⟨rfl, h.line, fun i hip hi => ?_⟩
  have := h.column i hip hi
  simp only [locationAt]
  omega

/-- If its counters fit, the location of a token has the number of its line, the offset at which
the line starts, and the distance of the token from there. A token behind the end of the source
is taken to be at the end. -/
theorem token_location (tok : Token) (src : Source) (h : CountersFit src.chars tok.position) :
    ∃ start ≤ min tok.position src.chars.length,
      (start = 0 ∨ ∃ i, start = i + 1 ∧ src.chars[i]? = some newline) ∧
      (∀ i, start ≤ i → i < min tok.position src.chars.length →
        src.chars[i]? ≠ some newline) ∧
      getTokenLocation tok src = .ok {
        line := 1 + (src.chars.take tok.position).count newline
        column := min tok.position src.chars.length - start + 1
        start } := by
  obtain ⟨hle, hstart, hfree⟩ := Lines.start_eq_iff.mp
    (rfl : Lines.start newline src.chars (min tok.position src.chars.length) = _)
  refine ⟨_, hle, hstart, hfree, ?_⟩
  rw [getTokenLocation_of_fits h]
  simp only [locationAt, Lines.start_min, Lines.before_min, intOfSize_eq.mpr h.start]
  rfl

/-- A token behind an empty line. -/
def behindEmptyLine : Source := ⟨bytes "a\n\nx", by decide, by decide⟩

theorem token_location_behindEmptyLine :
    CountersFit behindEmptyLine.chars 3 ∧
      getTokenLocation { Token.ident "x" with position := 3 } behindEmptyLine =
        .ok { line := 3, column := 1, start := 3 } := by
  have hfit := @countersFit_of_length behindEmptyLine.chars (by decide) 3
  obtain ⟨start, hle, -, hfree, hloc⟩ :=
    token_location { Token.ident "x" with position := 3 } behindEmptyLine hfit
  have hstart : start = 3 := by
    have hlt : ¬ start ≤ 2 := fun h => hfree 2 h (by decide) rfl
    have hmin : min 3 behindEmptyLine.chars.length = 3 := rfl
    simp only [hmin] at hle
    omega
  subst hstart
  exact ⟨hfit, hloc⟩

end Seron
