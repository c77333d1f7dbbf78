import Seron.Diagnostics
import Seron.Verify.Locations

/-! # The line shown with a diagnostic

The loop that prints the line of a token takes as many turns as the source has bytes, counted from
the start of the line, unless it meets a newline. It runs behind the end of the source on a last
line without a newline, if this is not the first line too. -/

namespace Seron

/-! ## Sizes -/

theorem sizeOfInt_ofNat {n : Nat} (h : n < 2 ^ 64) : sizeOfInt n = n := by
  unfold sizeOfInt
  omega

/-- The comparison of `diagnostic_loc`: offsets in front of the token wrap around. -/
theorem sizeOfInt_sub_lt {idx position len : Nat} (hidx : idx < 2 ^ 63)
    (hlen : position + len < 2 ^ 63) :
    sizeOfInt ((idx : Int) - position) < len ↔ position ≤ idx ∧ idx < position + len := by
  unfold sizeOfInt
  omega

section
variable {src : Source} {tok : Token} {idx i count : Nat} {c : UInt8}

theorem Source.read_lt (h : src.chars[idx]? = some c) : src.read idx = .ok c := by
  obtain ⟨hlt, -⟩ := List.getElem?_eq_some_iff.mp h
  simp only [Source.read, List.getElem?_append_left hlt, h]

theorem Source.read_length : src.read src.chars.length = .ok 0 := by
  simp [Source.read]

theorem Source.read_gt (h : src.chars.length < idx) : ∀ c, src.read idx ≠ .ok c := by
  intro c
  have hnone : (src.chars ++ [0])[idx]? = none :=
    List.getElem?_eq_none (by rw [List.length_append, List.length_singleton]; exact h)
  simp only [Source.read, hnone]
  exact nofun

/-! ## The loop -/

/-- The rest of a line, with the bytes of the token highlighted. -/
def lineFrom (src : List UInt8) (tok : Token) (idx : Nat) : List Shown :=
  (List.range' idx (Lines.stop newline src idx - idx)).map fun i =>
    { offset := i, byte := src.getD i 0,
      highlighted := decide (tok.position ≤ i ∧ i < tok.position + tok.len) }

theorem lineFrom_eq_nil {src : List UInt8} :
    lineFrom src tok idx = [] ↔ Lines.stop newline src idx - idx = 0 := by
  rw [lineFrom, List.map_eq_nil_iff, List.range'_eq_nil_iff]

theorem lineFrom_offset {src : List UInt8} : (lineFrom src tok idx).map Shown.offset =
    List.range' idx (Lines.stop newline src idx - idx) := by
  rw [lineFrom, List.map_map]
  exact List.map_id _

theorem lineFrom_cons {src : List UInt8} (h : src[idx]? = some c) (hc : c ≠ newline) :
    lineFrom src tok idx =
      { offset := idx, byte := c,
        highlighted := decide (tok.position ≤ idx ∧ idx < tok.position + tok.len) } ::
        lineFrom src tok (idx + 1) := by
  have hstop := Lines.stop_of_ne h hc
  have hle := @Lines.le_stop _ _ newline src (idx + 1)
  obtain ⟨n, hn⟩ := Nat.exists_eq_add_of_le (hstop ▸ hle)
  have hlen : Lines.stop newline src idx - idx = n + 1 := by omega
  have hlen' : Lines.stop newline src (idx + 1) - (idx + 1) = n := by omega
  rw [lineFrom, lineFrom, hlen, hlen', List.range'_succ, List.map_cons, List.getD_eq_getElem?_getD,
    h]
  rfl

/-- One turn of the loop. -/
theorem showLine_succ {start : Int} (hidx : sizeOfInt (i + start) = idx)
    (hread : src.read idx = .ok c) (shown : List Shown) : showLine src tok start (count + 1) i = .ok shown ↔
      if c = newline then shown = []
      else ∃ line, showLine src tok start count (i + 1) = .ok line ∧
        shown = { offset := idx, byte := c,
                  highlighted := decide (sizeOfInt (idx - tok.position) < tok.len) } :: line := by
  rw [showLine, hidx]
  simp only [Except.bind_ok, hread, Except.ok.injEq, exists_eq_left']
  split
  · exact ⟨fun h => (Except.ok.inj h).symm, fun h => congrArg _ h.symm⟩
  · simp only [Except.bind_ok, pure, Except.pure, Except.ok.injEq, @eq_comm _ shown]

/-- The loop shows the rest of the line iff it has a turn for each byte, and either none for what
is behind them or a newline there. -/
theorem showLine_eq_iff {start : Nat} (hidx : start + i = idx) (hle : idx ≤ src.chars.length)
    (htok : tok.position + tok.len ≤ src.chars.length) :
    showLine src tok start count i = .ok (lineFrom src.chars tok idx) ↔
      Lines.stop newline src.chars idx - idx = count ∨
        Lines.stop newline src.chars idx < src.chars.length ∧
          Lines.stop newline src.chars idx - idx < count := by
  have hfits := src.fits
  induction count generalizing i idx with
  | zero =>
    rw [showLine, Except.ok.injEq, eq_comm, lineFrom_eq_nil]
    omega
  | succ count ih =>
    have hsize : sizeOfInt (i + (start : Int)) = idx := by
      have hsum : (i : Int) + start = (idx : Nat) := by omega
      rw [hsum, sizeOfInt_ofNat (by omega)]
    rcases Nat.eq_or_lt_of_le hle with hend | hlt
    · have hstop := @Lines.stop_of_length_le _ _ newline _ _ (Nat.le_of_eq hend.symm)
      have hnil : lineFrom src.chars tok idx = [] := lineFrom_eq_nil.mpr (by omega)
      have hzero : (0 : UInt8) ≠ newline := by decide
      rw [showLine_succ hsize (hend ▸ src.read_length), if_neg hzero, hnil]
      constructor
      · intro ⟨_, _, h⟩
        cases h
      · omega
    · have hget := List.getElem?_eq_getElem hlt
      rw [showLine_succ hsize (Source.read_lt hget)]
      by_cases hc : src.chars[idx] = newline
      · have hstop := Lines.stop_of_sep (hc ▸ hget)
        rw [if_pos hc, lineFrom_eq_nil]
        omega
      · have hstop := Lines.stop_of_ne hget hc
        have hbehind := @Lines.le_stop _ _ newline src.chars (idx + 1)
        rw [if_neg hc, lineFrom_cons hget hc]
        simp only [sizeOfInt_sub_lt (show idx < 2 ^ 63 by omega)
          (show tok.position + tok.len < 2 ^ 63 by omega), List.cons.injEq, true_and]
        have ih := @ih (idx + 1) (i + 1) (by omega) hlt
        constructor
        · rintro ⟨_, hline, rfl⟩
          have := ih.mp hline
          omega
        · intro h
          exact ⟨_, ih.mpr (by omega), rfl⟩

/-- If the offset of the line does not fit an `int`, the loop begins somewhere else, and shows
nothing iff there is a newline. -/
theorem showLine_wrapped_iff {start : Nat} (hstart : intMax < start)
    (hle : start ≤ src.chars.length) :
    showLine src tok (intOfSize start) src.chars.length 0 = .ok (lineFrom src.chars tok start) ↔
      Lines.stop newline src.chars start = start ∧
        ∃ i : Nat, intOfSize start = i ∧ src.chars[i]? = some newline := by
  have hfits := src.fits
  have hupper := intOfSize_le start
  have hlower := intOfSize_ge start
  obtain ⟨n, hn⟩ : ∃ n, src.chars.length = n + 1 :=
    Nat.exists_eq_succ_of_ne_zero (by unfold intMax at hstart; omega)
  rw [hn]
  unfold intMax at *
  rcases Int.lt_or_le (intOfSize start) 0 with hneg | hpos
  · constructor
    · intro h
      rw [showLine, Except.bind_ok] at h
      obtain ⟨c, hc, -⟩ := h
      exact absurd hc (Source.read_gt (by unfold sizeOfInt; omega) c)
    · intro ⟨_, i, hi, _⟩
      omega
  · obtain ⟨k, hk⟩ := Int.eq_ofNat_of_zero_le hpos
    have hsize : sizeOfInt ((0 : Nat) + intOfSize start) = k := by
      unfold sizeOfInt
      omega
    have hlt : k < src.chars.length := by omega
    have hget := List.getElem?_eq_getElem hlt
    rw [showLine_succ hsize (Source.read_lt hget)]
    by_cases hc : src.chars[k] = newline
    · have hstop := @Lines.le_stop _ _ newline src.chars start
      rw [if_pos hc, lineFrom_eq_nil]
      constructor
      · intro h
        exact ⟨by omega, k, hk, hc ▸ hget⟩
      · intro ⟨h, _⟩
        omega
    · rw [if_neg hc]
      constructor
      · intro ⟨line, _, h⟩
        have hoffset := congrArg (List.map Shown.offset) h
        rw [lineFrom_offset, List.map_cons, List.range'_eq_cons_iff] at hoffset
        have hsame : start = k := hoffset.1
        omega
      · intro ⟨_, i, hi, hnewline⟩
        have hik : i = k := by omega
        exact absurd (Option.some.inj (hget.symm.trans (hik ▸ hnewline))) hc

/-! ## The report -/

/-- The line of the token is the first, or it ends with a newline. If its offset does not fit an
`int`, it is empty, and by chance there is a newline at the offset that is taken instead. -/
def LineFound (src : List UInt8) (position : Nat) : Prop :=
  let start := Lines.start newline src position
  (start ≤ intMax ∧ (newline ∉ src.take position ∨ newline ∈ src.drop position)) ∨
    intMax < start ∧ Lines.stop newline src position = start ∧
      ∃ i : Nat, intOfSize start = i ∧ src[i]? = some newline

/-- The bytes of the line on which the token starts, up to its newline or the end of the source,
with the bytes of the token highlighted. -/
def lineShown (src : List UInt8) (tok : Token) : List Shown :=
  lineFrom src tok (Lines.start newline src tok.position)

variable {kind : DiagnosticKind} {message : String} {ctx : CompilerContext} {report : Report}

theorem showLine_lineShown_iff (htok : tok.position + tok.len ≤ src.chars.length) :
    showLine src tok (intOfSize (Lines.start newline src.chars tok.position)) src.chars.length 0 =
      .ok (lineShown src.chars tok) ↔ LineFound src.chars tok.position := by
  have hposition : tok.position ≤ src.chars.length := by omega
  have hstart := @Lines.start_le _ _ newline src.chars tok.position
  have hstop := @Lines.stop_start _ _ newline _ _ hposition
  have hfirst := @Lines.start_eq_zero _ _ newline src.chars tok.position
  have hend := @Lines.stop_lt_iff _ _ newline src.chars tok.position
  unfold LineFound lineShown
  rw [← hfirst, ← hend, ← hstop]
  generalize Lines.start newline src.chars tok.position = start at *
  by_cases hfit : (start : Int) ≤ intMax
  · have hle := @Lines.stop_le _ _ newline _ _ (Nat.le_trans hstart hposition)
    have hbehind := @Lines.le_stop _ _ newline src.chars start
    rw [intOfSize_eq.mpr hfit, showLine_eq_iff (Nat.add_zero start) (by omega) htok]
    constructor
    · intro h
      exact .inl ⟨hfit, by omega⟩
    · rintro (⟨-, h⟩ | ⟨h, -⟩)
      · omega
      · omega
  · have hlt := Int.lt_of_not_ge hfit
    rw [showLine_wrapped_iff hlt (by omega)]
    constructor
    · intro h
      exact .inr ⟨hlt, h⟩
    · rintro (⟨h, -⟩ | ⟨-, h⟩)
      · exact absurd h hfit
      · exact h

/-- What decides about the line that is shown. -/
theorem diagnosticLoc_line {shown : List Shown} :
    (∃ report, ctx.diagnosticLoc kind tok message = .ok report ∧ report.line = shown) ↔
      ∃ loc, getTokenLocation tok ctx.src = .ok loc ∧
        showLine ctx.src tok loc.start ctx.src.chars.length 0 = .ok shown := by
  constructor
  · rintro ⟨report, h, rfl⟩
    obtain ⟨loc, hloc, h⟩ := Except.bind_ok.mp h
    obtain ⟨line, hline, h⟩ := Except.bind_ok.mp h
    cases h
    exact ⟨loc, hloc, hline⟩
  · intro ⟨loc, hloc, hline⟩
    refine ⟨_, Except.bind_ok.mpr ⟨loc, hloc, Except.bind_ok.mpr ⟨shown, hline, rfl⟩⟩, rfl⟩

/-- A diagnostic shows the line of a token iff the location of the token fits the counters and the
line is found: it is the first one or ends with a newline. -/
theorem line_shown_iff (ctx : CompilerContext) (kind : DiagnosticKind) (tok : Token)
    (message : String) (h : tok.position + tok.len ≤ ctx.src.chars.length) :
    (∃ report, ctx.diagnosticLoc kind tok message = .ok report ∧
      report.line = lineShown ctx.src.chars tok) ↔
      (1 + Lines.before newline ctx.src.chars tok.position ≤ intMax ∧
        ∀ i < tok.position, i - Lines.start newline ctx.src.chars i + 2 ≤ intMax) ∧
      LineFound ctx.src.chars tok.position := by
  have hposition : tok.position ≤ ctx.src.chars.length := by omega
  have hline : ∀ i < tok.position, i < ctx.src.chars.length := by omega
  rw [diagnosticLoc_line, ← showLine_lineShown_iff h]
  simp only [getTokenLocation_ok_iff, Nat.min_eq_left hposition]
  constructor
  · rintro ⟨loc, ⟨rfl, hlines, hcolumns⟩, hshown⟩
    refine ⟨⟨hlines, fun i hi => ?_⟩, hshown⟩
    have := hcolumns i hi (hline i hi)
    simp only [locationAt] at this
    omega
  · intro hfits
    obtain ⟨⟨hlines, hcolumns⟩, hshown⟩ := hfits
    refine ⟨_, ⟨rfl, hlines, fun i hi _ => ?_⟩, hshown⟩
    have := hcolumns i hi
    simp only [locationAt]
    omega

end

/-- An identifier at the front of the second line. -/
def secondLineToken : Token := { Token.ident "x" with position := 2 }

def endedLine : Source := ⟨bytes "a\nx\n", by decide, by decide⟩

theorem line_shown_iff_endedLine :
    secondLineToken.position + secondLineToken.len ≤ endedLine.chars.length ∧
      ∃ report, CompilerContext.diagnosticLoc ⟨endedLine, bytes "main.sn"⟩ .error secondLineToken
          "Unknown symbol" = .ok report ∧
        report.line = [{ offset := 2, byte := 120, highlighted := true }] := by
  have hinside : secondLineToken.position + secondLineToken.len ≤ endedLine.chars.length := by
    decide
  have hfit := @countersFit_of_length endedLine.chars (by decide) 2
  refine ⟨hinside, (line_shown_iff ⟨endedLine, _⟩ _ secondLineToken _ hinside).mpr ?_⟩
  refine ⟨⟨hfit.line, ?_⟩, ?_⟩
  · intro i hi
    exact hfit.column i hi (Nat.lt_trans hi (by decide))
  · exact .inl ⟨hfit.start, .inr (by decide)⟩

def unendedLine : Source := ⟨bytes "a\nx", by decide, by decide⟩

/-- Behind a last line without a newline the loop goes on until it has left the source. -/
theorem last_line_overread :
    secondLineToken.position + secondLineToken.len ≤ unendedLine.chars.length ∧
      CompilerContext.diagnosticLoc ⟨unendedLine, bytes "main.sn"⟩ .error secondLineToken
        "Unknown symbol" = .error (.undefined "read behind the source") := by
  decide

end Seron
