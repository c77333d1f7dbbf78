import Seron.Codegen.Data
import Seron.Verify.Chains
import Seron.Verify.Spelling

/-! # Strings in the data section

Each string literal puts two lines into the data section: a label with a new number, and its
contents between quotes. -/

namespace Seron

/-! ## The lines of the data section -/

/-- The lines of string literals, counted from `n` on. -/
def dataLines (n : Nat) : List String → List DataLine
  | [] => []
  | s :: ss => .label n :: .db s :: dataLines (n + 1) ss

theorem dataLines_append (n : Nat) (ss ss' : List String) :
    dataLines n (ss ++ ss') = dataLines n ss ++ dataLines (n + ss.length) ss' := by
  induction ss generalizing n with
  | nil => rfl
  | cons s ss ih =>
    rw [List.cons_append, dataLines, dataLines, ih, List.length_cons, Nat.add_right_comm]
    rfl

theorem label_mem_dataLines {n k : Nat} {ss : List String} :
    DataLine.label k ∈ dataLines n ss ↔ n ≤ k ∧ k < n + ss.length := by
  induction ss generalizing n with
  | nil => simp [dataLines]
  | cons s ss ih =>
    simp only [dataLines, List.mem_cons, DataLine.label.injEq, reduceCtorEq, false_or, ih,
      List.length_cons]
    omega

/-- The strings are added to the data section, and nothing else happens to it. -/
def Pushes (ss : List String) (gen : Gen) (_ : List Instr) (gen' : Gen) : Prop :=
  gen'.dataCount = gen.dataCount + ss.length ∧
    gen'.bufData = gen.bufData ++ dataLines gen.dataCount ss

theorem pushes_chains : Chains (fun _ => True) Pushes where
  nil := ⟨rfl, (List.append_nil _).symm⟩
  append h h' := by
    refine ⟨by rw [h'.1, h.1, List.length_append, Nat.add_assoc], ?_⟩
    rw [h'.2, h.2, h.1, dataLines_append, List.append_assoc]
  line _ := ⟨rfl, (List.append_nil _).symm⟩
  label := ⟨rfl, (List.append_nil _).symm⟩
  scope := ⟨rfl, (List.append_nil _).symm⟩
  string := ⟨rfl, rfl⟩

variable {tables : List Hashtable} {node : AstNode} {gen gen' : Gen} {ty : Ty} {code : List Instr}

theorem emit_pushes (h : emit tables node gen = .ok (ty, code, gen')) :
    Pushes node.strings gen code gen' :=
  (emit_chained pushes_chains fun _ _ => trivial).1 gen ty code gen' h

/-- The states of the generator between two emissions. -/
inductive GenReached (tables : List Hashtable) : Gen → Prop
  | start : GenReached tables {}
  | emit {gen gen' : Gen} {node : AstNode} {ty : Ty} {text : List Instr} : GenReached tables gen →
    emit tables node gen = .ok (ty, text, gen') → GenReached tables gen'
  | label {gen : Gen} : GenReached tables gen →
    GenReached tables { gen with labelCount := gen.labelCount + 1 }
  | scope {gen : Gen} {scope : Option Nat} : GenReached tables gen →
    GenReached tables { gen with scope }

/-- The data section holds the strings emitted so far. -/
theorem GenReached.pushed (h : GenReached tables gen) :
    ∃ ss, gen.dataCount = ss.length ∧ gen.bufData = dataLines 0 ss := by
  induction h with
  | start => exact ⟨[], rfl, rfl⟩
  | @emit gen gen' node ty text _ hemit ih =>
    obtain ⟨ss, hcount, hdata⟩ := ih
    obtain ⟨hcount', hdata'⟩ := emit_pushes hemit
    refine ⟨ss ++ node.strings, ?_, ?_⟩
    · rw [hcount', hcount, List.length_append]
    · rw [hdata', hdata, hcount, dataLines_append, Nat.zero_add]
  | label _ ih => exact ih
  | scope _ ih => exact ih

theorem GenReached.fresh (h : GenReached tables gen) : .label gen.dataCount ∉ gen.bufData := by
  obtain ⟨ss, hcount, hdata⟩ := h.pushed
  rw [hdata, label_mem_dataLines, hcount]
  omega

/-! ## The bytes of the data section -/

/-- The bytes of lines that are complete. -/
def lineBytes (lines : List (List UInt8)) : List UInt8 := lines.flatMap (· ++ bytes "\n")

/-- The data section consists of these lines. -/
structure DataSection (gen : Gen) (lines : List (List UInt8)) : Prop where
  bytes_eq : dataBytes gen.bufData = .ok (lineBytes lines)
  complete : ∀ line ∈ lines, ∀ c ∈ line, Char.ofUInt8 c ≠ '\n'

theorem bytes_text (content : List UInt8) : bytes (text content) = content := by
  simp only [bytes, text, String.toList_ofList, List.map_map]
  exact (List.map_congr_left fun c _ => toUInt8_ofUInt8 c).trans (List.map_id _)

/-- The contents of a string literal. -/
structure StringLexeme where
  content : List UInt8
  unquoted : ∀ c ∈ content, Char.ofUInt8 c ≠ '"' ∧ c ≠ 0

namespace StringLexeme

def lexeme (s : StringLexeme) : List UInt8 := 34 :: (s.content ++ [34])

/-- The line between whose quotes the assembler reads the contents. -/
def dbLine (s : StringLexeme) : List UInt8 := bytes "db \"" ++ (s.content ++ bytes "\", 0")

/-- Wherever the literal stands, and whatever has been emitted before, two lines are added to the
data section: a new label, and the contents between quotes. `data_count` is an `int`. -/
def Survives (s : StringLexeme) : Prop :=
  ∀ n gap src position behind, Gap n gap →
    ∃ tok lex, lexerNext { src := gap ++ (s.lexeme ++ src), position, behind } = .ok tok lex ∧
      lex.src = src ∧
      ∀ tables gen lines, GenReached tables gen → gen.dataCount < 2 ^ 31 → DataSection gen lines →
        ∃ gen', literal tables tok .string gen =
            .ok (.pointer none, [.movSym ⟨.rax, .w64⟩ s!"string_{gen.dataCount}"], gen') ∧
          .label gen.dataCount ∉ gen.bufData ∧
          DataSection gen' (lines ++ [bytes s!"string_{gen.dataCount}:", s.dbLine])

/-- A call of the lexer in front of a string. -/
theorem lexerNext_string (s : StringLexeme) {n : Nat} {gap src : List UInt8} (position : Nat)
    (behind : List UInt8) (hgap : Gap n gap) :
    ∃ tok lex, lexerNext { src := gap ++ (s.lexeme ++ src), position, behind } = .ok tok lex ∧
      lex.src = src ∧ tok.value = text (s.content.take bufsiz) := by
  obtain ⟨blanks, -, hnext⟩ := @Gap.next n behind gap (s.lexeme ++ src) position hgap
  have hlexeme : s.lexeme ++ src = 34 :: (s.content ++ 34 :: src) := by
    rw [lexeme, List.cons_append, List.append_assoc]
    rfl
  have hread := @tokenizeString_content { kind := .invalid, position := position + blanks }
    s.content src fun c hc => (s.unquoted c hc).1
  have htokenize : tokenize behind { kind := .invalid, position := position + blanks } 34
    (s.content ++ 34 :: src) = tokenizeString { kind := .invalid, position := position + blanks }
      (s.content ++ 34 :: src) := rfl
  rw [lexerNext, hnext, hlexeme, lexerNextFrom, if_neg (by decide), if_neg (by decide), htokenize,
    hread]
  exact ⟨_, _, rfl, rfl, rfl⟩

end StringLexeme

/-! ### When a line is complete -/

/-- A line is written as it is iff it is short enough. -/
theorem genWriteDataBytes_ok {bufData data : List UInt8} {line : DataLine} :
    genWriteDataBytes bufData line = .ok data ↔
      line.format.length + 1 < genBufLen ∧ data = bufData ++ (line.format ++ bytes "\n") := by
  unfold genWriteDataBytes
  by_cases hfits : line.format.length + 1 < genBufLen
  · have htake : line.format.take (genBufLen - 1) = line.format :=
      List.take_of_length_le (by omega)
    simp only [htake]
    rw [if_pos hfits, Except.ok.injEq, and_iff_right hfits, eq_comm]
  · have htake : ¬ (line.format.take (genBufLen - 1)).length + 1 < genBufLen := by
      rw [List.length_take]
      omega
    simp only [if_neg htake, hfits, false_and, reduceCtorEq]

theorem dataBytes_append_ok {lines lines' : List DataLine} {bufData data : List UInt8}
    (h : dataBytes lines = .ok bufData) :
    dataBytes (lines ++ lines') = .ok data ↔ lines'.foldlM genWriteDataBytes bufData = .ok data := by
  rw [dataBytes, List.foldlM_append]
  simp only [dataBytes] at h
  rw [h]
  rfl

theorem bytes_append (a b : String) : bytes (a ++ b) = bytes a ++ bytes b := by
  simp only [bytes, String.toList_append, List.map_append]

theorem format_label (n : Nat) :
    (DataLine.label n).format = bytes "string_" ++ (bytes n.repr ++ bytes ":") := by
  have hlabel : s!"string_{n}:" = "string_" ++ (n.repr ++ ":") := by
    rw [← String.append_assoc]
    rfl
  rw [DataLine.format, hlabel, bytes_append, bytes_append]

/-- The number of a label is an `int`. -/
theorem format_label_length {n : Nat} (h : n < 2 ^ 31) :
    (DataLine.label n).format.length + 1 < genBufLen := by
  have hdigits : n.repr.length ≤ 10 :=
    (Nat.length_repr_le_iff (by decide)).mpr (Nat.lt_trans h (by decide))
  have hrepr : (bytes n.repr).length = n.repr.length := by
    rw [bytes, List.length_map, String.length_toList]
  have hstring : (bytes "string_").length = 7 := rfl
  have hcolon : (bytes ":").length = 1 := rfl
  rw [format_label, List.length_append, List.length_append, hrepr, hstring, hcolon, genBufLen]
  omega

/-- Text without a newline; the test computes. -/
theorem newline_notMem {l : List UInt8} (h : l.all (fun c => !(Char.ofUInt8 c == '\n')) = true) :
    ∀ c ∈ l, Char.ofUInt8 c ≠ '\n' :=
  fun c hc => beq_eq_false_iff_ne.mp (none_of_all h c hc)

theorem digit_ne_newline {char : Char} (h : char.isDigit = true) :
    Char.ofUInt8 char.toUInt8 ≠ '\n' := by
  intro hnewline
  have hbyte : char.toUInt8.toNat = 10 := by rw [eq_of_ofUInt8 hnewline]; rfl
  have hnat : char.toUInt8.toNat = char.val.toNat % 2 ^ 8 := UInt32.toNat_toUInt8 _
  simp only [Char.isDigit, Bool.and_eq_true, decide_eq_true_eq, ge_iff_le,
    UInt32.le_iff_toNat_le] at h
  obtain ⟨hlow, hhigh⟩ := h
  have hlow : 48 ≤ char.val.toNat := hlow
  have hhigh : char.val.toNat ≤ 57 := hhigh
  omega

theorem format_label_complete (n : Nat) :
    ∀ c ∈ (DataLine.label n).format, Char.ofUInt8 c ≠ '\n' := by
  intro c hc
  rw [format_label, List.mem_append, List.mem_append] at hc
  rcases hc with hc | hc | hc
  · exact newline_notMem rfl c hc
  · simp only [bytes, List.mem_map, Nat.toList_repr] at hc
    obtain ⟨char, hchar, rfl⟩ := hc
    exact digit_ne_newline (Nat.isDigit_of_mem_toDigits (by decide) (by decide) hchar)
  · exact newline_notMem rfl c hc

theorem lineBytes_append (lines lines' : List (List UInt8)) :
    lineBytes (lines ++ lines') = lineBytes lines ++ lineBytes lines' := List.flatMap_append

/-- The bytes behind a string literal. -/
theorem push_dataBytes {bufData data : List UInt8} {contents : String}
    (h : dataBytes gen.bufData = .ok bufData) (hcount : gen.dataCount < 2 ^ 31) :
    dataBytes (gen.push contents).bufData = .ok data ↔
      (DataLine.db contents).format.length + 1 < genBufLen ∧ data = bufData ++
        lineBytes [(DataLine.label gen.dataCount).format, (DataLine.db contents).format] := by
  rw [Gen.push, dataBytes_append_ok h, List.foldlM_cons, Except.bind_ok]
  simp only [genWriteDataBytes_ok, format_label_length hcount, true_and, exists_eq_left,
    List.foldlM_cons, List.foldlM_nil, bind_pure, lineBytes, List.flatMap_cons, List.flatMap_nil,
    List.append_nil, List.append_assoc]

namespace StringLexeme

theorem format_db (content : List UInt8) : (DataLine.db (text content)).format =
    bytes "db \"" ++ (content ++ bytes "\", 0") := by
  rw [DataLine.format, bytes_text]

theorem dbLine_length (content : List UInt8) :
    (bytes "db \"" ++ (content ++ bytes "\", 0")).length = content.length + 8 := by
  have hopen : (bytes "db \"").length = 4 := rfl
  have hclose : (bytes "\", 0").length = 4 := rfl
  rw [List.length_append, List.length_append, hopen, hclose]
  omega

theorem dbLine_complete (s : StringLexeme) : (∀ c ∈ s.dbLine, Char.ofUInt8 c ≠ '\n') ↔
    ∀ c ∈ s.content, Char.ofUInt8 c ≠ '\n' := by
  have hopen : ∀ c ∈ bytes "db \"", Char.ofUInt8 c ≠ '\n' := newline_notMem rfl
  have hclose : ∀ c ∈ bytes "\", 0", Char.ofUInt8 c ≠ '\n' := newline_notMem rfl
  simp only [dbLine, List.forall_mem_append]
  exact ⟨fun h => h.2.1, fun h => ⟨hopen, h, hclose⟩⟩

/-- What is left of a string that survives in the first two lines. -/
theorem Survives.first {s : StringLexeme} (h : s.Survives) :
    s.content.length ≤ 1014 ∧ ∀ c ∈ s.content, Char.ofUInt8 c ≠ '\n' := by
  obtain ⟨tok, lex, hnext, -, hsurvives⟩ := h 0 [] [] 0 [] .nil
  obtain ⟨tok', lex', hnext', -, hvalue⟩ := s.lexerNext_string 0 [] .nil
  rw [hnext] at hnext'
  cases hnext'
  have hempty : DataSection {} [] := ⟨rfl, List.forall_mem_nil _⟩
  obtain ⟨gen', hliteral, -, hsection⟩ := hsurvives [] {} [] .start (by decide) hempty
  obtain ⟨-, -, rfl⟩ := literal_string_ok.mp hliteral
  have hbytes := hsection.bytes_eq
  have hcomplete := hsection.complete s.dbLine (by simp)
  obtain ⟨hlength, -⟩ := (push_dataBytes hempty.bytes_eq (by decide)).mp hbytes
  refine ⟨?_, s.dbLine_complete.mp hcomplete⟩
  rw [hvalue, format_db, dbLine_length, List.length_take, genBufLen, bufsiz] at hlength
  omega

/-- A string literal survives iff its line fits into the array, together with a newline and a NUL,
and contains no newline of its own. -/
theorem survives_iff (s : StringLexeme) : s.Survives ↔
    s.content.length ≤ 1014 ∧ ∀ c ∈ s.content, Char.ofUInt8 c ≠ '\n' := by
  constructor
  · exact Survives.first
  · intro h n gap src position behind hgap
    obtain ⟨hlength, hnewline⟩ := h
    obtain ⟨tok, lex, hnext, hrest, hvalue⟩ := s.lexerNext_string position behind hgap
    have htake : s.content.take bufsiz = s.content :=
      List.take_of_length_le (by rw [bufsiz]; omega)
    refine ⟨tok, lex, hnext, hrest, fun tables gen lines hgen hcount hlines => ?_⟩
    refine ⟨gen.push tok.value, literal_string_ok.mpr ⟨rfl, rfl, rfl⟩, hgen.fresh, ?_, ?_⟩
    · rw [push_dataBytes hlines.bytes_eq hcount, hvalue, htake, format_db, lineBytes_append]
      refine ⟨?_, rfl⟩
      rw [dbLine_length, genBufLen]
      omega
    · intro line hline
      rcases List.mem_append.mp hline with hold | hnew
      · exact hlines.complete line hold
      · simp only [List.mem_cons, List.not_mem_nil, or_false] at hnew
        rcases hnew with rfl | rfl
        · exact format_label_complete gen.dataCount
        · exact s.dbLine_complete.mpr hnewline

/-- A line break between quotes. -/
def lineBreak : StringLexeme := ⟨[10], by simp; decide⟩

theorem lineBreak_split : ¬ lineBreak.Survives := by
  intro h
  obtain ⟨-, hnewline⟩ := h.first
  exact hnewline 10 (List.mem_singleton_self _) rfl

end StringLexeme

end Seron
