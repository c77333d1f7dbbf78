import Seron.Codegen.Buffer
import Mathlib.Data.List.TakeWhile

/-! # The text that is written

A buffer holds the bytes that were appended to it, and zeros up to its capacity. The string that
is printed ends where the bytes end, unless they fill the buffer: then no zero is left. -/

namespace Seron

variable {a : Allocator} {buf buf' : Buffer} {written : List UInt8}

/-- The buffer holds some bytes and zeros behind them, and is not larger than it had to become. -/
structure Buffer.Holds (buf : Buffer) (written : List UInt8) : Prop where
  len : buf.len = written.length
  items : buf.items = written ++ List.replicate (buf.cap - written.length) 0
  cap : buf.cap = 0 ∧ written = [] ∨
    written ≠ [] ∧ ∃ k, buf.cap = 50 * 2 ^ k ∧ written.length ≤ buf.cap ∧
      ∀ j < k, 50 * 2 ^ j < written.length
  bounded : buf.cap < 2 ^ 63

/-- There was no memory left. -/
def OutOfMemory (a : Allocator) {α : Type} (x : Except Failure α) : Prop :=
  x = .error reallocPanic ∧ ∃ items cap, a.realloc items cap = none

/-- The bytes fill a buffer up to a capacity that it can have. -/
def Full (written : List UInt8) : Prop := ∃ k, written.length = 50 * 2 ^ k

theorem not_full_nil : ¬ Full [] := by
  rintro ⟨k, hk⟩
  have := Nat.two_pow_pos k
  rw [List.length_nil] at hk
  omega

namespace Buffer.Holds

theorem empty : Holds {} [] where
  len := rfl
  items := rfl
  cap := .inl ⟨rfl, rfl⟩
  bounded := by decide

theorem length_le (h : buf.Holds written) : written.length ≤ buf.cap := by
  rcases h.cap with ⟨-, rfl⟩ | ⟨-, k, -, hle, -⟩
  · exact Nat.zero_le _
  · exact hle

theorem items_length (h : buf.Holds written) : buf.items.length = buf.cap := by
  have := h.length_le
  rw [h.items, List.length_append, List.length_replicate]
  omega

/-- The first `len` bytes are those that were appended. -/
theorem take (h : buf.Holds written) : buf.items.take buf.len = written := by
  rw [h.items, h.len, List.take_left]

/-- The next capacity of a buffer without room. -/
theorem next_cap (h : buf.Holds written) (hfull : buf.cap ≤ buf.len) :
    ∃ k, (if buf.cap = 0 then 50 else buf.cap * 2 % 2 ^ 64) = 50 * 2 ^ k ∧
      written.length < 50 * 2 ^ k ∧ ∀ j < k, 50 * 2 ^ j ≤ written.length := by
  rcases h.cap with ⟨hcap, rfl⟩ | ⟨hne, k, hcap, hle, hlt⟩
  · exact ⟨0, by rw [if_pos hcap]; rfl, by simp, fun j hj => by omega⟩
  · have hpow := Nat.two_pow_pos k
    have hbounded := h.bounded
    have hlen : written.length = 50 * 2 ^ k := by
      rw [h.len] at hfull
      omega
    refine ⟨k + 1, ?_, by omega, fun j hj => ?_⟩
    · rw [if_neg (by omega), Nat.mod_eq_of_lt (by omega), hcap, pow_succ, Nat.mul_assoc]
    · rcases Nat.lt_succ_iff_lt_or_eq.mp hj with hj | rfl
      · exact Nat.le_of_lt (hlt j hj)
      · exact Nat.le_of_eq hlen.symm

/-- After the first statement of `buffer_append` there is room. -/
theorem grow (h : buf.Holds written) :
    OutOfMemory a (bufferGrow a buf) ∨ ∃ buf', bufferGrow a buf = .ok buf' ∧
      buf'.len = written.length ∧ written.length < buf'.cap ∧ buf'.cap < 2 ^ 63 ∧
      buf'.items = written ++ List.replicate (buf'.cap - written.length) 0 ∧
      ∃ k, buf'.cap = 50 * 2 ^ k ∧ ∀ j < k, 50 * 2 ^ j ≤ written.length := by
  unfold bufferGrow
  by_cases hfull : buf.cap ≤ buf.len
  · obtain ⟨k, hcap, hlt, hle⟩ := h.next_cap hfull
    rw [if_pos hfull]
    simp only [hcap]
    cases hrealloc : a.realloc buf.items (50 * 2 ^ k) with
    | none => exact .inl ⟨rfl, _, _, hrealloc⟩
    | some items =>
      have hlength := h.items_length
      have hlen := h.len
      have hall : buf.items = written := by
        rw [h.items, Nat.sub_eq_zero_of_le (h.len ▸ hfull), List.replicate_zero, List.append_nil]
      obtain ⟨hitems, tail, rfl⟩ := a.keeps hrealloc (by omega)
      refine .inr ⟨_, rfl, h.len, hlt, a.bounded hrealloc, ?_, k, rfl, hle⟩
      have htail : (buf.items ++ tail).drop (written.length + (50 * 2 ^ k - written.length)) = [] :=
        List.drop_eq_nil_of_le (by omega)
      rw [h.len, memset, htail, List.append_nil, hall, List.take_left]
  · rw [if_neg hfull]
    have hlen := h.len
    refine .inr ⟨buf, rfl, h.len, by omega, h.bounded, h.items, ?_⟩
    rcases h.cap with ⟨hcap, -⟩ | ⟨-, k, hcap, -, hlt⟩
    · omega
    · exact ⟨k, hcap, fun j hj => Nat.le_of_lt (hlt j hj)⟩

theorem append (h : buf.Holds written) (c : UInt8) :
    OutOfMemory a (bufferAppend a buf c) ∨
      ∃ buf', bufferAppend a buf c = .ok buf' ∧ buf'.Holds (written ++ [c]) := by
  unfold bufferAppend
  rcases @grow a _ _ h with ⟨herr, hnone⟩ | ⟨buf', hok, hlen, hlt, hbounded, hitems, k, hcap, hle⟩
  · rw [herr]
    exact .inl ⟨rfl, hnone⟩
  · have hlength : buf'.items.length = buf'.cap := by
      rw [hitems, List.length_append, List.length_replicate]
      omega
    rw [hok]
    refine .inr ⟨{ buf' with len := buf'.len + 1, items := buf'.items.set buf'.len c }, ?_, ?_⟩
    · have hroom : buf'.len < buf'.items.length := by omega
      exact if_pos hroom
    · refine ⟨by simp [hlen], ?_, .inr ⟨by simp, k, hcap, ?_, fun j hj => ?_⟩, hbounded⟩
      · obtain ⟨n, hn⟩ : ∃ n, buf'.cap - written.length = n + 1 :=
          ⟨buf'.cap - written.length - 1, by omega⟩
        have hn' : buf'.cap - (written ++ [c]).length = n := by
          rw [List.length_append, List.length_singleton]
          omega
        simp only [hn', hitems, hlen, hn, List.replicate_succ]
        rw [List.set_append_right _ _ (Nat.le_refl _), Nat.sub_self, List.set_cons_zero,
          List.append_assoc, List.singleton_append]
      · rw [List.length_append, List.length_singleton]
        exact hlt
      · have := hle j hj
        rw [List.length_append, List.length_singleton]
        omega

theorem appendAll (h : buf.Holds written) (str : List UInt8) :
    OutOfMemory a (str.foldlM (bufferAppend a) buf) ∨
      ∃ buf', str.foldlM (bufferAppend a) buf = .ok buf' ∧ buf'.Holds (written ++ str) := by
  induction str generalizing buf written with
  | nil => exact .inr ⟨buf, rfl, by rwa [List.append_nil]⟩
  | cons c str ih =>
    rw [List.foldlM_cons]
    rcases @append a _ _ h c with ⟨herr, hnone⟩ | ⟨buf₁, hok, h₁⟩
    · rw [herr]
      exact .inl ⟨rfl, hnone⟩
    · rw [hok]
      rcases ih h₁ with herr | ⟨buf', hok', h'⟩
      · exact .inl herr
      · rw [List.append_assoc, List.singleton_append] at h'
        exact .inr ⟨buf', hok', h'⟩

/-- A line that fits the array of `gen_write` is appended with its newline. -/
theorem writeTo (h : buf.Holds written) {line : List UInt8} (hlen : line.length < 1023)
    (hnul : 0 ∉ line) :
    OutOfMemory a (genWriteTo a buf line) ∨
      ∃ buf', genWriteTo a buf line = .ok buf' ∧ buf'.Holds (written ++ (line ++ bytes "\n")) := by
  have htake : line.take (genBufLen - 1) = line := List.take_of_length_le (Nat.le_of_lt hlen)
  have hshort : line.length + 1 < genBufLen := Nat.succ_lt_succ hlen
  have hstr : (line ++ bytes "\n").takeWhile (· ≠ 0) = line ++ bytes "\n" :=
    takeWhile_nonzero hnul _
  unfold genWriteTo
  simp only [htake, if_pos hshort, bufferAppendStr, hstr]
  exact h.appendAll _

/-- The buffer has room left unless the bytes fill it. -/
theorem lt_cap_iff (h : buf.Holds written) :
    written.length < buf.cap ↔ written ≠ [] ∧ ¬ Full written := by
  rcases h.cap with ⟨hcap, rfl⟩ | ⟨hne, k, hcap, hle, hlt⟩
  · simp [hcap]
  · rw [hcap] at hle ⊢
    constructor
    · intro hroom
      refine ⟨hne, fun ⟨j, hj⟩ => ?_⟩
      rcases Nat.lt_or_ge j k with hjk | hkj
      · have := hlt j hjk
        omega
      · have := Nat.pow_le_pow_right Nat.two_pos hkj
        omega
    · intro ⟨_, hfull⟩
      apply Nat.lt_of_le_of_ne hle
      intro heq
      exact hfull ⟨k, heq⟩

/-- There is a NUL behind the bytes unless they fill the buffer. -/
theorem nul_iff (h : buf.Holds written) :
    buf.items[buf.len]? = some 0 ↔ written ≠ [] ∧ ¬ Full written := by
  rw [← h.lt_cap_iff, h.items, h.len, List.getElem?_append_right (Nat.le_refl _), Nat.sub_self,
    List.getElem?_replicate]
  by_cases hlt : 0 < buf.cap - written.length
  · simp only [if_pos hlt, true_iff]
    omega
  · simp only [if_neg hlt, reduceCtorEq, false_iff]
    omega

theorem readString_eq (h : buf.Holds written) (hnul : 0 ∉ written) :
    readString buf.items =
      if written.length < buf.cap then .ok written
      else .error (.undefined "read behind an array") := by
  rw [readString, h.items]
  by_cases hlt : written.length < buf.cap
  · obtain ⟨n, hn⟩ : ∃ n, buf.cap - written.length = n + 1 :=
      ⟨buf.cap - written.length - 1, by omega⟩
    rw [if_pos hlt, hn, List.replicate_succ, if_pos (by simp), takeWhile_nonzero hnul]
    simp
  · have hnone : buf.cap - written.length = 0 := by omega
    rw [if_neg hlt, hnone, List.replicate_zero, List.append_nil, if_neg hnul]

/-- The bytes that are printed are those that were appended, unless they fill the buffer. -/
theorem printSection_eq (h : buf.Holds written) (hnul : 0 ∉ written) (header : String) :
    (Full written → printSection header buf = .error (.undefined "read behind an array")) ∧
      (¬ Full written → printSection header buf =
        .ok (if written = [] then [] else bytes header ++ written)) := by
  unfold printSection
  by_cases hempty : written = []
  · subst hempty
    have hlen : ¬ buf.len ≠ 0 := not_not_intro h.len
    rw [if_neg hlen, if_pos rfl]
    exact ⟨fun hfull => absurd hfull not_full_nil, fun _ => rfl⟩
  · have hlen : buf.len ≠ 0 := by
      rw [h.len]
      exact mt List.length_eq_zero_iff.mp hempty
    rw [if_pos hlen, if_neg hempty, h.readString_eq hnul]
    constructor
    · intro hfull
      rw [if_neg fun hlt => (h.lt_cap_iff.mp hlt).2 hfull]
      rfl
    · intro hfull
      rw [if_pos (h.lt_cap_iff.mpr ⟨hempty, hfull⟩)]
      rfl

end Buffer.Holds

/-! ## Whole runs -/

/-- The section that a line is written to. -/
inductive Section where
  | data | text
  deriving DecidableEq

namespace GenBuffers

def ofSection (gen : GenBuffers) : Section → Buffer
  | .data => gen.bufData
  | .text => gen.bufText

def setSection (gen : GenBuffers) (buf : Buffer) : Section → GenBuffers
  | .data => { gen with bufData := buf }
  | .text => { gen with bufText := buf }

/-- A call of `gen_write` or `gen_write_data`. -/
def write (a : Allocator) (gen : GenBuffers) (call : Section × List UInt8) :
    Except Failure GenBuffers :=
  match call.1 with
  | .data => gen.genWriteData a call.2
  | .text => gen.genWrite a call.2

theorem write_eq (gen : GenBuffers) (s : Section) (line : List UInt8) :
    gen.write a (s, line) = (gen.setSection · s) <$> genWriteTo a (gen.ofSection s) line := by
  cases s <;> rfl

theorem ofSection_setSection (gen : GenBuffers) (buf : Buffer) (s s' : Section) :
    (gen.setSection buf s).ofSection s' = if s = s' then buf else gen.ofSection s' := by
  cases s <;> cases s' <;> rfl

end GenBuffers

/-- The lines that go to a section, each with its newline. -/
def linesOf (s : Section) (calls : List (Section × List UInt8)) : List UInt8 :=
  calls.flatMap fun call => if call.1 = s then call.2 ++ bytes "\n" else []

/-- A line as `vsnprintf` gives it, short enough to put a newline behind it. -/
def ShortLine (line : List UInt8) : Prop := line.length < 1023 ∧ 0 ∉ line

instance (line : List UInt8) : Decidable (ShortLine line) := inferInstanceAs (Decidable (_ ∧ _))

/-- Each buffer holds the lines of its section. -/
def GenBuffers.Holds (gen : GenBuffers) (calls : List (Section × List UInt8)) : Prop :=
  ∀ s, (gen.ofSection s).Holds (linesOf s calls)

variable {gen : GenBuffers} {calls : List (Section × List UInt8)}

theorem linesOf_append (s : Section) (calls : List (Section × List UInt8))
    (call : Section × List UInt8) :
    linesOf s (calls ++ [call]) =
      linesOf s calls ++ if call.1 = s then call.2 ++ bytes "\n" else [] := by
  simp [linesOf]

theorem nul_not_mem_linesOf (h : ∀ call ∈ calls, ShortLine call.2) (s : Section) :
    0 ∉ linesOf s calls := by
  intro hmem
  obtain ⟨call, hcall, hmem⟩ := List.mem_flatMap.mp hmem
  split at hmem
  · rcases List.mem_append.mp hmem with hmem | hmem
    · exact (h call hcall).2 hmem
    · cases List.mem_singleton.mp hmem
  · cases hmem

/-- One call appends its line to one of the buffers. -/
theorem GenBuffers.Holds.write {call : Section × List UInt8} (h : gen.Holds calls)
    (hcall : ShortLine call.2) :
    OutOfMemory a (gen.write a call) ∨
      ∃ gen', gen.write a call = .ok gen' ∧ gen'.Holds (calls ++ [call]) := by
  obtain ⟨s, line⟩ := call
  rw [GenBuffers.write_eq]
  rcases @Buffer.Holds.writeTo a _ _ (h s) _ hcall.1 hcall.2 with ⟨herr, hnone⟩ | ⟨buf', hok, h'⟩
  · rw [herr]
    exact .inl ⟨rfl, hnone⟩
  · rw [hok]
    refine .inr ⟨_, rfl, fun s' => ?_⟩
    rw [GenBuffers.ofSection_setSection, linesOf_append]
    by_cases hs : s = s'
    · subst hs
      rwa [if_pos rfl, if_pos rfl]
    · rw [if_neg hs, if_neg hs, List.append_nil]
      exact h s'

theorem GenBuffers.Holds.run (h : gen.Holds calls) {more : List (Section × List UInt8)}
    (hmore : ∀ call ∈ more, ShortLine call.2) :
    OutOfMemory a (more.foldlM (GenBuffers.write a) gen) ∨
      ∃ gen', more.foldlM (GenBuffers.write a) gen = .ok gen' ∧ gen'.Holds (calls ++ more) := by
  induction more generalizing gen calls with
  | nil => exact .inr ⟨gen, rfl, by rwa [List.append_nil]⟩
  | cons call more ih =>
    obtain ⟨hcall, hmore⟩ := List.forall_mem_cons.mp hmore
    rw [List.foldlM_cons]
    rcases @GenBuffers.Holds.write a _ _ _ h hcall with ⟨herr, hnone⟩ | ⟨gen₁, hok, h₁⟩
    · rw [herr]
      exact .inl ⟨rfl, hnone⟩
    · rw [hok]
      rcases ih h₁ hmore with herr | ⟨gen', hok', h'⟩
      · exact .inl herr
      · rw [List.append_assoc, List.singleton_append] at h'
        exact .inr ⟨gen', hok', h'⟩

/-- The lines of the data section that are counted as bytes elsewhere arrive in the buffer. -/
theorem Buffer.Holds.genWriteDataBytes {line : DataLine} {written' : List UInt8}
    (h : buf.Holds written) (hnul : 0 ∉ line.format)
    (hok : genWriteDataBytes written line = .ok written') :
    OutOfMemory a (genWriteTo a buf line.format) ∨
      ∃ buf', genWriteTo a buf line.format = .ok buf' ∧ buf'.Holds written' := by
  have hshort : (line.format.take (genBufLen - 1)).length + 1 < genBufLen := by
    by_contra hlong
    have hfail : Seron.genWriteDataBytes written line =
        .error (.undefined "strcat behind the end of buf") := if_neg hlong
    cases hfail.symm.trans hok
  have hlen : line.format.length < 1023 := by
    simp only [List.length_take, genBufLen] at hshort
    omega
  have htake : line.format.take (genBufLen - 1) = line.format :=
    List.take_of_length_le (Nat.le_of_lt hlen)
  have hbytes : Seron.genWriteDataBytes written line =
      .ok (written ++ (line.format.take (genBufLen - 1) ++ bytes "\n")) := if_pos hshort
  rw [htake] at hbytes
  cases hbytes.symm.trans hok
  exact h.writeTo hlen hnul

/-- What the file should hold: both sections, without those that are empty. -/
def fileOf (calls : List (Section × List UInt8)) : List UInt8 :=
  (if linesOf .data calls = [] then [] else bytes "section .data\n" ++ linesOf .data calls) ++
    if linesOf .text calls = [] then [] else bytes "section .text\n" ++ linesOf .text calls

theorem GenBuffers.Holds.genWriteToFile_iff (h : gen.Holds calls)
    (hlines : ∀ call ∈ calls, ShortLine call.2) :
    gen.genWriteToFile = .ok (fileOf calls) ↔ ∀ s, ¬ Full (linesOf s calls) := by
  have hbufData : gen.bufData.Holds (linesOf .data calls) := h .data
  have hbufText : gen.bufText.Holds (linesOf .text calls) := h .text
  obtain ⟨hdata, hdata'⟩ :=
    hbufData.printSection_eq (nul_not_mem_linesOf hlines .data) "section .data\n"
  obtain ⟨htext, htext'⟩ :=
    hbufText.printSection_eq (nul_not_mem_linesOf hlines .text) "section .text\n"
  constructor
  · intro hok s hfull
    obtain ⟨data, hd, hok⟩ := Except.bind_ok.mp hok
    obtain ⟨text, ht, -⟩ := Except.bind_ok.mp hok
    cases s with
    | data => cases (hdata hfull).symm.trans hd
    | text => cases (htext hfull).symm.trans ht
  · intro hfull
    rw [GenBuffers.genWriteToFile, hdata' (hfull .data), htext' (hfull .text)]
    rfl

/-- As long as there is memory, each buffer begins with the lines that were written to it. The
string behind them ends there, and the file holds exactly the lines, unless the lines fill up a
buffer: 50 bytes, or twice that, and so on. -/
theorem buffers_written_iff (a : Allocator) {calls : List (Section × List UInt8)}
    (hlines : ∀ call ∈ calls, ShortLine call.2) :
    OutOfMemory a (calls.foldlM (GenBuffers.write a) {}) ∨
      ∃ gen, calls.foldlM (GenBuffers.write a) {} = .ok gen ∧
        (∀ s, (gen.ofSection s).items.take (gen.ofSection s).len = linesOf s calls ∧
          ((gen.ofSection s).items[(gen.ofSection s).len]? = some 0 ↔
            linesOf s calls ≠ [] ∧ ¬ ∃ k, (linesOf s calls).length = 50 * 2 ^ k)) ∧
        (gen.genWriteToFile = .ok (fileOf calls) ↔
          ∀ s, ¬ ∃ k, (linesOf s calls).length = 50 * 2 ^ k) := by
  have hstart : GenBuffers.Holds {} [] := by
    intro s
    cases s <;> exact Buffer.Holds.empty
  rcases @GenBuffers.Holds.run a _ _ hstart _ hlines with herr | ⟨gen, hok, h⟩
  · exact .inl herr
  · rw [List.nil_append] at h
    exact .inr ⟨gen, hok, fun s => ⟨(h s).take, (h s).nul_iff⟩, h.genWriteToFile_iff hlines⟩

/-- Memory that holds ones where nothing was stored yet. -/
def dirtyMemory : Allocator where
  realloc items cap :=
    if cap < 2 ^ 63 then some (items ++ List.replicate (cap - items.length) 255) else none
  keeps h hle := by
    split at h
    · cases h
      refine ⟨?_, List.prefix_append _ _⟩
      rw [List.length_append, List.length_replicate]
      omega
    · cases h
  bounded h := by
    split at h
    · assumption
    · cases h

/-- Lines for both sections, as they are written for a procedure with a string. -/
def mixedLines : List (Section × List UInt8) :=
  [(.text, bytes "global f"), (.text, bytes "f:"), (.data, (DataLine.label 0).format),
    (.data, (DataLine.db "hi").format), (.text, bytes "mov rax, string_0"), (.text, bytes "ret")]

theorem buffers_written_iff_mixedLines :
    (∀ call ∈ mixedLines, ShortLine call.2) ∧
      ∃ gen, mixedLines.foldlM (GenBuffers.write dirtyMemory) {} = .ok gen ∧
        (∀ s, (gen.ofSection s).items.take (gen.ofSection s).len = linesOf s mixedLines ∧
          (gen.ofSection s).items[(gen.ofSection s).len]? = some 0) ∧
        gen.genWriteToFile = .ok (bytes ("section .data\nstring_0:\ndb \"hi\", 0\n" ++
          "section .text\nglobal f\nf:\nmov rax, string_0\nret\n")) := by
  have hlines : ∀ call ∈ mixedLines, ShortLine call.2 := by decide +kernel
  have hshort (s : Section) : linesOf s mixedLines ≠ [] ∧ (linesOf s mixedLines).length < 50 := by
    cases s <;> decide +kernel
  have hcap (s : Section) : ¬ ∃ k, (linesOf s mixedLines).length = 50 * 2 ^ k := by
    rintro ⟨k, hk⟩
    have hle := Nat.two_pow_pos k
    have hlt := (hshort s).2
    omega
  rcases buffers_written_iff dirtyMemory hlines with ⟨herr, -⟩ | ⟨gen, hok, hbuf, hfile⟩
  · exact absurd herr (by decide +kernel)
  · refine ⟨hlines, gen, hok, fun s => ⟨(hbuf s).1, (hbuf s).2.mpr ⟨(hshort s).1, hcap s⟩⟩, ?_⟩
    rw [hfile.mpr hcap]
    decide +kernel

/-- The two lines for a string literal of 31 characters. -/
def longStringLines : List (Section × List UInt8) :=
  [DataLine.label 0, .db "abcdefghijklmnopqrstuvwxyzabcde"].map fun line =>
    (Section.data, line.format)

/-- They have 50 bytes, and there is no NUL behind them. -/
theorem unterminated_string :
    (∀ call ∈ longStringLines, ShortLine call.2) ∧
      ∃ gen, longStringLines.foldlM (GenBuffers.write dirtyMemory) {} = .ok gen ∧
        gen.bufData.items[gen.bufData.len]? = none ∧
        gen.genWriteToFile = .error (.undefined "read behind an array") := by
  refine ⟨by decide +kernel, { bufData := ⟨50, 50, linesOf .data longStringLines⟩ }, ?_, ?_, ?_⟩
  · decide +kernel
  · decide +kernel
  · decide +kernel

end Seron
