import Seron.Machine
import Seron.Theory.Runs

/-! # Programs in memory

The text of a program as the assembler lays it out in memory, and the machine that runs it: with
jumps to local labels, calls that push a return address, and returns that go where it says. -/

namespace Seron

open Memory

/-- Lines that only name what follows: they take no room. -/
def Instr.silent : Instr → Bool
  | .label _ | .global _ | .externDecl _ => true
  | _ => false

/-- The label of a procedure, to which the local labels behind it belong. -/
def Instr.entry : Instr → Bool
  | .label (.proc _) => true
  | _ => false

/-- A text and the addresses of its lines. The one behind the last line is that of the end. -/
structure Image where
  text : List Instr
  addr : Nat → Nat
  symbol : String → BitVec 64
  grows : ∀ i line, text[i]? = some line →
    if line.silent then addr (i + 1) = addr i else addr i < addr (i + 1)
  bounded : addr text.length < 2 ^ 64
  symbol_eq : ∀ i f, text[i]? = some (.label (.proc f)) → symbol f = BitVec.ofNat 64 (addr i)

namespace Image

variable (I : Image)

/-- Straight-line code makes no calls. -/
def env : Env where
  symbol := I.symbol
  call _ _ := none
  call_rsp h := nomatch h
  call_rbp h := nomatch h

/-- The address of a line as a word. -/
def place (i : Nat) : BitVec 64 := BitVec.ofNat 64 (I.addr i)

/-- The first line at an address. -/
def entry (a : BitVec 64) : Option Nat := (List.range (I.text.length + 1)).find? fun i => I.place i = a

/-- The position behind the last procedure label in front of a position. -/
def home (pc : Nat) : Nat := pc - ((I.text.take pc).reverse.takeWhile fun i => !i.entry).length

/-- The line that a jump goes to: a local label of the same procedure. -/
def target (pc : Nat) (l : Label) : Option Nat :=
  (((I.text.drop (I.home pc)).takeWhile fun i => !i.entry).findIdx? (· = .label l)).map
    (I.home pc + ·)

def step : Nat × Machine → Option (Nat × Machine)
  | (pc, m) =>
    match I.text[pc]? with
    | none => none
    | some (.jmp l) => (I.target pc l).map (·, m)
    | some (.je l) =>
      m.flags.bind fun f => if f.zero then (I.target pc l).map (·, m) else some (pc + 1, m)
    | some (.jne l) =>
      m.flags.bind fun f => if f.zero then some (pc + 1, m) else (I.target pc l).map (·, m)
    | some (.call r) => (I.entry (m.reg r)).map (·, m.push (I.place (pc + 1)))
    | some .ret => (I.entry m.top).map (·, m.drop)
    | some i => (exec I.env i m).map (pc + 1, ·)

/-- Some steps of the machine. -/
def Reaches : Nat × Machine → Nat × Machine → Prop := Runs.Reaches I.step

end Image

/-- The text with one byte for each line that takes room, from address 0 on. The symbols that are
no labels of procedures are behind the text. -/
def Image.packed (text : List Instr) (hlen : text.length < 2 ^ 64)
    (hnodup : (text.filter Instr.entry).Nodup) : Image where
  text := text
  addr i := (text.take i).countP fun line => !line.silent
  symbol f := BitVec.ofNat 64
    ((text.takeWhile fun line => line ≠ .label (.proc f)).countP fun line => !line.silent)
  grows i line h := by
    obtain ⟨hi, rfl⟩ := List.getElem?_eq_some_iff.mp h
    rw [← List.take_concat_get' text i hi, List.countP_append, List.countP_singleton]
    cases text[i].silent <;> simp
  bounded := (List.countP_le_length.trans (by simp)).trans_lt hlen
  symbol_eq i f h := by
    suffices htake : text.takeWhile (fun line => line ≠ .label (.proc f)) = text.take i by rw [htake]
    obtain ⟨hi, hline⟩ := List.getElem?_eq_some_iff.mp h
    have hsplit : text = text.take i ++ .label (.proc f) :: text.drop (i + 1) := by
      rw [← hline, List.cons_getElem_drop_succ, List.take_append_drop]
    have hfresh : ∀ line ∈ text.take i, line ≠ .label (.proc f) := by
      rintro line hmem rfl
      rw [hsplit, List.filter_append, List.nodup_append'] at hnodup
      refine hnodup.2.2 (List.mem_filter.mpr ⟨hmem, rfl⟩) ?_
      simp [Instr.entry]
    conv_lhs => rw [hsplit]
    rw [List.takeWhile_append_of_pos (by simpa using hfresh)]
    simp

end Seron
