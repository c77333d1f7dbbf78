import Seron.Codegen.Data
import Seron.Cstring

/-! # The output buffers

`buffer_append` and what is built on it: the text of a program is collected in two arrays of
bytes that grow by doubling, and is printed as two strings. -/

namespace Seron

/-- `realloc` of the C library: the old bytes stay, and behind them is whatever the memory held.
The result is NULL if there is no room; no object is as large as half of the memory. -/
structure Allocator where
  realloc : List UInt8 → Nat → Option (List UInt8)
  keeps {items items' : List UInt8} {cap : Nat} : realloc items cap = some items' →
    items.length ≤ cap → items'.length = cap ∧ items <+: items'
  bounded {items items' : List UInt8} {cap : Nat} : realloc items cap = some items' → cap < 2 ^ 63

/-- `items` are the allocated bytes. -/
structure Buffer where
  cap : Nat := 0
  len : Nat := 0
  items : List UInt8 := []
  deriving DecidableEq

/-- `memset(items + start, 0, count)`. -/
def memset (items : List UInt8) (start count : Nat) : List UInt8 :=
  items.take start ++ (List.replicate count 0 ++ items.drop (start + count))

/-- What `NON_NULL` prints if there is no memory left. -/
def reallocPanic : Failure := .panic "realloc(buf->items, buf->cap) is NULL"

/-- The first statement of `buffer_append`. -/
def bufferGrow (a : Allocator) (buf : Buffer) : Except Failure Buffer :=
  if buf.cap ≤ buf.len then
    let cap := if buf.cap = 0 then 50 else buf.cap * 2 % 2 ^ 64
    match a.realloc buf.items cap with
    | none => .error reallocPanic
    -- zero out the newly allocated region
    | some items => .ok { buf with cap, items := memset items buf.len (cap - buf.len) }
  else .ok buf

def bufferAppend (a : Allocator) (buf : Buffer) (c : UInt8) : Except Failure Buffer := do
  let buf ← bufferGrow a buf
  if buf.len < buf.items.length then
    pure { buf with len := buf.len + 1, items := buf.items.set buf.len c }
  else throw (.undefined "write behind a buffer")

/-- Appends the characters up to the NUL. -/
def bufferAppendStr (a : Allocator) (buf : Buffer) (str : List UInt8) : Except Failure Buffer :=
  (str.takeWhile (· ≠ 0)).foldlM (bufferAppend a) buf

/-- The body of `gen_write` and `gen_write_data`, for a line as its format string gives it. -/
def genWriteTo (a : Allocator) (buf : Buffer) (line : List UInt8) : Except Failure Buffer :=
  let str := line.take (genBufLen - 1)
  if str.length + 1 < genBufLen then bufferAppendStr a buf (str ++ bytes "\n")
  else .error (.undefined "strcat behind the end of buf")

/-- The two buffers of `gen`. -/
structure GenBuffers where
  bufData : Buffer := {}
  bufText : Buffer := {}
  deriving DecidableEq

namespace GenBuffers

def genWrite (a : Allocator) (gen : GenBuffers) (line : List UInt8) :
    Except Failure GenBuffers := do
  let bufText ← genWriteTo a gen.bufText line
  pure { gen with bufText }

def genWriteData (a : Allocator) (gen : GenBuffers) (line : List UInt8) :
    Except Failure GenBuffers := do
  let bufData ← genWriteTo a gen.bufData line
  pure { gen with bufData }

end GenBuffers

/-- A section of the output, if there is something in it. -/
def printSection (header : String) (buf : Buffer) : Except Failure (List UInt8) :=
  if buf.len ≠ 0 then (bytes header ++ ·) <$> readString buf.items else .ok []

/-- `gen_write_to_file`: the bytes that go to the file. -/
def GenBuffers.genWriteToFile (gen : GenBuffers) : Except Failure (List UInt8) := do
  let data ← printSection "section .data\n" gen.bufData
  let text ← printSection "section .text\n" gen.bufText
  pure (data ++ text)

end Seron
