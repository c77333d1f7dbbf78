import Mathlib.Algebra.GroupWithZero.Nat
import Seron.Failure

/-! # The arena

`lib/arena.h`: the blocks that the compiler allocates are put down in an array, to be freed
together. The sizes of the blocks go to the C library only, and what it returns is an argument. -/

namespace Seron

/-- An address. NULL is 0. -/
abbrev Ptr : Type := Nat

structure Arena where
  size : Nat
  cap : Nat
  /-- The address of the array. -/
  items : Ptr
  /-- All entries that have room in the array. Those from `size` on were never stored. -/
  memory : List Ptr
  deriving DecidableEq, Repr

/-- What the C library returns in a call: the block and, if the array has to grow, its address and
contents. -/
structure Returned where
  ptr : Ptr
  items : Ptr
  memory : List Ptr

def sizeofPtr : Nat := 8

def arenaInit (items : Ptr) (memory : List Ptr) : Arena := { cap := 5, size := 0, items, memory }

/-- The statements that `arena_alloc` and `arena_realloc` share. -/
def Arena.append (r : Returned) (a : Arena) (ptr : Ptr) : Except Failure Arena :=
  let a :=
    if a.size = a.cap then
      { a with cap := a.cap * 2 % 2 ^ 64, items := r.items, memory := r.memory }
    else a
  if a.size < a.memory.length then
    .ok { a with size := a.size + 1, memory := a.memory.set a.size ptr }
  else .error (.undefined "store behind the items")

def arenaAlloc (r : Returned) (a : Arena) : Except Failure (Ptr × Arena) := do
  let ptr := r.ptr
  let a ← a.append r ptr
  pure (ptr, a)

/-- `for (i = 0; i < size; ++i) if (items[i] == ptr) items[i] = NULL;` -/
def arenaRealloc.loop (ptr : Ptr) : Nat → List Ptr → List Ptr
  | size + 1, item :: items => (if item = ptr then 0 else item) :: arenaRealloc.loop ptr size items
  | _, items => items

def arenaRealloc (r : Returned) (a : Arena) (ptr : Ptr) : Except Failure (Ptr × Arena) := do
  let newPtr := r.ptr
  let a ← a.append r newPtr
  pure (newPtr, { a with memory := arenaRealloc.loop ptr a.size a.memory })

/-- The arguments of the calls of `free`, and the arena after them. -/
def arenaFree (a : Arena) : List Ptr × Arena :=
  (a.memory.take a.size ++ [a.items], { a with items := 0, memory := [] })

/-! ## Lists of nodes -/

/-- An `AstNodeList`, without its nodes. -/
structure NodeArray where
  size : Nat
  cap : Nat
  items : Ptr
  deriving DecidableEq, Repr

def astnodelistInit (r : Returned) (a : Arena) : Except Failure (NodeArray × Arena) := do
  let (items, a) ← arenaAlloc r a
  pure ({ cap := 5, size := 0, items }, a)

def astnodelistAppend (r : Returned) (a : Arena) (list : NodeArray) :
    Except Failure (NodeArray × Arena) := do
  if list.size = list.cap then
    let (items, a) ← arenaRealloc r a list.items
    pure ({ cap := list.cap * 2 % 2 ^ 64, items, size := list.size + 1 }, a)
  else pure ({ list with size := list.size + 1 }, a)

end Seron
