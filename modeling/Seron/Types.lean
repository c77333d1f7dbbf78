import Seron.Token
import Seron.Failure

/-! # Types

The static types of `types.h`. The tagged union `Type` is an inductive type: a constructor
is a tag together with the payload that goes with it, so reading a payload under another
tag is a case the functions below this file have to name. -/

namespace Seron

/-- The most parameters (or fields) a signature (or table) has room for. -/
def maxParamCount : Nat := 255

inductive TypeKind where
  | invalid | void | char | int | long | pointer | procedure | table | object
  deriving DecidableEq, Repr

mutual

/-- `Type`. The pointee is `none` where the source leaves the pointer NULL. -/
inductive Ty where
  | invalid | void | char | int | long
  | pointer (pointee : Option Ty)
  | procedure (signature : ProcSignature)
  | table (table : Table)
  | object (objectName : String)

/-- A parameter or a field; `params_count` is the length of the list that holds it. -/
structure Param where
  type : Ty
  ident : String
  offset : Int := 0

structure ProcSignature where
  params : List Param
  returntype : Ty

/-- `fields` lists the fields stored so far; `fieldCount` is the counter next to the array. -/
structure Table where
  fields : List Param
  fieldCount : Nat

end

namespace Ty

def kind : Ty → TypeKind
  | invalid => .invalid
  | void => .void
  | char => .char
  | int => .int
  | long => .long
  | pointer _ => .pointer
  | procedure _ => .procedure
  | table _ => .table
  | object _ => .object

end Ty

/-- Under a memory sanitizer a run stops where it reads a component that a type does not have, also
where the compiler goes on with what it finds there. -/
class Sanitizer where
  on : Bool

/-- The compiler runs without one. -/
instance : Sanitizer := ⟨false⟩

@[reducible] def Sanitizer.enabled : Sanitizer := ⟨true⟩

/-- `sig->params[i].type.kind`. The array has room behind the parameters, and from the seventh
argument on nobody looks at the kind. -/
def ProcSignature.paramKind [Sanitizer] (sig : ProcSignature) (i : Nat) : Except Failure TypeKind :=
  match sig.params[i]? with
  | some param => .ok param.type.kind
  | none =>
    if Sanitizer.on = false ∧ 6 ≤ i ∧ i < maxParamCount then .ok .invalid
    else .error (.undefined "sig->params[i]")

theorem ProcSignature.paramKind_of_some [Sanitizer] {sig : ProcSignature} {i : Nat} {param : Param}
    (h : sig.params[i]? = some param) : sig.paramKind i = .ok param.type.kind := by
  rw [paramKind, h]

/-- `*ty.pointee`. The pointee shares its place with the signature, which starts with the type of
its first parameter. -/
def Ty.pointee [Sanitizer] : Ty → Except Failure Ty
  | .pointer (some ty) => .ok ty
  | .pointer none => .error (.undefined "ty.pointee is NULL")
  | .procedure ⟨param :: _, _⟩ =>
    if Sanitizer.on then .error (.undefined "ty.pointee of a type without one") else .ok param.type
  | _ => .error (.undefined "ty.pointee of a type without one")

/-- The bytes a value of the type takes in memory. -/
def typePrimitiveSize : TypeKind → Except Failure Int
  | .procedure | .long | .object | .pointer => .ok 8
  | .int => .ok 4
  | .char => .ok 1
  | .invalid | .void | .table => .error (.panic "invalid type")

/-- Rounds up to the next multiple of 16; a value that is one already still grows. -/
def align16 (i : Int) : Int :=
  let padding := 16 - Int.tmod i 16
  i + padding

def stringifyTypekind : TypeKind → Except Failure String
  | .char => .ok "char"
  | .int => .ok "int"
  | .long => .ok "long"
  | .pointer => .ok "pointer"
  | .void => .ok "void"
  | .procedure => .ok "proc"
  | .invalid | .table | .object => .error (.panic "unknown type")

/-- A size is positive and at most that of a machine word. -/
theorem typePrimitiveSize_bounds {k : TypeKind} {n : Int} (h : typePrimitiveSize k = .ok n) :
    0 < n ∧ n ≤ 8 := by
  cases k <;> simp [typePrimitiveSize] at h <;> omega

/-- Every size is aligned to one 16 byte slot. -/
theorem align16_typePrimitiveSize {k : TypeKind} {n : Int} (h : typePrimitiveSize k = .ok n) :
    align16 n = 16 := by
  have ⟨hpos, hle⟩ := typePrimitiveSize_bounds h
  have hmod : Int.tmod n 16 = n := Int.tmod_eq_of_lt (by omega) (by omega)
  simp only [align16, hmod]
  omega

end Seron
