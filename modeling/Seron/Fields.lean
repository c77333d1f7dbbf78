import Seron.Symboltable

/-! # The fields of a table

The loops that read the fields of a declared table: that of `parser_print_ast` and that of
`type_complex_size`. -/

namespace Seron

/-- `table->fields[i]`. The fields were stored one behind the other up to the counter; what is
below them was never stored. -/
def Table.field (table : Table) (i : Nat) : Except Failure Param :=
  let first := table.fieldCount - table.fields.length
  if maxParamCount ≤ i then .error (.undefined "read behind the fields of a table")
  else if i < first then .error (.undefined "read of a field that was not stored")
  else
    match table.fields[i - first]? with
    | some field => .ok field
    | none => .error (.undefined "read of a field that was not stored")

/-- What `parser_print_ast` prints for the fields. -/
def printFields (table : Table) : Except Failure (List String) :=
  (List.range table.fieldCount).mapM fun i => do
    let sep := if i = table.fieldCount - 1 then "" else ", "
    let field ← table.field i
    pure (field.ident ++ sep)

/-- The loop of `type_complex_size`. -/
def tableSize (table : Table) : Except Failure Int :=
  (List.range table.fieldCount).foldlM (fun size i => do
    let field ← table.field i
    let fieldSize ← typePrimitiveSize field.type.kind
    pure (size + fieldSize)) 0

def typeComplexSize (tables : List Hashtable) (ht : Option Nat) (type : Ty) :
    Except Failure Int :=
  match type with
  | .object name => do
    match ← symboltableLookup tables ht name with
    | none => throw (.panic "symboltable_lookup(ht, type->object_name) is NULL")
    | some sym =>
      match sym.type with
      | .table table => tableSize table
      | _ => throw (.undefined "type without a table")
  | type => typePrimitiveSize type.kind

end Seron
