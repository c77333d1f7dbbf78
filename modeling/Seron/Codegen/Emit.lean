import Seron.Codegen.Instr
import Seron.Symboltable

/-! # Code generation

`codegen.c`. Each function of the source takes the emission of its children as arguments, and
`emit` at the end supplies them. -/

namespace Seron

/-- The global `gen`, without the text buffer. -/
structure Gen where
  bufData : List DataLine := []
  labelCount : Nat := 0
  dataCount : Nat := 0
  scope : Option Nat := none

/-- A step of the code generator. Its text is the lines it appends to the text buffer. -/
def Emit (α : Type) : Type := Gen → Except Failure (α × List Instr × Gen)

namespace Emit

variable {α β : Type}

def bind (x : Emit α) (f : α → Emit β) : Emit β := fun gen =>
  match x gen with
  | .error e => .error e
  | .ok (a, text, gen) =>
    match f a gen with
    | .error e => .error e
    | .ok (b, text', gen) => .ok (b, text ++ text', gen)

instance : Monad Emit where
  pure a := fun gen => .ok (a, [], gen)
  bind := bind

instance : MonadLift (Except Failure) Emit where
  monadLift x := fun gen => x.map (·, [], gen)

/-- Two steps succeed iff both do, one after the other; their texts are joined. -/
theorem bind_ok {x : Emit α} {f : α → Emit β} {gen gen' : Gen} {b : β} {text : List Instr} :
    (x >>= f) gen = .ok (b, text, gen') ↔ ∃ a text₁ gen₁ text₂,
      x gen = .ok (a, text₁, gen₁) ∧ f a gen₁ = .ok (b, text₂, gen') ∧ text = text₁ ++ text₂ := by
  show bind x f gen = _ ↔ _
  constructor
  · intro h
    simp only [bind] at h
    split at h
    · cases h
    · rename_i a text₁ gen₁ hx
      split at h
      · cases h
      · rename_i b text₂ gen₂ hf
        cases h
        exact ⟨a, text₁, gen₁, text₂, hx, hf, rfl⟩
  · rintro ⟨a, text₁, gen₁, text₂, hx, hf, rfl⟩
    simp only [bind, hx, hf]

theorem pure_ok {a b : α} {gen gen' : Gen} {text : List Instr} :
    (pure a : Emit α) gen = .ok (b, text, gen') ↔ a = b ∧ text = [] ∧ gen = gen' := by
  show Except.ok (a, [], gen) = _ ↔ _
  simp only [Except.ok.injEq, Prod.mk.injEq, eq_comm (a := ([] : List Instr))]

/-- A step that fails or returns, but writes nothing. -/
theorem lift_bind_ok {x : Except Failure α} {f : α → Emit β} {gen : Gen}
    {r : β × List Instr × Gen} :
    ((liftM x : Emit α) >>= f) gen = .ok r ↔ ∃ a, x = .ok a ∧ f a gen = .ok r := by
  show bind _ f gen = _ ↔ _
  simp only [bind, liftM, monadLift, MonadLift.monadLift]
  cases x with
  | error e => simp [Except.map]
  | ok a =>
    simp only [Except.map, Except.ok.injEq, exists_eq_left']
    cases f a gen with
    | error e => simp
    | ok r' => simp

theorem lift_ok {x : Except Failure α} {a : α} {gen gen' : Gen} {text : List Instr} :
    (liftM x : Emit α) gen = .ok (a, text, gen') ↔ x = .ok a ∧ text = [] ∧ gen' = gen := by
  cases x with
  | error e => simp [liftM, monadLift, MonadLift.monadLift, Except.map]
  | ok b => simp [liftM, monadLift, MonadLift.monadLift, Except.map, eq_comm]

end Emit

def fail {α : Type} (e : Failure) : Emit α := fun _ => .error e

def getGen : Emit Gen := fun gen => .ok (gen, [], gen)

def modifyGen (f : Gen → Gen) : Emit Unit := fun gen => .ok ((), [], f gen)

def genWrite (i : Instr) : Emit Unit := fun gen => .ok ((), [i], gen)

def genWriteData (line : DataLine) : Emit Unit := fun gen =>
  .ok ((), [], { gen with bufData := gen.bufData ++ [line] })

section
variable {gen gen' : Gen} {text : List Instr}

@[simp] theorem fail_ok {α : Type} {e : Failure} {a : α} :
    (fail e : Emit α) gen = .ok (a, text, gen') ↔ False := by
  simp [fail]

theorem getGen_ok {g : Gen} :
    getGen gen = .ok (g, text, gen') ↔ gen = g ∧ text = [] ∧ gen = gen' := by
  simp [getGen, eq_comm (a := ([] : List Instr))]

theorem modifyGen_ok {f : Gen → Gen} {u : Unit} :
    modifyGen f gen = .ok (u, text, gen') ↔ text = [] ∧ f gen = gen' := by
  simp [modifyGen, eq_comm (a := ([] : List Instr))]

theorem genWrite_ok {i : Instr} {u : Unit} :
    genWrite i gen = .ok (u, text, gen') ↔ text = [i] ∧ gen = gen' := by
  simp [genWrite, eq_comm (a := [i])]

/-- A line is written in front of what the rest writes. -/
theorem genWrite_bind_ok {β : Type} {i : Instr} {f : Unit → Emit β} {b : β} :
    (genWrite i >>= f) gen = .ok (b, text, gen') ↔
      ∃ text', f () gen = .ok (b, text', gen') ∧ text = i :: text' := by
  rw [Emit.bind_ok]
  constructor
  · rintro ⟨u, text₁, gen₁, text₂, hw, hf, rfl⟩
    obtain ⟨rfl, rfl⟩ := genWrite_ok.mp hw
    exact ⟨text₂, hf, rfl⟩
  · rintro ⟨text', hf, rfl⟩
    exact ⟨(), [i], gen, text', genWrite_ok.mpr ⟨rfl, rfl⟩, hf, rfl⟩

/-- A last line, in front of the result. -/
theorem genWrite_pure_ok {β : Type} {i : Instr} {b b' : β} :
    (do genWrite i; pure b' : Emit β) gen = .ok (b, text, gen') ↔
      b = b' ∧ text = [i] ∧ gen' = gen := by
  rw [genWrite_bind_ok]
  constructor
  · rintro ⟨t, hp, rfl⟩
    obtain ⟨rfl, rfl, rfl⟩ := Emit.pure_ok.mp hp
    exact ⟨rfl, rfl, rfl⟩
  · rintro ⟨rfl, rfl, rfl⟩
    exact ⟨[], Emit.pure_ok.mpr ⟨rfl, rfl, rfl⟩, rfl⟩

theorem getGen_bind_ok {β : Type} {f : Gen → Emit β} {r : β × List Instr × Gen} :
    (getGen >>= f) gen = .ok r ↔ f gen gen = .ok r := by
  obtain ⟨b, text, gen'⟩ := r
  rw [Emit.bind_ok]
  constructor
  · rintro ⟨g, text₁, gen₁, text₂, hg, hf, rfl⟩
    obtain ⟨rfl, rfl, rfl⟩ := getGen_ok.mp hg
    exact hf
  · intro hf
    exact ⟨gen, [], gen, text, getGen_ok.mpr ⟨rfl, rfl, rfl⟩, hf, rfl⟩

theorem modifyGen_bind_ok {β : Type} {g : Gen → Gen} {f : Unit → Emit β}
    {r : β × List Instr × Gen} :
    (modifyGen g >>= f) gen = .ok r ↔ f () (g gen) = .ok r := by
  obtain ⟨b, text, gen'⟩ := r
  rw [Emit.bind_ok]
  constructor
  · rintro ⟨u, text₁, gen₁, text₂, hg, hf, rfl⟩
    obtain ⟨rfl, rfl⟩ := modifyGen_ok.mp hg
    exact hf
  · intro hf
    exact ⟨(), [], g gen, text, modifyGen_ok.mpr ⟨rfl, rfl⟩, hf, rfl⟩

/-- A step whose result is dropped. -/
theorem discard_bind_ok {α β : Type} {x : Emit α} {f : Unit → Emit β} {b : β} :
    (discard x >>= f) gen = .ok (b, text, gen') ↔ ∃ a text₁ gen₁ text₂,
      x gen = .ok (a, text₁, gen₁) ∧ f () gen₁ = .ok (b, text₂, gen') ∧
        text = text₁ ++ text₂ := by
  have hx : discard x = (x >>= fun _ => pure ()) := rfl
  rw [hx, Emit.bind_ok]
  constructor
  · rintro ⟨u, text₁, gen₁, text₂, hd, hf, rfl⟩
    obtain ⟨a, text₁, gen₂, text₃, ha, hp, rfl⟩ := Emit.bind_ok.mp hd
    obtain ⟨-, rfl, rfl⟩ := Emit.pure_ok.mp hp
    exact ⟨a, text₁, gen₂, text₂, ha, hf, by simp⟩
  · rintro ⟨a, text₁, gen₁, text₂, ha, hf, rfl⟩
    exact ⟨(), text₁, gen₁, text₂,
      Emit.bind_ok.mpr ⟨a, text₁, gen₁, [], ha, Emit.pure_ok.mpr ⟨rfl, rfl, rfl⟩, by simp⟩, hf, rfl⟩

/-- A statement is emitted like what is in front of its type. -/
theorem statement_ok {x : Emit Unit} {ty : Ty} :
    (do x; pure Ty.void : Emit Ty) gen = .ok (ty, text, gen') ↔
      ty = .void ∧ x gen = .ok ((), text, gen') := by
  rw [Emit.bind_ok]
  constructor
  · rintro ⟨u, t₁, gen₁, t₂, hx, hp, rfl⟩
    obtain ⟨rfl, rfl, rfl⟩ := Emit.pure_ok.mp hp
    exact ⟨rfl, by rwa [List.append_nil]⟩
  · rintro ⟨rfl, hx⟩
    exact ⟨(), text, gen', [], hx, Emit.pure_ok.mpr ⟨rfl, rfl, rfl⟩, (List.append_nil _).symm⟩

end

/-- `diagnostic_loc` with the kinds of two types, followed by `exit(EXIT_FAILURE)`. -/
def invalidTypes {α : Type} (message : String) (a b : TypeKind) : Emit α := do
  let a ← stringifyTypekind a
  let b ← stringifyTypekind b
  fail (.exit s!"{message} ({a}, {b})")

section
variable [Sanitizer]

/-- The loop over the arguments of `call`, from argument `i` on. -/
def callArgs (sig : ProcSignature) (i : Nat) : List (Emit Ty) → Emit Unit
  | [] => pure ()
  | arg :: args => do
    let type ← sig.paramKind i
    let reg ← abiRegisterStr (i + 1) type
    discard arg
    match reg with
    | none => genWrite (.push .rax)
    | some reg => genWrite (.mov reg (← subregister .rax type))
    callArgs sig (i + 1) args

def call (callee : Emit Ty) (args : List (Emit Ty)) : Emit Ty := do
  let ty ← callee
  genWrite (.push .rax)
  match ty with
  | .procedure sig =>
    callArgs sig 0 args
    genWrite (.pop .rax)
    genWrite (.call .rax)
    pure sig.returntype
  | _ => fail (.undefined "ty.signature of a type without one")

end

/-- The loop over the parameters of `proc`, from parameter `i` on. -/
def procParams (i : Nat) (offset : Int) : List Param → Emit Unit
  | [] => pure ()
  | param :: params => do
    match ← abiRegisterStr (i + 1) param.type.kind with
    | none =>
      let rax ← subregister .rax param.type.kind
      genWrite (.load rax (.rbp offset))
      genWrite (.store (.rbp (-param.offset)) rax)
      procParams (i + 1) (offset + 8) params
    | some reg =>
      genWrite (.store (.rbp (-param.offset)) reg)
      procParams (i + 1) offset params

def proc (ident : Token) (body : Option (Emit Ty)) (type : Ty) (stackSize : Int) : Emit Unit := do
  match body with
  | none => genWrite (.externDecl ident.value)
  | some body =>
    match type with
    | .procedure sig =>
      genWrite (.global ident.value)
      genWrite (.label (.proc ident.value))
      genWrite .pushRbp
      genWrite .movRbpRsp
      genWrite (.subRsp stackSize)
      procParams 0 16 sig.params
      discard body
      genWrite (.label .return_)
      genWrite .movRspRbp
      genWrite .popRbp
      genWrite .ret
    | _ => fail (.undefined "proc->type.signature")

def return_ (expr : Option (Emit Ty)) : Emit Unit := do
  match expr with
  | some expr => discard expr
  | none => pure ()
  genWrite (.jmp .return_)

def emitSeq : List (Emit Ty) → Emit Unit
  | [] => pure ()
  | stmt :: stmts => do
    discard stmt
    emitSeq stmts

def block (symboltable : Option Nat) (stmts : List (Emit Ty)) : Emit Unit := do
  let oldScope := (← getGen).scope
  modifyGen fun gen => { gen with scope := symboltable }
  emitSeq stmts
  modifyGen fun gen => { gen with scope := oldScope }

/-- The operand of a dereference is a pointer already. -/
def unaryopAddr (node : Emit Ty) : UnaryOpKind → Emit Ty
  | .deref => node
  | _ => fail (.panic "unknown operation")

def unaryop [Sanitizer] (node addr : Emit Ty) : UnaryOpKind → Emit Ty
  | .neg => do
    let ty ← node
    let rax ← subregister .rax ty.kind
    genWrite (.cmpImm rax 0)
    genWrite (.setcc .e rax)
    pure ty
  | .minus => do
    let ty ← node
    genWrite (.imulImm (← subregister .rax ty.kind) (-1))
    pure ty
  | .deref => do
    let ty ← node
    genWrite (.load (← subregister .rax ty.kind) (.reg .rax))
    ty.pointee
  | .addrof => addr

/-- The instructions of an operator on `rax` and `rdi`. -/
def binopInstrs (rax rdi al : SubReg) : BinOpKind → List Instr
  | .add => [.alu .add rax rdi]
  | .sub => [.alu .sub rax rdi]
  | .mul => [.imul rdi]
  | .div => [.idiv rdi]
  | .eq => [.cmp rax rdi, .setcc .e al]
  | .neq => [.cmp rax rdi, .setcc .ne al]
  | .gt => [.cmp rax rdi, .setcc .g al]
  | .gtEq => [.cmp rax rdi, .setcc .ge al]
  | .lt => [.cmp rax rdi, .setcc .l al]
  | .ltEq => [.cmp rax rdi, .setcc .le al]
  | .bitwiseOr => [.alu .or rax rdi]
  | .bitwiseAnd => [.alu .and rax rdi]
  | .logOr => [.alu .or rax rdi, .cmpImm rax 0, .setcc .ne al]
  | .logAnd => [.alu .and rax rdi, .cmpImm rax 0, .setcc .ne al]

/-- Multiplies the integer next to a pointer with the size of what is pointed to. -/
def scalePointer [Sanitizer] (lhs rhs : Ty) : Emit Unit := do
  if lhs.kind = .pointer ∧ rhs.kind ≠ .pointer then
    let reg ← subregister .rdi rhs.kind
    let size ← typePrimitiveSize (← lhs.pointee).kind
    genWrite (.imulImm reg size)
  else if lhs.kind ≠ .pointer ∧ rhs.kind = .pointer then
    let reg ← subregister .rax lhs.kind
    let size ← typePrimitiveSize (← rhs.pointee).kind
    genWrite (.imulImm reg size)
  else if rhs.kind ≠ lhs.kind then
    invalidTypes "Invalid types" rhs.kind lhs.kind
  else pure ()

def genWrites : List Instr → Emit Unit
  | [] => pure ()
  | i :: is => do
    genWrite i
    genWrites is

theorem genWrites_ok {is text : List Instr} {gen gen' : Gen} {u : Unit} :
    genWrites is gen = .ok (u, text, gen') ↔ text = is ∧ gen = gen' := by
  induction is generalizing text with
  | nil => simp [genWrites, Emit.pure_ok]
  | cons i is ih =>
    rw [genWrites, genWrite_bind_ok]
    simp only [ih]
    constructor
    · rintro ⟨text', ⟨rfl, rfl⟩, rfl⟩
      exact ⟨rfl, rfl⟩
    · rintro ⟨rfl, rfl⟩
      exact ⟨is, ⟨rfl, rfl⟩, rfl⟩

def binop [Sanitizer] (lhs rhs : Emit Ty) (kind : BinOpKind) : Emit Ty := do
  let rhs ← rhs
  let rdi ← subregister .rdi rhs.kind
  genWrite (.push .rax)
  let lhs ← lhs
  let rax ← subregister .rax lhs.kind
  genWrite (.pop .rdi)
  let al ← subregister .rax .char
  scalePointer lhs rhs
  genWrites (binopInstrs rax rdi al kind)
  -- if pointer arithmetic was done, the result is a pointer
  pure (if rhs.kind = .pointer then rhs else lhs)

def typeFromTokenLiteral : NumberLiteralType → Ty
  | .char => .char
  | .long => .long
  | .any | .int => .int

def grouping (expr : Emit Ty) : Emit Ty := expr

def cond (condition thenBody : Emit Ty) (elseBody : Option (Emit Ty)) : Emit Unit := do
  let lbl := (← getGen).labelCount
  modifyGen fun gen => { gen with labelCount := gen.labelCount + 1 }
  let ty ← condition
  genWrite (.cmpImm (← subregister .rax ty.kind) 0)
  genWrite (.je (.else_ lbl))
  discard thenBody
  genWrite (.jmp (.end_ lbl))
  genWrite (.label (.else_ lbl))
  match elseBody with
  | some elseBody => discard elseBody
  | none => pure ()
  genWrite (.label (.end_ lbl))

def while_ (condition body : Emit Ty) : Emit Unit := do
  let lbl := (← getGen).labelCount
  modifyGen fun gen => { gen with labelCount := gen.labelCount + 1 }
  genWrite (.jmp (.cond lbl))
  genWrite (.label (.while_ lbl))
  discard body
  genWrite (.label (.cond lbl))
  let ty ← condition
  genWrite (.cmpImm (← subregister .rax ty.kind) 0)
  genWrite (.jne (.while_ lbl))

def vardecl (init : Option (Emit Ty)) (type : Ty) (offset : Int) : Emit Unit := do
  match init with
  | none => pure ()
  | some init =>
    let init ← init
    if type.kind ≠ init.kind then invalidTypes "Invalid type" type.kind init.kind
    else genWrite (.store (.rbp (-offset)) (← subregister .rax init.kind))

def assign (addr value : Emit Ty) : Emit Ty := do
  let target ← addr
  genWrite (.push .rax)
  let ty ← value
  if target.kind ≠ ty.kind then invalidTypes "Invalid type" target.kind ty.kind
  else
    genWrite (.pop .rdi)
    genWrite (.store (.reg .rdi) (← subregister .rax ty.kind))
    pure ty

/-- The loop over the elements of `array`, with `left` elements left. -/
def arrayElems (type : Ty) (offset elemSize : Int) : List (Emit Ty) → Emit Unit
  | [] => pure ()
  | value :: values => do
    discard value
    let left : Int := (value :: values).length
    genWrite (.store (.rbp (-(offset + left * elemSize))) (← subregister .rax type.kind))
    arrayElems type offset elemSize values

def array (values : List (Emit Ty)) (type : Ty) (offset : Int) : Emit Ty := do
  let elemSize ← typePrimitiveSize type.kind
  arrayElems type offset elemSize values
  genWrite (.lea ⟨.rax, .w64⟩ (.rbp (-(offset + values.length * elemSize))))
  pure (.pointer (some type))

section
variable (tables : List Hashtable)

def literalIdent (str : String) (addr : Bool) : Emit Ty := do
  let sym ← symboltableLookup tables (← getGen).scope str
  match sym with
  | none => fail (.exit s!"Symbol `{str}` does not exist in the current scope")
  | some sym =>
    match sym.kind with
    | .table => fail (.exit s!"Symbol `{str}` is a type, not a variable")
    | .parameter | .variable =>
      if addr then
        genWrite (.lea ⟨.rax, .w64⟩ (.rbp (-sym.offset)))
        pure (.pointer (some sym.type))
      else
        genWrite (.load (← subregister .rax sym.type.kind) (.rbp (-sym.offset)))
        pure sym.type
    | .procedure =>
      genWrite (.movSym ⟨.rax, .w64⟩ str)
      pure sym.type
    | .invalid | .none => fail (.panic "invalid symbol")

def literalAddr (op : Token) : LiteralKind → Emit Ty
  | .ident => literalIdent tables op.value true
  | .string | .number => fail (.panic "unknown operation")

/-- A number is printed as an `int`, whatever its type. -/
def literal (op : Token) : LiteralKind → Emit Ty
  | .string => do
    let n := (← getGen).dataCount
    genWriteData (.label n)
    genWriteData (.db op.value)
    genWrite (.movSym ⟨.rax, .w64⟩ s!"string_{n}")
    modifyGen fun gen => { gen with dataCount := gen.dataCount + 1 }
    pure (.pointer none)
  | .number => do
    let ty := typeFromTokenLiteral op.numberType
    genWrite (.movImm (← subregister .rax ty.kind) (op.number.setWidth 32).toInt)
    pure ty
  | .ident => literalIdent tables op.value false

variable [Sanitizer]

mutual

def emit : AstNode → Emit Ty
  | .block stmts symboltable => do
    block symboltable (emits stmts)
    pure .void
  | .while_ _ condition body => do
    while_ (emit condition) (emit body)
    pure .void
  | .proc _ ident body type _ stackSize => do
    proc ident (emitOpt body) type stackSize
    pure .void
  | .return_ _ expr => do
    return_ (emitOpt expr)
    pure .void
  | .vardecl _ _ init type offset => do
    vardecl (emitOpt init) type offset
    pure .void
  | .if_ _ condition thenBody elseBody => do
    cond (emit condition) (emit thenBody) (emitOpt elseBody)
    pure .void
  | .grouping expr => grouping (emit expr)
  | .assign _ value target => assign (emitAddr target) (emit value)
  | .binop lhs rhs _ kind => binop (emit lhs) (emit rhs) kind
  | .call _ callee args => call (emit callee) (emits args)
  | .unaryop node _ kind => unaryop (emit node) (emitAddr node) kind
  | .literal op kind => literal tables op kind
  | .array _ values type offset => array (emits values) type offset
  | .index .. | .for_ .. => fail (.panic "syntactic sugar should have been expanded earlier")
  | .table .. => pure .void

/-- The address of an lvalue. -/
def emitAddr : AstNode → Emit Ty
  | .unaryop node _ kind => unaryopAddr (emit node) kind
  | .literal op kind => literalAddr tables op kind
  | .for_ .. | .index .. => fail (.panic "syntactic sugar should have been expanded earlier")
  | _ => fail (.panic "unknown node kind")

def emits : List AstNode → List (Emit Ty)
  | [] => []
  | node :: nodes => emit node :: emits nodes

def emitOpt : Option AstNode → Option (Emit Ty)
  | none => none
  | some node => some (emit node)

end

/-- The lines of the text section and of the data section. -/
def codegen (root : AstNode) : Except Failure (List Instr × List DataLine) := do
  let (_, text, gen) ← emit tables root {}
  pure (text, gen.bufData)

end

end Seron
