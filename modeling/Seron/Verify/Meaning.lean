import Seron.Verify.Comparisons
import Seron.Verify.Parallel

/-! # What programs mean

The meaning of the procedures of a program over whole numbers, as its text says it: names stand for
the values of the innermost declarations, and nothing is said of registers or of the stack.

It is partial. No meaning have assignments (the compiler accepts none of numbers), pointers (`&`,
`*`, arrays, indices, strings), `!`, `/`, `&&`, numbers of type `char` or from 2^31 on, operands of
different types, comparisons whose left operand (for `||` both) does not fit into a byte, a call of
anything but a procedure by its name, a call with arguments of other types than its parameters, and a
procedure that ends without a value of its type. -/

namespace Seron

deriving instance DecidableEq for WordTy

/-- A number of one of the types arithmetic is done at. -/
structure Number where
  type : WordTy
  bits : BitVec type.width.bits
deriving DecidableEq

/-- A comparison has a meaning where the left operand, for `||` both operands, fits into a byte. -/
def BinOpKind.apply {n : Nat} (kind : BinOpKind) (a b : BitVec n) : Option (BitVec n) :=
  match kind.word?, kind.truth? with
  | some f, _ => some (f a b)
  | none, some f =>
    if (kind.leftover a b).toNat < 2 ^ 8 then some (if f a b then 1 else 0) else none
  | none, none => none

namespace Number

def neg (w : Number) : Number := ⟨w.type, -w.bits⟩

def truth (w : Number) : Bool := w.bits != 0

/-- Both operands have the same type. -/
def binop (kind : BinOpKind) : Number → Number → Option Number
  | ⟨.int, a⟩, ⟨.int, b⟩ => (kind.apply a b).map (⟨.int, ·⟩)
  | ⟨.long, a⟩, ⟨.long, b⟩ => (kind.apply a b).map (⟨.long, ·⟩)
  | _, _ => none

theorem binop_eq_some {kind : BinOpKind} {a b c : Number} (h : a.binop kind b = some c) :
    ∃ T x y z, a = ⟨T, x⟩ ∧ b = ⟨T, y⟩ ∧ c = ⟨T, z⟩ ∧ kind.apply x y = some z := by
  obtain ⟨T, x⟩ := a
  obtain ⟨U, y⟩ := b
  cases T <;> cases U <;> simp only [binop, reduceCtorEq] at h <;>
    obtain ⟨z, hz, rfl⟩ := Option.map_eq_some_iff.mp h <;>
    exact ⟨_, x, y, z, rfl, rfl, rfl, hz⟩

end Number

def NumberLiteralType.word? : NumberLiteralType → Option WordTy
  | .any | .int => some .int
  | .long => some .long
  | .char => none

/-- What the procedures of a program return. -/
abbrev Meaning : Type := String → List Number → Option Number

/-- The variables in sight, the innermost ones first, and those of them that have values. -/
abbrev Vars : Type := List (String × Option Number)

/-- What a block declares has no value up to its declaration, and neither has what it hides. -/
def undeclared (stmts : List AstNode) : Vars :=
  (stmts.flatMap AstNode.declared).map fun decl => (decl.1, none)

theorem lookup_undeclared {stmts : List AstNode} (x : String) :
    (undeclared stmts).lookup x =
      ((stmts.flatMap AstNode.declared).lookup x).map fun _ => none := by
  unfold undeclared
  induction stmts.flatMap AstNode.declared with
  | nil => rfl
  | cons decl decls ih =>
    rw [List.map_cons, List.lookup_cons, List.lookup_cons, ih]
    cases x == decl.1 <;> rfl

/-- How a statement ends. -/
inductive Ending where
  | normal (vars : Vars)
  | returned (w : Number)

/-- Behind a block its variables are out of sight. -/
def Ending.leave (vars : Vars) : Ending → Ending
  | .normal _ => .normal vars
  | .returned w => .returned w

section
variable (P : Meaning)

section
variable (vars : Vars)

mutual

/-- Numbers are those that are printed as they are. -/
def evalExpr : AstNode → Option Number
  | .literal op .number =>
    if op.number.toNat < 2 ^ 31 then op.numberType.word?.map fun T => ⟨T, op.number.setWidth _⟩
    else none
  | .literal op .ident => (vars.lookup op.value).join
  | .grouping e => evalExpr e
  | .unaryop e _ .minus => (evalExpr e).map Number.neg
  | .binop lhs rhs _ kind => do
    let a ← evalExpr lhs
    let b ← evalExpr rhs
    a.binop kind b
  | .call _ (.literal op .ident) args => do
    let values ← evalArgs args
    if vars.lookup op.value = none then P op.value values else none
  | _ => none

def evalArgs : List AstNode → Option (List Number)
  | [] => some []
  | arg :: args => do
    let w ← evalExpr arg
    let ws ← evalArgs args
    pure (w :: ws)

end

end

/-- At most the given number of rounds, the condition before each. -/
def evalLoop (condition : Vars → Option Number) (body : Vars → Option Ending) :
    Nat → Vars → Option Ending
  | 0, _ => none
  | rounds + 1, vars => do
    let w ← condition vars
    if w.truth then
      match ← body vars with
      | .normal _ => evalLoop condition body rounds vars
      | .returned w => pure (.returned w)
    else pure (.normal vars)

/-- A round of a `for` loop. What the body declares is out of sight in the step. -/
def evalRound (body : Vars → Option Ending) (step : Vars → Option Number) (vars : Vars) :
    Option Ending := do
  match ← body vars with
  | .normal _ => (step vars).map fun _ => .normal vars
  | .returned w => pure (.returned w)

variable (rounds : Nat)

mutual

def evalStmt : AstNode → Vars → Option Ending
  | .block stmts _, vars => (evalStmts stmts (undeclared stmts ++ vars)).map (·.leave vars)
  | .vardecl _ _ none _ _, vars => some (.normal vars)
  | .vardecl _ ident (some init) _ _, vars =>
    (evalExpr P vars init).map fun w => .normal ((ident.value, some w) :: vars)
  | .if_ _ condition thenBody none, vars => do
    let w ← evalExpr P vars condition
    if w.truth then (evalStmt thenBody vars).map (·.leave vars) else pure (.normal vars)
  | .if_ _ condition thenBody (some elseBody), vars => do
    let w ← evalExpr P vars condition
    if w.truth then (evalStmt thenBody vars).map (·.leave vars)
    else (evalStmt elseBody vars).map (·.leave vars)
  | .while_ _ condition body, vars =>
    evalLoop (fun vars => evalExpr P vars condition) (evalStmt body) rounds vars
  | .for_ _ _ condition step body _ ident init, vars => do
    let outer := (ident.value, none) :: vars
    let w ← evalExpr P outer init
    let round := evalRound (evalStmt body) fun vars => evalExpr P vars step
    (evalLoop (fun vars => evalExpr P vars condition) round rounds
      ((ident.value, some w) :: outer)).map (·.leave vars)
  | .return_ _ (some expr), vars => (evalExpr P vars expr).map .returned
  | .return_ _ none, _ => none
  | expr, vars => (evalExpr P vars expr).map fun _ => .normal vars

def evalStmts : List AstNode → Vars → Option Ending
  | [], vars => some (.normal vars)
  | stmt :: stmts, vars => do
    match ← evalStmt stmt vars with
    | .normal vars => evalStmts stmts vars
    | .returned w => pure (.returned w)

end

end

theorem evalStmt_expr {P : Meaning} {rounds : Nat} {vars : Vars} {e : AstNode}
    (h : Shape .expr e) :
    evalStmt P rounds e vars = (evalExpr P vars e).map fun _ => .normal vars := by
  cases h <;> rw [evalStmt] <;> simp

/-- Only the name of a procedure that no variable hides has a meaning as a callee. -/
theorem evalExpr_call {P : Meaning} {vars : Vars} {op : Token} {callee : AstNode}
    {args : List AstNode} {w : Number} :
    evalExpr P vars (.call op callee args) = some w ↔
      ∃ name ws, callee = .literal name .ident ∧ evalArgs P vars args = some ws ∧
        vars.lookup name.value = none ∧ P name.value ws = some w := by
  constructor
  · intro h
    cases callee with
    | literal name kind =>
      cases kind with
      | ident =>
        obtain ⟨ws, hws, hname⟩ := Option.bind_eq_some_iff.mp h
        obtain ⟨hunknown, hname⟩ := Option.ite_none_right_eq_some.mp hname
        exact ⟨name, ws, rfl, hws, hunknown, hname⟩
      | _ => cases h
    | _ => cases h
  · rintro ⟨name, ws, rfl, hws, hunknown, hname⟩
    rw [evalExpr, hws]
    exact (if_pos hunknown).trans hname

/-- The branch that the condition chooses is run, if there is one. -/
theorem evalStmt_if {P : Meaning} {rounds : Nat} {vars : Vars} {op : Token}
    {condition thenBody : AstNode} {elseBody : Option AstNode} {ending : Ending} :
    evalStmt P rounds (.if_ op condition thenBody elseBody) vars = some ending ↔
      ∃ w, evalExpr P vars condition = some w ∧
        (if w.truth then some thenBody else elseBody).elim (some (.normal vars))
          (fun branch => (evalStmt P rounds branch vars).map (·.leave vars)) = some ending := by
  cases elseBody with
  | none =>
    rw [evalStmt]
    refine Option.bind_eq_some_iff.trans (exists_congr fun w => and_congr_right fun _ => ?_)
    cases w.truth <;> rfl
  | some elseBody =>
    rw [evalStmt]
    refine Option.bind_eq_some_iff.trans (exists_congr fun w => and_congr_right fun _ => ?_)
    cases w.truth <;> rfl

/-- What the name stands for at the top level, if it is a procedure with a body. -/
def AstNode.procNamed? (name : String) (root : AstNode) : Option (ProcSignature × AstNode) :=
  match root.children.find? fun decl => (decl.global.lookup name).isSome with
  | some (.proc _ _ (some body) (.procedure sig) _ _) => some (sig, body)
  | _ => none

/-- The parameters with the values of the arguments, if these are of their types. -/
def bindParams : List Param → List Number → Option Vars
  | [], [] => some []
  | param :: params, w :: ws => do
    let vars ← bindParams params ws
    if param.type.kind = w.type.ty.kind then pure ((param.ident, some w) :: vars) else none
  | _, _ => none

/-- What the procedures of a program return, if no chain of calls is longer than `depth`. Each loop
has as many rounds. -/
def meaning (root : AstNode) : Nat → Meaning
  | 0, _, _ => none
  | depth + 1, name, args => do
    let (sig, body) ← root.procNamed? name
    let vars ← bindParams sig.params args
    match ← evalStmt (meaning root depth) depth body vars with
    | .returned w => if w.type.ty.kind = sig.returntype.kind then pure w else none
    | .normal _ => none

end Seron
