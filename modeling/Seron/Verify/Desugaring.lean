import Seron.Verify.Expansion
import Seron.Verify.Building
import Seron.Verify.Contracts

/-! # Sugar in later passes

`symboltable_build` makes no sugar, and without sugar the panics of the code generator about
sugar are out of reach. -/

namespace Seron

open AstNode

/-- Annotating a tree makes no sugar. -/
theorem sugarFree_buildTo {depth : Nat} {node node' : AstNode} {st st' : Symboltable}
    (h : buildTo depth node st = .ok (node', st')) (hnode : node.SugarFree) : node'.SugarFree :=
  allKinds_buildTo h hnode

/-! ## Programs -/

/-- The expansion ends, no sugar is reachable afterwards, and the code generator does not panic
about sugar. -/
def DesugarsCompletely (root : AstNode) : Prop :=
  ∃ root', expandAst root = .ok root' ∧
    (∀ x ∈ root'.subtrees, x.kind ≠ .for_ ∧ x.kind ≠ .index) ∧
    ∀ root'' st gen, symboltableBuild root' = .ok (root'', st) →
      emit st.tables root'' gen ≠ .error sugarPanic

theorem desugarsCompletely_iff {c : NodeClass} {root : AstNode} (h : Shape c root) :
    DesugarsCompletely root ↔ root.TargetsSugarFree := by
  constructor
  · rintro ⟨root', hexpand, hfree, -⟩
    cases (expandAst_eq h).symm.trans hexpand
    exact (sugarFree_expanded h).mp hfree
  · intro htargets
    have hfree := (sugarFree_expanded h).mpr htargets
    exact ⟨root.expanded, expandAst_eq h, hfree, fun root'' st gen hbuild =>
      emit_ne_sugarPanic (sugarFree_buildTo hbuild hfree)⟩

/-- The expansion of a parsed program is complete iff no assignment has an index expression in its
target. -/
theorem expand_complete_iff {fuel : Nat} {garbage : List Nat} {toks : List Token} {root : AstNode}
    {p : Parser} (h : parse fuel garbage toks = .ok root p) :
    DesugarsCompletely root ↔
      ∀ op value target, .assign op value target ∈ root.subtrees →
        ∀ x ∈ target.subtrees, x.kind ≠ .for_ ∧ x.kind ≠ .index :=
  desugarsCompletely_iff (parse_shape h)

/-- Whether some assignment has an index expression in its target. -/
def indexedTarget (root : AstNode) : Bool :=
  root.subtrees.any fun
    | .assign _ _ target => target.subtrees.any (·.kind = .index)
    | _ => false

theorem not_targetsSugarFree {root : AstNode} (h : indexedTarget root = true) :
    ¬ root.TargetsSugarFree := by
  simp only [indexedTarget, List.any_eq_true] at h
  obtain ⟨x, hx, htest⟩ := h
  cases x
  case assign op value target =>
    simp only [List.any_eq_true, decide_eq_true_eq] at htest
    obtain ⟨y, hy, hindex⟩ := htest
    exact fun hfree => (hfree op value target hx y hy).2 hindex
  all_goals cases htest

/-- `proc f(xs: *int) void { xs[0] = 1; }` -/
def assignToIndex : List Token :=
  [{ kind := .kwProc }, .ident "f", { kind := .lparen }, .ident "xs", { kind := .colon },
    { kind := .asterisk }, { kind := .kwTypeInt }, { kind := .rparen }, { kind := .kwTypeVoid },
    { kind := .lbrace }, .ident "xs", { kind := .lbracket }, .num 0, { kind := .rbracket },
    { kind := .assign }, .num 1, { kind := .semicolon }, { kind := .rbrace }, .eof]

theorem assignToIndex_parses :
    ∃ root p, parse 100 [] assignToIndex = .ok root p ∧ indexedTarget root = true :=
  of_parsesTo (by decide +kernel)

theorem expand_complete_iff_assignToIndex :
    ∃ root p, parse 100 [] assignToIndex = .ok root p ∧
      (DesugarsCompletely root ↔
        ∀ op value target, .assign op value target ∈ root.subtrees →
          ∀ x ∈ target.subtrees, x.kind ≠ .for_ ∧ x.kind ≠ .index) := by
  obtain ⟨root, p, hparse, -⟩ := assignToIndex_parses
  exact ⟨root, p, hparse, expand_complete_iff hparse⟩

/-- The traversal passes by the target of an assignment. -/
theorem expand_incomplete :
    ∃ root p, parse 100 [] assignToIndex = .ok root p ∧ ¬ DesugarsCompletely root := by
  obtain ⟨root, p, hparse, htest⟩ := assignToIndex_parses
  exact ⟨root, p, hparse,
    mt (desugarsCompletely_iff (parse_shape hparse)).mp (not_targetsSugarFree htest)⟩

end Seron
