import Mathlib.Data.List.Basic
import Mathlib.Data.List.Nodup

/-! # Structured control flow and jumps

Structured programs over leaf statements and conditions, their lowering to a list of lines with
labels and jumps. What a leaf statement does is left open: it is the run of some straight-line
code. -/

namespace ControlFlow

/-! ## Structured programs -/

inductive Stmt (α : Type*) where
  | skip
  | leaf (a : α)
  | seq (s t : Stmt α)
  | ite (c : α) (s t : Stmt α)
  | loop (c : α) (s : Stmt α)
  | ret

/-- How a statement ends; `running` if it did not end within the given number of rounds. -/
inductive Outcome (α σ : Type*) where
  | normal (s : σ)
  | returned (s : σ)
  | stuck (a : α)
  | running

/-- What leaf statements and conditions do to a state. -/
structure Atoms (α σ : Type*) where
  act : α → σ → Option σ
  test : α → σ → Option (Bool × σ)

section
variable {α β σ : Type*}

/-- What was performed, and the end. -/
abbrev Result (α σ : Type*) : Type _ := List α × Outcome α σ

/-- Goes on where the first statement ended normally. -/
def Result.andThen : Result α σ → (σ → Result α σ) → Result α σ
  | (t, .normal s), f => (t ++ (f s).1, (f s).2)
  | r, _ => r

namespace Atoms

variable (A : Atoms α σ)

def evalLeaf (a : α) (s : σ) : Result α σ :=
  match A.act a s with
  | some s => ([a], .normal s)
  | none => ([], .stuck a)

theorem evalLeaf_some {A : Atoms α σ} {a : α} {s s' : σ} (h : A.act a s = some s') :
    A.evalLeaf a s = ([a], .normal s') := by
  simp [evalLeaf, h]

theorem evalLeaf_none {A : Atoms α σ} {a : α} {s : σ} (h : A.act a s = none) :
    A.evalLeaf a s = ([], .stuck a) := by
  simp [evalLeaf, h]

/-- Evaluates a condition and goes on with one of two continuations. -/
def evalTest (c : α) (f : Bool → σ → Result α σ) (s : σ) : Result α σ :=
  match A.test c s with
  | some (b, s) => Result.andThen ([c], .normal s) (f b)
  | none => ([], .stuck c)

theorem evalTest_some {A : Atoms α σ} {c : α} {f : Bool → σ → Result α σ} {b : Bool} {s s' : σ}
    (h : A.test c s = some (b, s')) : A.evalTest c f s = (c :: (f b s').1, (f b s').2) := by
  simp [evalTest, h, Result.andThen]

theorem evalTest_none {A : Atoms α σ} {c : α} {f : Bool → σ → Result α σ} {s : σ}
    (h : A.test c s = none) : A.evalTest c f s = ([], .stuck c) := by
  simp [evalTest, h]

/-- At most the given number of rounds, the condition before each. -/
def evalLoop (c : α) (body : σ → Result α σ) : Nat → σ → Result α σ
  | 0, _ => ([], .running)
  | n + 1, s => A.evalTest c (fun b s =>
      if b then (body s).andThen (evalLoop c body n) else ([], .normal s)) s

/-- The meaning of structured programs. -/
def eval (fuel : Nat) : Stmt α → σ → Result α σ
  | .skip, s => ([], .normal s)
  | .leaf a, s => A.evalLeaf a s
  | .seq s₁ s₂, s => (eval fuel s₁ s).andThen (eval fuel s₂)
  | .ite c s₁ s₂, s =>
    A.evalTest c (fun b s => if b then eval fuel s₁ s else eval fuel s₂ s) s
  | .loop c s₁, s => A.evalLoop c (eval fuel s₁) fuel s
  | .ret, s => ([], .returned s)

/-- The rounds of a counting loop: the condition before each of them, the step after each that ends
normally. -/
def evalRounds (c step : α) (body : σ → Result α σ) : Nat → σ → Result α σ
  | 0, _ => ([], .running)
  | n + 1, s => A.evalTest c (fun b s =>
      if b then (body s).andThen fun s => (A.evalLeaf step s).andThen (evalRounds c step body n)
      else ([], .normal s)) s

/-- A counting loop: the first statement once, then the rounds. -/
def evalFor (init c step : α) (body : σ → Result α σ) (fuel : Nat) (s : σ) : Result α σ :=
  (A.evalLeaf init s).andThen (A.evalRounds c step body fuel)

end Atoms

/-! ## Counting loops -/

namespace Result

variable {f g : σ → Result α σ}

theorem andThen_assoc (r : Result α σ) :
    (r.andThen f).andThen g = r.andThen fun s => (f s).andThen g := by
  obtain ⟨t, o⟩ := r
  cases o with
  | normal s =>
    simp only [andThen]
    rcases f s with ⟨t', o'⟩
    cases o' <;> simp
  | _ => rfl

theorem andThen_normal (r : Result α σ) : (r.andThen fun s => ([], .normal s)) = r := by
  obtain ⟨t, o⟩ := r
  cases o <;> simp [andThen]

end Result

/-- Some statements, and a leaf behind them. -/
inductive Stmt.FollowedBy (a : α) : Stmt α → Stmt α → Prop
  | nil : FollowedBy a .skip (.seq (.leaf a) .skip)
  | cons {t body s : Stmt α} : FollowedBy a body s → FollowedBy a (.seq t body) (.seq t s)

namespace Atoms

variable {A : Atoms α σ} {fuel : Nat} {init c step : α} {body s : Stmt α}

theorem eval_followedBy (h : s.FollowedBy step body) (m : σ) :
    A.eval fuel body m = (A.eval fuel s m).andThen (A.evalLeaf step) := by
  induction h generalizing m with
  | nil => exact Result.andThen_normal (A.evalLeaf step m)
  | cons _ ih =>
    rw [eval, eval, Result.andThen_assoc]
    congr 1
    exact funext ih

theorem evalLoop_eq_evalRounds (h : ∀ m, A.eval fuel body m =
    (A.eval fuel s m).andThen (A.evalLeaf step)) (n : Nat) (m : σ) :
    A.evalLoop c (A.eval fuel body) n m = A.evalRounds c step (A.eval fuel s) n m := by
  induction n generalizing m with
  | zero => rfl
  | succ n ih =>
    rw [evalLoop, evalRounds]
    congr 1
    funext b m
    rw [h, Result.andThen_assoc, funext ih]

/-- A `while` whose body ends with the step, behind the first statement, is a counting loop. -/
theorem eval_for (h : s.FollowedBy step body) (m : σ) :
    A.eval fuel (.seq (.leaf init) (.seq (.loop c body) .skip)) m =
      A.evalFor init c step (A.eval fuel s) fuel m := by
  rw [eval, evalFor, eval]
  congr 1
  funext m
  rw [eval, eval, funext (evalLoop_eq_evalRounds (eval_followedBy h) fuel)]
  exact Result.andThen_normal _

end Atoms

end

/-! ## Lines -/

inductive Line (ι Λ : Type*) where
  | instr (i : ι)
  | label (l : Λ)
  | jmp (l : Λ)
  /-- Jumps if the zero flag is set. -/
  | jz (l : Λ)
  | jnz (l : Λ)
  deriving DecidableEq

inductive Mark where
  | else_ | end_ | while_ | cond
  deriving DecidableEq, Repr

/-- A machine, the names of the labels, and the code of leaf statements and conditions. -/
structure Backend (α ι Λ σ : Type*) where
  exec : ι → σ → Option σ
  zero : σ → Option Bool
  name : Mark → Nat → Λ
  exit : Λ
  code : α → List ι
  test : α → σ → Option (Bool × σ)
  name_inj : ∀ {k k' n n'}, name k n = name k' n' → k = k' ∧ n = n'
  exit_ne : ∀ {k n}, name k n ≠ exit
  /-- The code of a condition leaves the zero flag set iff the condition does not hold. -/
  test_eq : ∀ {c s b s'}, test c s = some (b, s') ↔
    (code c).foldlM (fun s i => exec i s) s = some s' ∧ zero s' = some !b

section
variable {ι Λ : Type*}

/-- The labels among some lines. -/
def labels (L : List (Line ι Λ)) : List Λ :=
  L.filterMap fun
    | .label l => some l
    | _ => none

/-- The straight-line instruction a step performs, by its position. -/
def performed (L : List (Line ι Λ)) (pc : Nat) : List Nat :=
  match L[pc]? with
  | some (.instr _) => [pc]
  | _ => []

theorem performed_eq (L : List (Line ι Λ)) (pc : Nat) :
    performed L pc = [] ∨ performed L pc = [pc] := by
  unfold performed
  split
  · exact .inr rfl
  · exact .inl rfl

/-- The lines from some position on. -/
def Segment (L : List (Line ι Λ)) : Nat → List (Line ι Λ) → Prop
  | _, [] => True
  | p, line :: lines => L[p]? = some line ∧ Segment L (p + 1) lines

variable {L : List (Line ι Λ)}

theorem segment_append {p : Nat} {l l' : List (Line ι Λ)} :
    Segment L p (l ++ l') ↔ Segment L p l ∧ Segment L (p + l.length) l' := by
  induction l generalizing p with
  | nil => simp [Segment]
  | cons line l ih =>
    simp only [List.cons_append, Segment, ih, List.length_cons, and_assoc]
    rw [show p + 1 + l.length = p + (l.length + 1) by omega]

theorem segment_of_eq {l l' lines : List (Line ι Λ)} (h : L = l ++ (lines ++ l')) :
    Segment L l.length lines := by
  induction lines generalizing l with
  | nil => trivial
  | cons line lines ih =>
    refine ⟨by simp [h], ?_⟩
    simpa using @ih (l ++ [line]) (by simp [h])

theorem mem_labels {p : Nat} {l : Λ} (h : L[p]? = some (.label l)) : l ∈ labels L :=
  List.mem_filterMap.mpr ⟨.label l, List.mem_of_getElem? h, rfl⟩

section
variable {l : Λ} {ls ls' : List (Line ι Λ)}

@[simp] theorem labels_nil : labels ([] : List (Line ι Λ)) = [] := rfl

@[simp] theorem labels_label : labels (.label l :: ls) = l :: labels ls := rfl

@[simp] theorem labels_jmp : labels (.jmp l :: ls) = labels ls := rfl

@[simp] theorem labels_jz : labels (.jz l :: ls) = labels ls := rfl

@[simp] theorem labels_jnz : labels (.jnz l :: ls) = labels ls := rfl

@[simp] theorem labels_append : labels (ls ++ ls') = labels ls ++ labels ls' :=
  List.filterMap_append

@[simp] theorem labels_code (is : List ι) : labels (is.map .instr : List (Line ι Λ)) = [] := by
  simp [labels, List.filterMap_map]

end

/-- The labels that some lines jump to. -/
def jumps (L : List (Line ι Λ)) : List Λ :=
  L.filterMap fun
    | .jmp l | .jz l | .jnz l => some l
    | _ => none

section
variable {l : Λ} {ls ls' : List (Line ι Λ)}

@[simp] theorem jumps_nil : jumps ([] : List (Line ι Λ)) = [] := rfl

@[simp] theorem jumps_label : jumps (.label l :: ls) = jumps ls := rfl

@[simp] theorem jumps_jmp : jumps (.jmp l :: ls) = l :: jumps ls := rfl

@[simp] theorem jumps_jz : jumps (.jz l :: ls) = l :: jumps ls := rfl

@[simp] theorem jumps_jnz : jumps (.jnz l :: ls) = l :: jumps ls := rfl

@[simp] theorem jumps_append : jumps (ls ++ ls') = jumps ls ++ jumps ls' :=
  List.filterMap_append

@[simp] theorem jumps_code (is : List ι) : jumps (is.map .instr : List (Line ι Λ)) = [] := by
  simp [jumps, List.filterMap_map]

end

/-- The position of a label. -/
def target [DecidableEq Λ] (L : List (Line ι Λ)) (l : Λ) : Option Nat :=
  L.findIdx? fun
    | .label l' => l' = l
    | _ => false

/-- A jump to a label that occurs once goes to the label. -/
theorem target_eq [DecidableEq Λ] {p : Nat} {l : Λ} (h : L[p]? = some (.label l))
    (hnodup : (labels L).Nodup) : target L l = some p := by
  induction L generalizing p with
  | nil => simp at h
  | cons line L ih =>
    rw [target, List.findIdx?_cons]
    cases p with
    | zero =>
      obtain rfl : line = .label l := by simpa using h
      simp
    | succ p =>
      have h : L[p]? = some (.label l) := by simpa using h
      have hnodup' : (labels L).Nodup := by
        cases line <;> simp_all [labels]
      have hne : line ≠ .label l := by
        rintro rfl
        exact (List.nodup_cons.mp (show (l :: labels L).Nodup from hnodup)).1 (mem_labels h)
      have hrest := ih h hnodup'
      rw [target] at hrest
      rw [hrest]
      cases line <;> simp_all

end

namespace Backend

variable {α ι Λ σ : Type*} (B : Backend α ι Λ σ)

/-- A leaf statement runs its code. -/
def act (a : α) (s : σ) : Option σ := (B.code a).foldlM (fun s i => B.exec i s) s

/-- The number of labels a statement takes. -/
def labelCount : Stmt α → Nat
  | .skip | .leaf _ | .ret => 0
  | .seq s t => labelCount s + labelCount t
  | .ite _ s t => 1 + labelCount s + labelCount t
  | .loop _ s => 1 + labelCount s

/-- The lines of a statement, with labels numbered from `n` on. -/
def lower : Stmt α → Nat → List (Line ι Λ)
  | .skip, _ => []
  | .leaf a, _ => (B.code a).map .instr
  | .seq s t, n => lower s n ++ lower t (n + labelCount s)
  | .ite c s t, n =>
    (B.code c).map .instr ++ .jz (B.name .else_ n) ::
      (lower s (n + 1) ++ .jmp (B.name .end_ n) :: .label (B.name .else_ n) ::
        (lower t (n + 1 + labelCount s) ++ [.label (B.name .end_ n)]))
  | .loop c s, n =>
    .jmp (B.name .cond n) :: .label (B.name .while_ n) ::
      (lower s (n + 1) ++ .label (B.name .cond n) ::
        ((B.code c).map .instr ++ [.jnz (B.name .while_ n)]))
  | .ret, _ => [.jmp B.exit]

/-! ## Layout -/

/-- The number of lines of a statement. -/
def size : Stmt α → Nat
  | .skip => 0
  | .leaf a => (B.code a).length
  | .seq s t => size s + size t
  | .ite c s t => (B.code c).length + 1 + size s + 2 + size t + 1
  | .loop c s => 2 + size s + 1 + (B.code c).length + 1
  | .ret => 1

/-- Notes at each leaf statement and condition where its code starts, if the lines of the statement
start at `p`. -/
def place (p : Nat) : Stmt α → Stmt (Nat × α)
  | .skip => .skip
  | .leaf a => .leaf (p, a)
  | .seq s t => .seq (place p s) (place (p + size B s) t)
  | .ite c s t =>
    .ite (p, c) (place (p + (B.code c).length + 1) s)
      (place (p + (B.code c).length + 1 + size B s + 2) t)
  | .loop c s => .loop (p + 2 + size B s + 1, c) (place (p + 2) s)
  | .ret => .ret

/-- What is performed does not depend on where it is. -/
def placedAtoms : Atoms (Nat × α) σ := ⟨fun a => B.act a.2, fun a => B.test a.2⟩

/-- The positions of the instructions of what is performed. -/
def positions (t : List (Nat × α)) : List Nat :=
  t.flatMap fun a => List.range' a.1 (B.code a.2).length

variable {B}

theorem length_lower (s : Stmt α) (n : Nat) : (B.lower s n).length = B.size s := by
  induction s generalizing n with
  | skip | ret => rfl
  | leaf a => simp [lower, size]
  | seq s t ihs iht => simp [lower, size, ihs, iht]
  | ite c s t ihs iht =>
    simp [lower, size, ihs, iht]
    omega
  | loop c s ih =>
    simp [lower, size, ih]
    omega

theorem positions_append (t t' : List (Nat × α)) :
    B.positions (t ++ t') = B.positions t ++ B.positions t' :=
  List.flatMap_append

theorem positions_singleton (p : Nat) (a : α) :
    B.positions [(p, a)] = List.range' p (B.code a).length := by
  simp [positions]

theorem place_followedBy {a : α} {s s' : Stmt α} (h : s.FollowedBy a s') (p : Nat) :
    ∃ q, (B.place p s).FollowedBy (q, a) (B.place p s') := by
  induction h generalizing p with
  | nil => exact ⟨p, .nil⟩
  | cons _ ih =>
    obtain ⟨q, h⟩ := ih _
    exact ⟨q, .cons h⟩

/-- A counting loop is still one when it is placed. -/
theorem eval_place_for {init c step : α} {s body : Stmt α} (h : s.FollowedBy step body) (p : Nat) :
    ∃ pc ps pb, ∀ fuel m,
      B.placedAtoms.eval fuel (B.place p (.seq (.leaf init) (.seq (.loop c body) .skip))) m =
        B.placedAtoms.evalFor (p, init) (pc, c) (ps, step)
          (B.placedAtoms.eval fuel (B.place pb s)) fuel m := by
  obtain ⟨ps, hplace⟩ := place_followedBy (B := B) h (p + B.size (.leaf init) + 2)
  exact ⟨_, ps, _, fun fuel m => Atoms.eval_for hplace m⟩

/-! ## Parts of a statement -/

variable (B) in
/-- The parts of a statement, with the positions of their lines and the numbers of their labels. -/
inductive Part : Nat → Nat → Stmt α → Nat → Nat → Stmt α → Prop
  | refl {p n : Nat} {s : Stmt α} : Part p n s p n s
  | seqLeft {p n p' n' : Nat} {s t s' : Stmt α} : Part p n s p' n' s' →
    Part p n (.seq s t) p' n' s'
  | seqRight {p n p' n' : Nat} {s t s' : Stmt α} :
    Part (p + B.size s) (n + labelCount s) t p' n' s' → Part p n (.seq s t) p' n' s'
  | thenBody {p n p' n' : Nat} {a : α} {s t s' : Stmt α} :
    Part (p + (B.code a).length + 1) (n + 1) s p' n' s' → Part p n (.ite a s t) p' n' s'
  | elseBody {p n p' n' : Nat} {a : α} {s t s' : Stmt α} :
    Part (p + (B.code a).length + 1 + B.size s + 2) (n + 1 + labelCount s) t p' n' s' →
    Part p n (.ite a s t) p' n' s'
  | body {p n p' n' : Nat} {a : α} {s s' : Stmt α} :
    Part (p + 2) (n + 1) s p' n' s' → Part p n (.loop a s) p' n' s'

theorem Part.segment {p n p' n' : Nat} {s s' : Stmt α} (h : B.Part p n s p' n' s')
    (hseg : Segment L p (B.lower s n)) : Segment L p' (B.lower s' n') := by
  induction h with
  | refl => exact hseg
  | seqLeft _ ih => exact ih (segment_append.mp hseg).1
  | seqRight _ ih => exact ih (by simpa only [length_lower] using (segment_append.mp hseg).2)
  | thenBody _ ih =>
    simp only [lower, segment_append, Segment, List.length_map, length_lower] at hseg
    exact ih hseg.2.2.1
  | elseBody _ ih =>
    simp only [lower, segment_append, Segment, List.length_map, length_lower] at hseg
    exact ih hseg.2.2.2.2.2.1
  | body _ ih =>
    simp only [lower, segment_append, Segment, List.length_map, length_lower] at hseg
    exact ih hseg.2.2.1

/-! ## Fresh labels -/

theorem mem_labels_lower {s : Stmt α} {n : Nat} {l : Λ} (h : l ∈ labels (B.lower s n)) :
    ∃ k m, l = B.name k m ∧ n ≤ m ∧ m < n + labelCount s := by
  induction s generalizing n with
  | skip | ret => simp [lower] at h
  | leaf a => simp [lower] at h
  | seq s t ihs iht =>
    rw [labelCount]
    rcases List.mem_append.mp (labels_append ▸ h) with h | h
    · obtain ⟨k, m, hl, hn, hm⟩ := ihs h
      exact ⟨k, m, hl, hn, by omega⟩
    · obtain ⟨k, m, hl, hn, hm⟩ := iht h
      exact ⟨k, m, hl, by omega, by omega⟩
  | ite a s t ihs iht =>
    rw [labelCount]
    simp only [lower, labels_append, labels_code, labels_jz, labels_jmp, labels_label, labels_nil,
      List.nil_append, List.mem_append, List.mem_cons, List.not_mem_nil, or_false] at h
    rcases h with h | h | h | h
    · obtain ⟨k, m, hl, hn, hm⟩ := ihs h
      exact ⟨k, m, hl, by omega, by omega⟩
    · exact ⟨_, n, h, by omega, by omega⟩
    · obtain ⟨k, m, hl, hn, hm⟩ := iht h
      exact ⟨k, m, hl, by omega, by omega⟩
    · exact ⟨_, n, h, by omega, by omega⟩
  | loop a s ih =>
    rw [labelCount]
    simp only [lower, labels_append, labels_code, labels_jnz, labels_jmp, labels_label, labels_nil,
      List.nil_append, List.mem_append, List.mem_cons, List.not_mem_nil, or_false] at h
    rcases h with h | h | h
    · exact ⟨_, n, h, by omega, by omega⟩
    · obtain ⟨k, m, hl, hn, hm⟩ := ih h
      exact ⟨k, m, hl, by omega, by omega⟩
    · exact ⟨_, n, h, by omega, by omega⟩

/-- A label with another number. -/
theorem name_notMem_lower {s : Stmt α} {k : Mark} {n m : Nat} (h : m < n ∨ n + labelCount s ≤ m) :
    B.name k m ∉ labels (B.lower s n) := by
  intro hmem
  obtain ⟨k', m', hname, hn, hm⟩ := mem_labels_lower hmem
  have := (B.name_inj hname).2
  omega

theorem exit_notMem_lower {s : Stmt α} {n : Nat} : B.exit ∉ labels (B.lower s n) := by
  intro hmem
  obtain ⟨k, m, hname, -⟩ := mem_labels_lower hmem
  exact B.exit_ne hname.symm

theorem disjoint_labels_lower {s t : Stmt α} {n m : Nat} (h : n + labelCount s ≤ m) :
    (labels (B.lower s n)).Disjoint (labels (B.lower t m)) := by
  intro l hs ht
  obtain ⟨k, i, rfl, -, hi⟩ := mem_labels_lower hs
  exact name_notMem_lower (.inl (by omega)) ht

theorem nodup_labels_lower {s : Stmt α} {n : Nat} : (labels (B.lower s n)).Nodup := by
  induction s generalizing n with
  | skip | ret => simp [lower]
  | leaf a => simp [lower]
  | seq s t ihs iht =>
    rw [lower, labels_append]
    exact List.nodup_append'.mpr ⟨ihs, iht, disjoint_labels_lower (Nat.le_refl _)⟩
  | ite a s t ihs iht =>
    have hne : B.name .else_ n ≠ B.name .end_ n := fun h => nomatch (B.name_inj h).1
    have hdisj := disjoint_labels_lower (B := B) (s := s) (t := t) (Nat.le_refl (n + 1 + _))
    have hfresh (k : Mark) : B.name k n ∉ labels (B.lower t (n + 1 + labelCount s)) :=
      name_notMem_lower (.inl (by omega))
    simp [lower, List.nodup_append', ihs, iht, hne, name_notMem_lower, hdisj, hfresh]
  | loop a s ih =>
    have hne : B.name .while_ n ≠ B.name .cond n := fun h => nomatch (B.name_inj h).1
    simp [lower, List.nodup_append', ih, hne, name_notMem_lower]

/-- A jump of a statement leaves it through the exit or goes to one of its own labels. -/
theorem mem_jumps_lower {s : Stmt α} {n : Nat} {l : Λ} (h : l ∈ jumps (B.lower s n)) :
    l = B.exit ∨ l ∈ labels (B.lower s n) := by
  induction s generalizing n with
  | skip => cases h
  | leaf a => simp [lower] at h
  | ret => exact .inl (by simpa [lower] using h)
  | seq s t ihs iht =>
    rw [lower, labels_append, List.mem_append]
    rcases List.mem_append.mp (jumps_append ▸ h) with h | h
    · exact (ihs h).imp_right .inl
    · exact (iht h).imp_right .inr
  | ite a s t ihs iht =>
    simp only [lower, jumps_append, jumps_code, jumps_jz, jumps_jmp, jumps_label, jumps_nil,
      List.nil_append, List.append_nil, List.mem_append, List.mem_cons] at h
    simp only [lower, labels_append, labels_code, labels_jz, labels_jmp, labels_label, labels_nil,
      List.nil_append, List.mem_append, List.mem_cons, List.not_mem_nil, or_false]
    rcases h with h | h | h | h
    · exact .inr (.inr (.inl h))
    · exact (ihs h).imp_right .inl
    · exact .inr (.inr (.inr (.inr h)))
    · exact (iht h).imp_right fun h => .inr (.inr (.inl h))
  | loop a s ih =>
    simp only [lower, jumps_append, jumps_code, jumps_jnz, jumps_jmp, jumps_label, jumps_nil,
      List.nil_append, List.mem_append, List.mem_cons, List.not_mem_nil, or_false] at h
    simp only [lower, labels_append, labels_code, labels_jnz, labels_jmp, labels_label, labels_nil,
      List.nil_append, List.mem_append, List.mem_cons, List.not_mem_nil, or_false]
    rcases h with h | h | h
    · exact .inr (.inr (.inr h))
    · exact (ih h).imp_right fun h => .inr (.inl h)
    · exact .inr (.inl h)

end Backend

end ControlFlow
