import Mathlib.Logic.Relation
import Mathlib.Data.List.Basic

/-! # Code in a text, and runs

Pieces of code that stand at some position of a text, and the runs of a machine that makes one step
after the other until it can make none. -/

namespace Runs

/-! ## Pieces of a text -/

section
variable {α : Type*} {text xs xs' : List α} {x : α} {p : Nat}

/-- The elements of `xs` are those of the text from position `p` on. -/
def At (text : List α) (p : Nat) (xs : List α) : Prop := ∀ i x, xs[i]? = some x → text[p + i]? = some x

theorem At.nil : At text p [] := nofun

theorem at_cons : At text p (x :: xs) ↔ text[p]? = some x ∧ At text (p + 1) xs := by
  constructor
  · intro h
    refine ⟨h 0 x rfl, fun i y hi => ?_⟩
    have := h (i + 1) y hi
    rwa [show p + (i + 1) = p + 1 + i by omega] at this
  · rintro ⟨hhead, htail⟩ i y hi
    cases i with
    | zero =>
      cases hi
      exact hhead
    | succ i =>
      have := htail i y hi
      rwa [show p + 1 + i = p + (i + 1) by omega] at this

theorem at_append : At text p (xs ++ xs') ↔ At text p xs ∧ At text (p + xs.length) xs' := by
  induction xs generalizing p with
  | nil => simp [At.nil]
  | cons x xs ih =>
    simp only [List.cons_append, at_cons, ih, List.length_cons, and_assoc]
    rw [show p + 1 + xs.length = p + (xs.length + 1) by omega]

theorem at_singleton : At text p [x] ↔ text[p]? = some x := by
  rw [at_cons]
  exact and_iff_left At.nil

theorem at_of_eq {before after : List α} (h : text = before ++ (xs ++ after)) :
    At text before.length xs := by
  intro i x hi
  have hlt := (List.getElem?_eq_some_iff.mp hi).1
  rw [h, List.getElem?_append_right (by omega), Nat.add_sub_cancel_left,
    List.getElem?_append_left hlt, hi]

end

/-! ## Runs -/

section
variable {σ : Type*} (step : σ → Option σ)

/-- Some steps lead from the one state to the other. -/
def Reaches : σ → σ → Prop := Relation.ReflTransGen fun s s' => step s = some s'

variable {step} {s s' s'' : σ}

namespace Reaches

theorem refl : Reaches step s s := Relation.ReflTransGen.refl

theorem trans (h : Reaches step s s') (h' : Reaches step s' s'') : Reaches step s s'' :=
  Relation.ReflTransGen.trans h h'

theorem head (h : step s = some s') (h' : Reaches step s' s'') : Reaches step s s'' :=
  Relation.ReflTransGen.head h h'

theorem single (h : step s = some s') : Reaches step s s' := Relation.ReflTransGen.single h

end Reaches

end

end Runs
