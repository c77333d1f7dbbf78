import Mathlib

/-! # EBNF grammars

Right-hand sides with options and repetitions, the words a grammar derives from them, and the
languages of its nonterminals as the least solution of its rules. A terminal stands for all letters
of its kind. -/

open Computability

/-- A right-hand side over nonterminals `N` and terminals `T`. -/
inductive Ebnf (N T : Type*) where
  | terminal (t : T)
  | nonterminal (n : N)
  | empty
  | seq (e f : Ebnf N T)
  | alt (e f : Ebnf N T)
  | star (e : Ebnf N T)

namespace Ebnf

variable {N T A : Type*}

def opt (e : Ebnf N T) : Ebnf N T := .alt .empty e

/-- A sequence of several parts. -/
def seqs : List (Ebnf N T) → Ebnf N T
  | [] => .empty
  | [e] => e
  | e :: es => .seq e (seqs es)

/-- One of several parts. -/
def alts : Ebnf N T → List (Ebnf N T) → Ebnf N T
  | e, [] => e
  | e, f :: es => .alt e (alts f es)

/-- At most `n` times. -/
def upTo (e : Ebnf N T) : Nat → Ebnf N T
  | 0 => .empty
  | n + 1 => opt (.seq e (upTo e n))

/-- The letters of a kind, as words. -/
def letter (κ : A → T) (t : T) : Language A := {w | ∃ a, κ a = t ∧ w = [a]}

/-- The words of a right-hand side, given those of the nonterminals. -/
def language (κ : A → T) (I : N → Language A) : Ebnf N T → Language A
  | .terminal t => letter κ t
  | .nonterminal n => I n
  | .empty => 1
  | .seq e f => language κ I e * language κ I f
  | .alt e f => language κ I e + language κ I f
  | .star e => (language κ I e)∗

/-- The words a grammar derives from a right-hand side. -/
inductive Derives (κ : A → T) (G : N → Ebnf N T) : Ebnf N T → List A → Prop
  | terminal {a : A} : Derives κ G (.terminal (κ a)) [a]
  | nonterminal {n : N} {w : List A} : Derives κ G (G n) w → Derives κ G (.nonterminal n) w
  | empty : Derives κ G .empty []
  | seq {e f : Ebnf N T} {v w : List A} : Derives κ G e v → Derives κ G f w →
    Derives κ G (.seq e f) (v ++ w)
  | altLeft {e f : Ebnf N T} {w : List A} : Derives κ G e w → Derives κ G (.alt e f) w
  | altRight {e f : Ebnf N T} {w : List A} : Derives κ G f w → Derives κ G (.alt e f) w
  | starNil {e : Ebnf N T} : Derives κ G (.star e) []
  | starCons {e : Ebnf N T} {v w : List A} : Derives κ G e v → Derives κ G (.star e) w →
    Derives κ G (.star e) (v ++ w)

/-- The words a grammar derives from a nonterminal. -/
def words (κ : A → T) (G : N → Ebnf N T) (n : N) : Language A :=
  {w | Derives κ G (.nonterminal n) w}

variable {κ : A → T} {G : N → Ebnf N T} {I : N → Language A} {e f : Ebnf N T} {w : List A}

theorem mem_letter {a : A} {t : T} (h : κ a = t) : [a] ∈ letter κ t := ⟨a, h, rfl⟩

section
variable {l : Language A} {v : List A}

theorem append_mem_kstar (hv : v ∈ l) (hw : w ∈ l∗) : v ++ w ∈ l∗ := by
  obtain ⟨L, rfl, hL⟩ := Language.mem_kstar.mp hw
  exact Language.mem_kstar.mpr ⟨v :: L, rfl, List.forall_mem_cons.mpr ⟨hv, hL⟩⟩

/-- Induction on the number of repetitions. -/
theorem kstar_induction {P : List A → Prop} (hw : w ∈ l∗) (nil : P [])
    (cons : ∀ v w, v ∈ l → w ∈ l∗ → P w → P (v ++ w)) : P w := by
  obtain ⟨L, rfl, hL⟩ := Language.mem_kstar.mp hw
  clear hw
  induction L with
  | nil => exact nil
  | cons v L ih =>
    obtain ⟨hv, hL⟩ := List.forall_mem_cons.mp hL
    exact cons v _ hv (Language.join_mem_kstar hL) (ih hL)

end

/-! ## The least solution -/

/-- A solution of the rules holds all words that can be derived. -/
theorem Derives.mem_language (hI : ∀ n, (G n).language κ I ≤ I n) (h : Derives κ G e w) :
    w ∈ e.language κ I := by
  induction h with
  | terminal => exact mem_letter rfl
  | nonterminal _ ih => exact hI _ ih
  | empty => exact Language.nil_mem_one
  | seq _ _ ihv ihw => exact Language.append_mem_mul ihv ihw
  | altLeft _ ih => exact .inl ih
  | altRight _ ih => exact .inr ih
  | starNil => exact Language.nil_mem_kstar _
  | starCons _ _ ihv ihw => exact append_mem_kstar ihv ihw

theorem words_le (hI : ∀ n, (G n).language κ I ≤ I n) (n : N) : words κ G n ≤ I n :=
  fun _ h => h.mem_language hI

/-- A right-hand side derives the words it has if the nonterminals have those they derive. -/
theorem derives_of_mem (h : w ∈ e.language κ (words κ G)) : Derives κ G e w := by
  induction e generalizing w with
  | terminal t =>
    obtain ⟨a, rfl, rfl⟩ := h
    exact .terminal
  | nonterminal n => exact h
  | empty =>
    cases (Language.mem_one w).mp h
    exact .empty
  | seq e f ihe ihf =>
    obtain ⟨u, hu, v, hv, rfl⟩ := Language.mem_mul.mp h
    exact .seq (ihe hu) (ihf hv)
  | alt e f ihe ihf => exact h.elim (fun h => .altLeft (ihe h)) fun h => .altRight (ihf h)
  | star e ih => exact kstar_induction h .starNil fun u v hu _ hv => .starCons (ih hu) hv

/-- The languages of the nonterminals solve the rules. -/
theorem mem_words_iff {n : N} : w ∈ words κ G n ↔ w ∈ (G n).language κ (words κ G) := by
  constructor
  · intro h
    cases h with
    | nonterminal h => exact h.mem_language fun n v hv => .nonterminal (derives_of_mem hv)
  · exact fun h => .nonterminal (derives_of_mem h)

/-! ## Bounded repetition -/

theorem nil_mem_upTo {n : Nat} : [] ∈ (upTo e n).language κ I := by
  cases n with
  | zero => exact Language.nil_mem_one
  | succ n => exact .inl Language.nil_mem_one

theorem append_mem_upTo {n : Nat} {v : List A} (hv : v ∈ e.language κ I)
    (hw : w ∈ (upTo e n).language κ I) : v ++ w ∈ (upTo e (n + 1)).language κ I :=
  .inr (Language.append_mem_mul hv hw)

/-- A repetition is a bounded one. -/
theorem exists_mem_upTo (h : w ∈ (star e).language κ I) : ∃ n, w ∈ (upTo e n).language κ I := by
  apply kstar_induction (P := fun w => ∃ n, w ∈ (upTo e n).language κ I) h
  · exact ⟨0, nil_mem_upTo⟩
  · intro v w hv _ hw
    obtain ⟨n, hw⟩ := hw
    exact ⟨n + 1, append_mem_upTo hv hw⟩

theorem mem_star_of_upTo {n : Nat} (h : w ∈ (upTo e n).language κ I) :
    w ∈ (star e).language κ I := by
  induction n generalizing w with
  | zero =>
    cases (Language.mem_one w).mp h
    exact Language.nil_mem_kstar _
  | succ n ih =>
    rcases h with h | ⟨u, hu, v, hv, rfl⟩
    · cases (Language.mem_one w).mp h
      exact Language.nil_mem_kstar _
    · exact append_mem_kstar hu (ih hv)

/-! ## Weights -/

/-- The weight of a word, its letters weighted by their kinds. -/
def weight (κ : A → T) (m : T → Int) (w : List A) : Int := (w.map fun a => m (κ a)).sum

/-- The largest weight of a word, given those of the nonterminals and repetitions that add
nothing. -/
def bound (m : T → Int) (B : N → Int) : Ebnf N T → Int
  | .terminal t => m t
  | .nonterminal n => B n
  | .empty => 0
  | .seq e f => bound m B e + bound m B f
  | .alt e f => max (bound m B e) (bound m B f)
  | .star _ => 0

/-- What is repeated adds nothing. -/
def flat (m : T → Int) (B : N → Int) : Ebnf N T → Bool
  | .terminal _ | .nonterminal _ | .empty => true
  | .seq e f | .alt e f => flat m B e && flat m B f
  | .star e => flat m B e && decide (bound m B e ≤ 0)

theorem weight_append {m : T → Int} {v : List A} :
    weight κ m (v ++ w) = weight κ m v + weight κ m w := by
  simp [weight]

/-- Bounds that hold for the right-hand sides hold for the derived words. -/
theorem Derives.weight_le {m : T → Int} {B : N → Int}
    (hG : ∀ n, (G n).flat m B = true ∧ (G n).bound m B ≤ B n) (h : Derives κ G e w)
    (he : e.flat m B = true) : weight κ m w ≤ e.bound m B := by
  induction h with
  | terminal => simp [weight, bound]
  | nonterminal _ ih => exact (ih (hG _).1).trans (hG _).2
  | empty | starNil => exact Int.le_refl _
  | seq _ _ ihv ihw =>
    obtain ⟨hv, hw⟩ := Bool.and_eq_true_iff.mp he
    rw [weight_append]
    exact Int.add_le_add (ihv hv) (ihw hw)
  | altLeft _ ih => exact (ih (Bool.and_eq_true_iff.mp he).1).trans (le_max_left _ _)
  | altRight _ ih => exact (ih (Bool.and_eq_true_iff.mp he).2).trans (le_max_right _ _)
  | starCons _ _ ihv ihw =>
    obtain ⟨hflat, hbound⟩ := Bool.and_eq_true_iff.mp he
    rw [weight_append]
    exact Int.add_le_add ((ihv hflat).trans (of_decide_eq_true hbound)) (ihw he)

end Ebnf
