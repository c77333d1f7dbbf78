import Mathlib.Logic.Relation
import Seron.Theory.Simulation

/-! # Levels of a counter

A counter that each instruction moves by a fixed amount has the same value at each position of the
lines, in whatever way the position was reached, if all jumps stay on one level. -/

namespace ControlFlow

variable {α ι Λ σ : Type*} [DecidableEq Λ] {B : Backend α ι Λ σ} {L : List (Line ι Λ)}
  {pc q : Nat} {s s' : σ} {l : Λ}

theorem getElem?_target (h : target L l = some q) : L[q]? = some (.label l) := by
  obtain ⟨hq, htest, -⟩ := List.findIdx?_eq_some_iff_getElem.mp h
  rw [List.getElem?_eq_getElem hq]
  cases hline : L[q] <;> simp_all

/-- The line jumps to the label, always or under a condition. -/
def Line.JumpsTo (line : Line ι Λ) (l : Λ) : Prop := line = .jmp l ∨ line = .jz l ∨ line = .jnz l

namespace Backend

/-- The machine gets from one configuration to another one. -/
def Reaches (B : Backend α ι Λ σ) (L : List (Line ι Λ)) : Nat × σ → Nat × σ → Prop :=
  Relation.ReflTransGen fun c c' => B.step L c = some c'

/-- A step performs an instruction, goes on to the next line, or jumps to a label. -/
theorem step_cases (h : B.step L (pc, s) = some (q, s')) :
    (∃ i, L[pc]? = some (.instr i) ∧ B.exec i s = some s' ∧ q = pc + 1) ∨
      s' = s ∧ q = pc + 1 ∧ (∃ line, L[pc]? = some line ∧ ∀ i, line ≠ .instr i) ∨
      s' = s ∧ ∃ line l, L[pc]? = some line ∧ line.JumpsTo l ∧ L[q]? = some (.label l) := by
  have jump {l : Λ} (h : (target L l).map (·, s) = some (q, s')) :
      s' = s ∧ L[q]? = some (.label l) := by
    obtain ⟨p, hp, heq⟩ := Option.map_eq_some_iff.mp h
    cases heq
    exact ⟨rfl, getElem?_target hp⟩
  unfold step at h
  cases hline : L[pc]? with
  | none => simp [hline] at h
  | some line =>
    simp only [hline] at h
    cases line with
    | instr i =>
      obtain ⟨s₁, hexec, heq⟩ := Option.map_eq_some_iff.mp h
      cases heq
      exact .inl ⟨i, rfl, hexec, rfl⟩
    | label l =>
      cases h
      exact .inr (.inl ⟨rfl, rfl, _, rfl, by simp⟩)
    | jmp l =>
      obtain ⟨hs, hq⟩ := jump h
      exact .inr (.inr ⟨hs, _, l, rfl, .inl rfl, hq⟩)
    | jz l =>
      obtain ⟨z, -, hz⟩ := Option.bind_eq_some_iff.mp h
      split at hz
      · obtain ⟨hs, hq⟩ := jump hz
        exact .inr (.inr ⟨hs, _, l, rfl, .inr (.inl rfl), hq⟩)
      · cases hz
        exact .inr (.inl ⟨rfl, rfl, _, rfl, by simp⟩)
    | jnz l =>
      obtain ⟨z, -, hz⟩ := Option.bind_eq_some_iff.mp h
      split at hz
      · cases hz
        exact .inr (.inl ⟨rfl, rfl, _, rfl, by simp⟩)
      · obtain ⟨hs, hq⟩ := jump hz
        exact .inr (.inr ⟨hs, _, l, rfl, .inr (.inr rfl), hq⟩)

/-- A counter keeps to the levels of the positions in front of `stop`, if no step leads back from
behind it. -/
theorem Reaches.level {counter : σ → Int} {level : Nat → Int} {stop : Nat}
    (hinstr : ∀ pc i s s', pc + 1 < stop → L[pc]? = some (.instr i) → B.exec i s = some s' →
      counter s' + level pc = counter s + level (pc + 1))
    (hnext : ∀ pc line, pc + 1 < stop → L[pc]? = some line → (∀ i, line ≠ .instr i) →
      level (pc + 1) = level pc)
    (hjump : ∀ pc q line l, pc < stop → q < stop → L[pc]? = some line → line.JumpsTo l →
      L[q]? = some (.label l) → level q = level pc)
    (hstop : ∀ pc s q s', stop ≤ pc → B.step L (pc, s) = some (q, s') → stop ≤ q)
    (h : B.Reaches L (pc, s) (q, s')) (hq : q < stop) :
    counter s' + level pc = counter s + level q := by
  generalize hc : (pc, s) = c at h
  generalize hc' : (q, s') = c' at h
  induction h generalizing q s' with
  | refl =>
    cases hc
    cases hc'
    omega
  | @tail c₁ c₂ _ hstep ih =>
    obtain ⟨pc₁, s₁⟩ := c₁
    cases hc'
    have hpc₁ : pc₁ < stop := by
      by_contra hge
      have := hstop pc₁ s₁ q s' (by omega) hstep
      omega
    have ih := ih hpc₁ rfl
    rcases step_cases hstep with ⟨i, hline, hexec, rfl⟩ | ⟨rfl, rfl, line, hline, hne⟩ |
        ⟨rfl, line, l, hline, hjumps, hlabel⟩
    · have := hinstr pc₁ i s₁ s' hq hline hexec
      omega
    · have := hnext pc₁ line hq hline hne
      omega
    · have := hjump pc₁ q line l hpc₁ hq hline hjumps hlabel
      omega

end Backend

end ControlFlow
