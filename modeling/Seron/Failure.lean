/-! # Ways for the compiler to stop

The passes after parsing do not recover from an error: they print a diagnostic and exit,
panic, or run into behaviour the C standard leaves undefined. -/

namespace Seron

inductive Failure where
  /-- `diagnostic…` followed by `exit(EXIT_FAILURE)`. -/
  | exit (message : String)
  /-- `PANIC`, `NON_NULL` or a failed `assert`. -/
  | panic (message : String)
  /-- Undefined behaviour: a read of memory that holds no such object. -/
  | undefined (what : String)
  /-- The recursion of the model was cut off; no run of the program ends so. -/
  | fuel
  deriving DecidableEq, Repr

variable {ε σ α β : Type}

/-- A sequence succeeds iff both steps do. -/
theorem Except.bind_ok {x : Except ε α} {f : α → Except ε β} {b : β} :
    (x >>= f) = .ok b ↔ ∃ a, x = .ok a ∧ f a = .ok b := by
  simp only [bind, Except.bind]
  cases x <;> simp

/-- A sequence of two stateful steps succeeds iff both succeed, one after the other. -/
theorem StateT.bind_ok {x : StateT σ (Except ε) α} {f : α → StateT σ (Except ε) β}
    {s : σ} {r : β × σ} :
    (x >>= f) s = .ok r ↔ ∃ a s', x s = .ok (a, s') ∧ f a s' = .ok r := by
  simp only [bind, StateT.bind, Except.bind]
  cases x s with
  | error e => simp
  | ok p => exact ⟨fun h => ⟨p.1, p.2, rfl, h⟩, fun ⟨_, _, hp, h⟩ => by cases hp; exact h⟩

theorem StateT.pure_ok {a : α} {s : σ} {r : α × σ} :
    (pure a : StateT σ (Except ε) α) s = .ok r ↔ (a, s) = r :=
  Except.ok.injEq (a, s) r ▸ Iff.rfl

theorem StateT.map_ok {x : StateT σ (Except ε) α} {f : α → β} {s : σ} {r : β × σ} :
    (f <$> x) s = .ok r ↔ ∃ a s', x s = .ok (a, s') ∧ (f a, s') = r := by
  rw [map_eq_pure_bind, StateT.bind_ok]; simp only [StateT.pure_ok]

end Seron
