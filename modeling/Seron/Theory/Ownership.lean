import Mathlib.Data.Finset.Basic

/-! # Ownership of exchangeable things

Things are taken, and exchanged for others. A keeper is told of what is taken, and of what is given
in exchange before it forgets what was given up. Where a thing is exchanged for itself, it forgets
a thing that is still there. -/

namespace Ownership

variable {α : Type*}

inductive Act (α : Type*) where
  | take (p : α)
  | exchange (p q : α)
  deriving DecidableEq

/-- What is there after an act that was not there, or is there again. -/
def Act.result : Act α → α
  | .take p => p
  | .exchange _ q => q

/-- A thing is exchanged for itself. -/
def Act.InPlace (act : Act α) : Prop := ∃ p, act = .exchange p p

theorem Act.not_inPlace_take (p : α) : ¬ (Act.take p).InPlace := nofun

theorem Act.inPlace_exchange {p q : α} : (Act.exchange p q).InPlace ↔ p = q := by
  constructor
  · intro ⟨r, h⟩
    obtain ⟨rfl, rfl⟩ := Act.exchange.inj h
    rfl
  · rintro rfl
    exact ⟨p, rfl⟩

/-- The last act that resulted in a thing exchanged it for itself. -/
def LastInPlace (acts : List (Act α)) (p : α) : Prop :=
  ∃ before after, acts = before ++ .exchange p p :: after ∧ ∀ act ∈ after, act.result ≠ p

variable [DecidableEq α]

/-- What is there after an act. -/
def Act.live (live : Finset α) : Act α → Finset α
  | .take p => insert p live
  | .exchange p q => insert q (live.erase p)

/-- What the keeper has after an act. -/
def Act.kept (kept : Finset α) : Act α → Finset α
  | .take p => insert p kept
  | .exchange p q => (insert q kept).erase p

/-- Only what is there can be exchanged, and nothing that is there can be had again. -/
def Act.Allowed (live : Finset α) : Act α → Prop
  | .take p => p ∉ live
  | .exchange p q => p ∈ live ∧ (q = p ∨ q ∉ live)

/-- A run from nothing: what is there, and what the keeper has. -/
inductive Run : List (Act α) → Finset α → Finset α → Prop
  | nil : Run [] ∅ ∅
  | snoc {acts : List (Act α)} {live kept : Finset α} {act : Act α} : Run acts live kept →
    act.Allowed live → Run (acts ++ [act]) (act.live live) (act.kept kept)

variable {acts : List (Act α)} {act : Act α} {live kept : Finset α} {p : α}

omit [DecidableEq α] in
theorem lastInPlace_snoc : LastInPlace (acts ++ [act]) p ↔
    act = .exchange p p ∨ act.result ≠ p ∧ LastInPlace acts p := by
  constructor
  · intro ⟨before, after, h, hafter⟩
    rcases List.eq_nil_or_concat after with rfl | ⟨after, last, rfl⟩
    · rw [List.append_singleton_inj] at h
      exact .inl h.2
    · rw [List.concat_eq_append, ← List.cons_append, ← List.append_assoc,
        List.append_singleton_inj] at h
      obtain ⟨rfl, rfl⟩ := h
      simp only [List.concat_eq_append, List.forall_mem_append, List.forall_mem_singleton] at hafter
      exact .inr ⟨hafter.2, before, after, rfl, hafter.1⟩
  · rintro (rfl | ⟨hne, before, after, rfl, hafter⟩)
    · exact ⟨acts, [], rfl, List.forall_mem_nil _⟩
    · refine ⟨before, after ++ [act], by simp, ?_⟩
      simp only [List.forall_mem_append, List.forall_mem_singleton]
      exact ⟨hafter, hne⟩

/-- One act: the keeper has what is there, except for what was last exchanged for itself. -/
theorem Act.mem_kept_iff (hallowed : act.Allowed live)
    (h : ∀ p ∈ live, p ∈ kept ↔ ¬ LastInPlace acts p) :
    ∀ p ∈ act.live live, p ∈ act.kept kept ↔ ¬ LastInPlace (acts ++ [act]) p := by
  intro p hp
  rw [lastInPlace_snoc]
  cases act with
  | take q =>
    simp only [Act.live, Act.kept, Act.result, Finset.mem_insert] at hp ⊢
    by_cases heq : p = q
    · simp [heq]
    · have hold := h p (hp.resolve_left heq)
      simp [heq, Ne.symm heq, hold]
  | exchange q r =>
    simp only [Act.live, Act.kept, Act.result, Finset.mem_insert, Finset.mem_erase] at hp ⊢
    obtain ⟨hq, hr⟩ := hallowed
    by_cases heq : p = r
    · subst heq
      by_cases hsame : p = q
      · simp [hsame]
      · simp [hsame, Ne.symm hsame]
    · obtain ⟨hne, hmem⟩ := hp.resolve_left heq
      have hold := h p hmem
      have hact : Act.exchange q r ≠ .exchange p p := fun hact =>
        heq (Act.exchange.inj hact).2.symm
      simp [heq, Ne.symm heq, hne, hact, hold]

theorem Act.result_mem_live (act : Act α) (live : Finset α) : act.result ∈ act.live live := by
  cases act with
  | take p => exact Finset.mem_insert_self p live
  | exchange p q => exact Finset.mem_insert_self q _

theorem Act.kept_subset (h : kept ⊆ live) : act.kept kept ⊆ act.live live := by
  cases act with
  | take q => exact Finset.insert_subset_insert q h
  | exchange q r =>
    intro p hp
    obtain ⟨hne, hp⟩ := Finset.mem_erase.mp hp
    rcases Finset.mem_insert.mp hp with rfl | hp
    · exact Finset.mem_insert_self ..
    · exact Finset.mem_insert_of_mem (Finset.mem_erase.mpr ⟨hne, h hp⟩)

theorem Run.kept_subset (h : Run acts live kept) : kept ⊆ live := by
  induction h with
  | nil => exact Finset.Subset.refl ∅
  | snoc _ _ ih => exact Act.kept_subset ih

theorem Run.mem_kept_iff (h : Run acts live kept) :
    ∀ p ∈ live, p ∈ kept ↔ ¬ LastInPlace acts p := by
  induction h with
  | nil => exact fun p hp => absurd hp (Finset.notMem_empty p)
  | snoc _ hallowed ih => exact Act.mem_kept_iff hallowed ih

/-- The keeper has everything iff nothing that is there was last exchanged for itself. -/
theorem Run.kept_eq_iff (h : Run acts live kept) :
    kept = live ↔ ∀ p ∈ live, ¬ LastInPlace acts p := by
  constructor
  · intro heq p hp
    exact (h.mem_kept_iff p hp).mp (heq ▸ hp)
  · intro hlast
    apply Finset.Subset.antisymm h.kept_subset
    exact fun p hp => (h.mem_kept_iff p hp).mpr (hlast p hp)

omit [DecidableEq α] in
/-- Without an exchange in place, nothing was last exchanged for itself. -/
theorem not_lastInPlace (h : ∀ act ∈ acts, ¬ act.InPlace) : ¬ LastInPlace acts p := by
  rintro ⟨before, after, rfl, -⟩
  exact h (.exchange p p) (by simp) ⟨p, rfl⟩

end Ownership
