import Mathlib.Data.List.TakeWhile

/-! # Lines

A sequence cut into lines by a separator: where the line of a position starts, how many lines are
before it, and how far the line goes on. A separator ends its line. -/

namespace Lines

variable {α : Type*} [DecidableEq α] (sep : α)

/-- Behind the last separator before the position, or 0 if there is none. -/
def start (xs : List α) : Nat → Nat
  | 0 => 0
  | p + 1 => if xs[p]? = some sep then p + 1 else start xs p

/-- The number of separators before the position. -/
def before (xs : List α) (p : Nat) : Nat := (xs.take p).count sep

/-- The first separator from the position on, or the end. -/
def stop (xs : List α) (p : Nat) : Nat := p + ((xs.drop p).takeWhile (· ≠ sep)).length

variable {sep} {xs : List α} {p q i : Nat}

theorem start_le (p : Nat) : start sep xs p ≤ p := by
  induction p with
  | zero => exact Nat.le_refl 0
  | succ p ih =>
    rw [start]
    split
    · exact Nat.le_refl _
    · exact Nat.le_succ_of_le ih

/-- A line starts at the front or behind a separator. -/
theorem start_eq_zero_or (p : Nat) :
    start sep xs p = 0 ∨ ∃ i, start sep xs p = i + 1 ∧ xs[i]? = some sep := by
  induction p with
  | zero => exact .inl rfl
  | succ p ih =>
    rw [start]
    split
    · rename_i hsep
      exact .inr ⟨p, rfl, hsep⟩
    · exact ih

/-- Between the start of the line and the position there is no separator. -/
theorem ne_sep_of_start_le (hi : start sep xs p ≤ i) (hip : i < p) : xs[i]? ≠ some sep := by
  induction p with
  | zero => cases hip
  | succ p ih =>
    rw [start] at hi
    split at hi
    · omega
    · rename_i hsep
      rcases Nat.lt_succ_iff_lt_or_eq.mp hip with hip | rfl
      · exact ih hi hip
      · exact hsep

/-- These properties say where the line starts. -/
theorem start_eq_iff {s : Nat} : start sep xs p = s ↔
    s ≤ p ∧ (s = 0 ∨ ∃ i, s = i + 1 ∧ xs[i]? = some sep) ∧
      ∀ i, s ≤ i → i < p → xs[i]? ≠ some sep := by
  constructor
  · rintro rfl
    exact ⟨start_le p, start_eq_zero_or p, fun i => ne_sep_of_start_le⟩
  · intro ⟨hle, hs, hfree⟩
    rcases Nat.lt_trichotomy (start sep xs p) s with hlt | heq | hgt
    · rcases hs with rfl | ⟨i, rfl, hsep⟩
      · omega
      · exact absurd hsep (@ne_sep_of_start_le _ _ sep xs p i (by omega) (by omega))
    · exact heq
    · rcases @start_eq_zero_or _ _ sep xs p with hzero | ⟨i, hi, hsep⟩
      · omega
      · have := @start_le _ _ sep xs p
        exact absurd hsep (hfree i (by omega) (by omega))

/-- The position has no line before its own iff there is no separator before it. -/
theorem start_eq_zero : start sep xs p = 0 ↔ sep ∉ xs.take p := by
  rw [start_eq_iff]
  constructor
  · intro ⟨_, _, hfree⟩ hmem
    obtain ⟨i, hi⟩ := List.mem_iff_getElem?.mp hmem
    rw [List.getElem?_take] at hi
    split at hi
    · rename_i hip
      exact hfree i (Nat.zero_le i) hip hi
    · cases hi
  · intro hmem
    refine ⟨Nat.zero_le p, .inl rfl, fun i _ hip hi => hmem ?_⟩
    apply List.mem_iff_getElem?.mpr
    exact ⟨i, by rw [List.getElem?_take, if_pos hip, hi]⟩

/-- Positions behind the end belong to the line of the end. -/
theorem start_of_length_le (h : xs.length ≤ p) : start sep xs p = start sep xs xs.length := by
  induction p with
  | zero => rw [Nat.le_zero.mp h]
  | succ p ih =>
    rcases Nat.le_succ_iff.mp h with h | h
    · rw [start, List.getElem?_eq_none h, if_neg nofun, ih h]
    · rw [h]

theorem start_min (p : Nat) : start sep xs (min p xs.length) = start sep xs p := by
  rcases Nat.le_total p xs.length with h | h
  · rw [Nat.min_eq_left h]
  · rw [Nat.min_eq_right h, start_of_length_le h]

theorem before_succ_of_sep (h : xs[p]? = some sep) :
    before sep xs (p + 1) = before sep xs p + 1 := by
  rw [before, List.take_add_one, h, List.count_append]
  exact congrArg _ List.count_singleton_self

theorem before_succ_of_ne (h : xs[p]? ≠ some sep) :
    before sep xs (p + 1) = before sep xs p := by
  rw [before, List.take_add_one, List.count_append]
  cases hx : xs[p]? with
  | none => rfl
  | some x =>
    have hne : x ≠ sep := fun heq => h (by rw [hx, heq])
    exact congrArg _ (List.count_singleton.trans (if_neg fun heq => hne (eq_of_beq heq)))

theorem before_mono (h : p ≤ q) : before sep xs p ≤ before sep xs q :=
  (List.take_sublist_take_left h).count_le sep

theorem before_of_length_le (h : xs.length ≤ p) :
    before sep xs p = before sep xs xs.length := by
  rw [before, before, List.take_of_length_le h, List.take_length]

theorem before_min (p : Nat) : before sep xs (min p xs.length) = before sep xs p := by
  rcases Nat.le_total p xs.length with h | h
  · rw [Nat.min_eq_left h]
  · rw [Nat.min_eq_right h, before_of_length_le h]

/-! ## The end of a line -/

theorem le_stop (p : Nat) : p ≤ stop sep xs p := Nat.le_add_right ..

theorem stop_le (h : p ≤ xs.length) : stop sep xs p ≤ xs.length := by
  have := (List.takeWhile_prefix (p := (· ≠ sep)) (l := xs.drop p)).length_le
  rw [List.length_drop] at this
  unfold stop
  omega

theorem stop_of_sep (h : xs[p]? = some sep) : stop sep xs p = p := by
  obtain ⟨hp, h⟩ := List.getElem?_eq_some_iff.mp h
  rw [stop, List.drop_eq_getElem_cons hp, h, List.takeWhile_cons_of_neg (by simp)]
  rfl

theorem stop_of_ne {x : α} (h : xs[p]? = some x) (hx : x ≠ sep) :
    stop sep xs p = stop sep xs (p + 1) := by
  obtain ⟨hp, h⟩ := List.getElem?_eq_some_iff.mp h
  rw [stop, stop, List.drop_eq_getElem_cons hp, h, List.takeWhile_cons_of_pos (by simpa using hx),
    List.length_cons]
  omega

theorem stop_of_length_le (h : xs.length ≤ p) : stop sep xs p = p := by
  rw [stop, List.drop_eq_nil_of_le h]
  rfl

/-- All positions of a line agree on where it ends. -/
theorem stop_start (h : p ≤ xs.length) : stop sep xs (start sep xs p) = stop sep xs p := by
  induction p with
  | zero => rfl
  | succ p ih =>
    rw [start]
    split
    · rfl
    · rename_i hsep
      rw [ih (Nat.le_of_succ_le h)]
      exact stop_of_ne (List.getElem?_eq_getElem h) fun heq =>
        hsep (by rw [List.getElem?_eq_getElem h, heq])

/-- A line ends before the end iff there is a separator from the position on. -/
theorem stop_lt_iff : stop sep xs p < xs.length ↔ sep ∈ xs.drop p := by
  have hfront := List.takeWhile_prefix (p := (· ≠ sep)) (l := xs.drop p)
  have hlen := hfront.length_le
  have hself : sep ∉ xs.drop p ↔ (xs.drop p).takeWhile (· ≠ sep) = xs.drop p := by
    rw [List.takeWhile_eq_self_iff]
    simp only [decide_eq_true_eq]
    exact ⟨fun h x hx heq => h (heq ▸ hx), fun h hmem => h sep hmem rfl⟩
  have hdrop := List.length_drop (i := p) (l := xs)
  rw [← not_iff_not, hself, stop]
  constructor
  · intro hle
    exact hfront.eq_of_length (by omega)
  · intro heq
    rw [heq]
    omega

end Lines
