import Seron.Theory.ControlFlow

/-! # Jumps simulate structured control flow

The machine that runs lines with labels and jumps, and the proof that the lines of a structured
statement perform the same leaf statements and conditions as the statement, in the same order. -/

namespace ControlFlow.Backend

/-! ## The machine -/

variable {α ι Λ σ : Type*} {B : Backend α ι Λ σ} [DecidableEq Λ]

variable (B) in
/-- One step of the machine, which knows nothing of statements. -/
def step (L : List (Line ι Λ)) : Nat × σ → Option (Nat × σ)
  | (pc, s) =>
    match L[pc]? with
    | none => none
    | some (.instr i) => (B.exec i s).map (pc + 1, ·)
    | some (.label _) => some (pc + 1, s)
    | some (.jmp l) => (target L l).map (·, s)
    | some (.jz l) =>
      (B.zero s).bind fun z => if z then (target L l).map (·, s) else some (pc + 1, s)
    | some (.jnz l) =>
      (B.zero s).bind fun z => if z then some (pc + 1, s) else (target L l).map (·, s)

/-! ## Runs inside a part of the lines -/

variable (B) in
/-- Runs of `n` steps from positions in `[lo, hi)`, none of them to the exit; with the positions of
the straight-line instructions they perform. -/
inductive Inside (L : List (Line ι Λ)) (lo hi : Nat) :
    Nat → Nat × σ → List Nat → Nat × σ → Prop
  | refl {c : Nat × σ} : Inside L lo hi 0 c [] c
  | step {n : Nat} {c c' c'' : Nat × σ} {t : List Nat} : lo ≤ c.1 → c.1 < hi →
    L[c.1]? ≠ some (.jmp B.exit) → B.step L c = some c' → Inside L lo hi n c' t c'' →
    Inside L lo hi (n + 1) c (performed L c.1 ++ t) c''

variable {L : List (Line ι Λ)} {lo hi n m : Nat} {c c' c'' : Nat × σ} {t t' : List Nat}

namespace Inside

theorem trans (h : B.Inside L lo hi n c t c') (h' : B.Inside L lo hi m c' t' c'') :
    B.Inside L lo hi (n + m) c (t ++ t') c'' := by
  induction h with
  | refl => rwa [Nat.zero_add, List.nil_append]
  | step hlo hhi hexit hstep _ ih =>
    rw [Nat.add_right_comm, List.append_assoc]
    exact .step hlo hhi hexit hstep (ih h')

theorem single (hlo : lo ≤ c.1) (hhi : c.1 < hi) (hexit : L[c.1]? ≠ some (.jmp B.exit))
    (hstep : B.step L c = some c') : B.Inside L lo hi 1 c (performed L c.1) c' := by
  simpa using Inside.step hlo hhi hexit hstep .refl

/-- The machine is deterministic: of two runs one goes on where the other one ends. -/
theorem split (h : B.Inside L lo hi n c t c') (h' : B.Inside L lo hi m c t' c'') (hnm : n ≤ m) :
    ∃ u, B.Inside L lo hi (m - n) c' u c'' ∧ t' = t ++ u := by
  induction h generalizing m t' with
  | refl => exact ⟨t', h', rfl⟩
  | step hlo hhi hexit hstep _ ih =>
    cases h' with
    | refl => omega
    | step _ _ _ hstep' h' =>
      cases hstep.symm.trans hstep'
      obtain ⟨u, hu, rfl⟩ := ih h' (by omega)
      exact ⟨u, by rwa [Nat.add_sub_add_right], by rw [List.append_assoc]⟩

/-- A run can be stopped after a part of what it performs. -/
theorem cut (h : B.Inside L lo hi n c (t ++ t') c') : ∃ m c'', B.Inside L lo hi m c t c'' := by
  generalize htt : t ++ t' = tt at h
  induction h generalizing t with
  | refl =>
    obtain ⟨rfl, -⟩ := List.append_eq_nil_iff.mp htt
    exact ⟨0, _, .refl⟩
  | step hlo hhi hexit hstep _ ih =>
    rcases performed_eq L _ with hp | hp <;> rw [hp] at htt
    · obtain ⟨m, c'', hin⟩ := ih htt
      exact ⟨m + 1, c'', by simpa [hp] using Inside.step hlo hhi hexit hstep hin⟩
    · cases t with
      | nil => exact ⟨0, _, .refl⟩
      | cons x t =>
        obtain ⟨rfl, ht⟩ := List.cons_eq_cons.mp htt
        obtain ⟨m, c'', hin⟩ := ih ht
        exact ⟨m + 1, c'', by simpa [hp] using Inside.step hlo hhi hexit hstep hin⟩

end Inside

/-- The run leaves the lines at their end. -/
def FallsThrough (B : Backend α ι Λ σ) (L : List (Line ι Λ)) (lo hi : Nat) (s : σ) (t : List Nat)
    (s' : σ) : Prop :=
  ∃ n, B.Inside L lo hi n (lo, s) t (hi, s')

/-- The run leaves the lines by a jump to the exit. -/
def Exits (B : Backend α ι Λ σ) (L : List (Line ι Λ)) (lo hi : Nat) (s : σ) (t : List Nat)
    (s' : σ) : Prop :=
  ∃ n pc, B.Inside L lo hi n (lo, s) t (pc, s') ∧ lo ≤ pc ∧ pc < hi ∧
    L[pc]? = some (.jmp B.exit)

/-! ### Steps -/

section
variable {pc q : Nat} {s : σ} {l : Λ}

theorem step_instr {i : ι} (h : L[pc]? = some (.instr i)) :
    B.step L (pc, s) = (B.exec i s).map (pc + 1, ·) := by
  simp [step, h]

theorem step_label (h : L[pc]? = some (.label l)) : B.step L (pc, s) = some (pc + 1, s) := by
  simp [step, h]

theorem step_jmp (h : L[pc]? = some (.jmp l)) (htarget : target L l = some q) :
    B.step L (pc, s) = some (q, s) := by
  simp [step, h, htarget]

theorem step_jz (h : L[pc]? = some (.jz l)) (htarget : target L l = some q) :
    B.step L (pc, s) = (B.zero s).map fun z => (if !z then pc + 1 else q, s) := by
  rcases hz : B.zero s with _ | _ | _ <;> simp [step, h, htarget, hz]

theorem step_jnz (h : L[pc]? = some (.jnz l)) (htarget : target L l = some q) :
    B.step L (pc, s) = (B.zero s).map fun z => (if !z then q else pc + 1, s) := by
  rcases hz : B.zero s with _ | _ | _ <;> simp [step, h, htarget, hz]

end

/-! ### Straight-line code -/

section
variable {p : Nat} {s s' : σ} {is : List ι}

theorem runs_code (hseg : Segment L p (is.map .instr)) (hlo : lo ≤ p) (hhi : p + is.length ≤ hi)
    (hrun : is.foldlM (fun s i => B.exec i s) s = some s') :
    B.Inside L lo hi is.length (p, s) (List.range' p is.length) (p + is.length, s') := by
  induction is generalizing p s with
  | nil =>
    cases hrun
    exact .refl
  | cons i is ih =>
    obtain ⟨hline, hseg⟩ := hseg
    obtain ⟨s₁, (hexec : B.exec i s = some s₁), hrun⟩ := Option.bind_eq_some_iff.mp hrun
    rw [List.length_cons] at hhi
    have hstep : B.step L (p, s) = some (p + 1, s₁) := by rw [step_instr hline, hexec]; rfl
    have h := Inside.step (t := List.range' (p + 1) is.length) hlo (show p < hi by omega)
      (by simp [hline]) hstep (ih hseg (by omega) (by omega) hrun)
    rw [show p + 1 + is.length = p + (is.length + 1) by omega] at h
    simpa [performed, hline, List.range'_succ] using h

/-- Code that gets stuck does so at one of its instructions. -/
theorem stops_in_code (hseg : Segment L p (is.map .instr)) (hlo : lo ≤ p)
    (hhi : p + is.length ≤ hi) (hrun : is.foldlM (fun s i => B.exec i s) s = none) :
    ∃ n u c, B.Inside L lo hi n (p, s) u c ∧ u <+: List.range' p is.length ∧
      c.1 < hi ∧ L[c.1]? ≠ some (.jmp B.exit) ∧ B.step L c = none := by
  induction is generalizing p s with
  | nil => cases hrun
  | cons i is ih =>
    obtain ⟨hline, hseg⟩ := hseg
    rw [List.length_cons] at hhi
    rw [List.foldlM_cons] at hrun
    cases hexec : B.exec i s with
    | none =>
      exact ⟨0, [], (p, s), .refl, List.nil_prefix, show p < hi by omega, by simp [hline],
        by rw [step_instr hline, hexec]; rfl⟩
    | some s₁ =>
      rw [hexec] at hrun
      obtain ⟨n, u, c, hin, hu, hnone⟩ := ih hseg (by omega) (by omega) hrun
      have hstep : B.step L (p, s) = some (p + 1, s₁) := by rw [step_instr hline, hexec]; rfl
      have h := Inside.step hlo (show p < hi by omega) (by simp [hline]) hstep hin
      refine ⟨n + 1, _, c, h, ?_, hnone⟩
      simpa [performed, hline, List.range'_succ] using hu

end

/-! ## What the lines of a statement do -/

variable (B) in
/-- After `n` steps the machine is where the outcome says, having performed `u` of a leaf that got
stuck. Where the rounds were used up, as many steps have been made. -/
def Ended (L : List (Line ι Λ)) (lo hi q k n : Nat) (u : List Nat) (c : Nat × σ) :
    Outcome (Nat × α) σ → Prop
  | .normal s => u = [] ∧ c = (q, s)
  | .returned s => u = [] ∧ c.2 = s ∧ lo ≤ c.1 ∧ c.1 < hi ∧ L[c.1]? = some (.jmp B.exit)
  | .stuck a => u <+: B.positions [a] ∧ c.1 < hi ∧ L[c.1]? ≠ some (.jmp B.exit) ∧
    B.step L c = none
  | .running => u = [] ∧ k ≤ n

variable (B) in
/-- The machine performs, from `c` on, what the result says, and goes on at `q`. -/
def Matches (L : List (Line ι Λ)) (lo hi k : Nat) (c : Nat × σ) (q : Nat)
    (r : Result (Nat × α) σ) : Prop :=
  ∃ n u c', B.Inside L lo hi n c (B.positions r.1 ++ u) c' ∧ B.Ended L lo hi q k n u c' r.2

section
variable {k k' q q' : Nat} {r : Result (Nat × α) σ} {T : List (Nat × α)}

theorem Ended.mono {o : Outcome (Nat × α) σ} {u : List Nat} (h : B.Ended L lo hi q k n u c o)
    (hk : k' + n ≤ k + m) : B.Ended L lo hi q k' m u c o := by
  cases o with
  | running => exact ⟨h.1, by have := h.2; omega⟩
  | _ => exact h

theorem Matches.mono (h : B.Matches L lo hi k c q r) (hk : k' ≤ k) :
    B.Matches L lo hi k' c q r := by
  obtain ⟨n, u, c', hin, hend⟩ := h
  exact ⟨n, u, c', hin, hend.mono (by omega)⟩

/-- A run in front. -/
theorem Matches.after (hin : B.Inside L lo hi n c (B.positions T) c')
    (h : B.Matches L lo hi k c' q r) : B.Matches L lo hi (k + n) c q (T ++ r.1, r.2) := by
  obtain ⟨m, u, c'', hin', hend⟩ := h
  refine ⟨n + m, u, c'', ?_, hend.mono (by omega)⟩
  rw [positions_append, List.append_assoc]
  exact hin.trans hin'

/-- A step in front that performs nothing. -/
theorem Matches.step (h : B.Matches L lo hi k c' q r) (hlo : lo ≤ c.1) (hhi : c.1 < hi)
    (hline : performed L c.1 = []) (hexit : L[c.1]? ≠ some (.jmp B.exit))
    (hstep : B.step L c = some c') : B.Matches L lo hi k c q r := by
  have hin : B.Inside L lo hi 1 c (B.positions ([] : List (Nat × α))) c' := by
    simpa [hline, positions] using Inside.single hlo hhi hexit hstep
  exact (Matches.after hin h).mono (by omega)

/-- A step behind that performs nothing. -/
theorem Matches.goOn (h : B.Matches L lo hi k c q r) (hlo : lo ≤ q) (hhi : q < hi)
    (hline : performed L q = []) (hexit : L[q]? ≠ some (.jmp B.exit))
    (hstep : ∀ s, B.step L (q, s) = some (q', s)) : B.Matches L lo hi k c q' r := by
  obtain ⟨t, o⟩ := r
  cases o with
  | normal s =>
    obtain ⟨n, u, c', hin, rfl, rfl⟩ := h
    have hnext := Inside.single (c := (q, s)) hlo hhi hexit (hstep s)
    exact ⟨n + 1, [], _, by simpa [hline] using hin.trans hnext, rfl, rfl⟩
  | _ => exact h

theorem Matches.andThen {f : σ → Result (Nat × α) σ} (h : B.Matches L lo hi k c q r)
    (hf : ∀ s, B.Matches L lo hi k (q, s) q' (f s)) : B.Matches L lo hi k c q' (r.andThen f) := by
  obtain ⟨t, o⟩ := r
  cases o with
  | normal s =>
    obtain ⟨n, u, c', hin, rfl, rfl⟩ := h
    rw [List.append_nil] at hin
    exact (Matches.after hin (hf s)).mono (by omega)
  | _ => exact h

/-- A leaf statement runs its code. -/
theorem matches_leaf {p : Nat} {a : α} {s : σ} (hseg : Segment L p ((B.code a).map .instr))
    (hlo : lo ≤ p) (hhi : p + (B.code a).length ≤ hi) :
    B.Matches L lo hi k (p, s) (p + (B.code a).length) (B.placedAtoms.evalLeaf (p, a) s) := by
  cases hrun : B.act a s with
  | some s' =>
    have hin := runs_code hseg hlo hhi hrun
    rw [← positions_singleton] at hin
    rw [Atoms.evalLeaf_some hrun]
    exact ⟨_, [], _, by rwa [List.append_nil], rfl, rfl⟩
  | none =>
    obtain ⟨n, u, c, hin, hu, hnone⟩ := stops_in_code hseg hlo hhi hrun
    rw [← positions_singleton] at hu
    rw [Atoms.evalLeaf_none hrun]
    exact ⟨n, u, c, hin, hu, hnone⟩

/-- A condition runs its code, and a jump goes on with one of two continuations. -/
theorem matches_test {p : Nat} {a : α} {s : σ} {g : Bool → Nat}
    {f : Bool → σ → Result (Nat × α) σ} (hseg : Segment L p ((B.code a).map .instr))
    (hlo : lo ≤ p) (hhi : p + (B.code a).length < hi)
    (hline : performed L (p + (B.code a).length) = [])
    (hexit : L[p + (B.code a).length]? ≠ some (.jmp B.exit))
    (hjump : ∀ s, B.step L (p + (B.code a).length, s) =
      (B.zero s).map fun z => (g !z, s))
    (hf : ∀ b s, B.Matches L lo hi k (g b, s) q (f b s)) :
    B.Matches L lo hi (k + 1) (p, s) q (B.placedAtoms.evalTest (p, a) f s) := by
  cases hrun : B.act a s with
  | none =>
    have htest : B.placedAtoms.test (p, a) s = none := by
      refine Option.eq_none_iff_forall_ne_some.mpr fun ⟨b, s'⟩ h => ?_
      exact nomatch hrun.symm.trans (B.test_eq.mp h).1
    obtain ⟨n, u, c, hin, hu, hnone⟩ := stops_in_code hseg hlo (Nat.le_of_lt hhi) hrun
    rw [← positions_singleton] at hu
    rw [Atoms.evalTest_none htest]
    exact ⟨n, u, c, hin, hu, hnone⟩
  | some s' =>
    have hin := runs_code hseg hlo (Nat.le_of_lt hhi) hrun
    rw [← positions_singleton] at hin
    have hstep := hjump s'
    cases hz : B.zero s' with
    | none =>
      have htest : B.placedAtoms.test (p, a) s = none := by
        refine Option.eq_none_iff_forall_ne_some.mpr fun ⟨b, s''⟩ h => ?_
        obtain ⟨hrun', hz'⟩ := B.test_eq.mp h
        cases hrun.symm.trans hrun'
        simp [hz] at hz'
      rw [hz] at hstep
      rw [Atoms.evalTest_none htest]
      exact ⟨_, _, _, hin, List.prefix_rfl, hhi, hexit, hstep⟩
    | some z =>
      have htest : B.placedAtoms.test (p, a) s = some (!z, s') :=
        B.test_eq.mpr ⟨hrun, by simp [hz]⟩
      rw [hz] at hstep
      have hjumped := Inside.single (c := (p + (B.code a).length, s'))
        (Nat.le_add_right_of_le hlo) hhi hexit hstep
      rw [Atoms.evalTest_some htest]
      have h := (hf (!z) s').after (T := [(p, a)]) (by simpa [hline] using hin.trans hjumped)
      exact h.mono (by omega)

/-- The lines of a statement do what it means, wherever they stand. -/
theorem lower_matches (hnodup : (labels L).Nodup) {fuel : Nat} {stmt : Stmt α} {p n : Nat} {s : σ}
    (hseg : Segment L p (B.lower stmt n)) (hlo : lo ≤ p) (hhi : p + B.size stmt ≤ hi) :
    B.Matches L lo hi fuel (p, s) (p + B.size stmt)
      (B.placedAtoms.eval fuel (B.place p stmt) s) := by
  induction stmt generalizing p n s with
  | skip => exact ⟨0, [], _, .refl, rfl, rfl⟩
  | ret => exact ⟨0, [], _, .refl, rfl, rfl, hlo, hhi, hseg.1⟩
  | leaf a => exact matches_leaf hseg hlo hhi
  | seq stmt stmt' ih ih' =>
    rw [size] at hhi ⊢
    obtain ⟨hseg, hseg'⟩ := segment_append.mp hseg
    rw [length_lower] at hseg'
    rw [← Nat.add_assoc]
    exact (ih hseg hlo (by omega)).andThen fun s => ih' hseg' (by omega) (by omega)
  | ite a stmt stmt' ih ih' =>
    rw [size] at hhi ⊢
    simp only [lower, segment_append, Segment, List.length_map, length_lower] at hseg
    obtain ⟨hcode, hjz, hthen, hjmp, helse, hbody, hend, -⟩ := hseg
    have htelse := target_eq helse hnodup
    have htend := target_eq hend hnodup
    refine (matches_test (g := fun b => if b then p + (B.code a).length + 1
      else p + (B.code a).length + 1 + B.size stmt + 1) hcode hlo (by omega)
      (by simp [performed, hjz]) (by simp [hjz]) (fun s => step_jz hjz htelse)
      fun b s => ?_).mono (Nat.le_succ _)
    rw [show p + ((B.code a).length + 1 + B.size stmt + 2 + B.size stmt' + 1) =
      p + (B.code a).length + 1 + B.size stmt + 2 + B.size stmt' + 1 by omega]
    cases b with
    | true =>
      have h := (ih (s := s) hthen (by omega) (by omega)).goOn (by omega) (by omega)
        (by simp [performed, hjmp]) (by simp [hjmp, B.exit_ne]) fun s => step_jmp hjmp htend
      exact h.goOn (by omega) (by omega) (by simp [performed, hend]) (by simp [hend])
        fun s => step_label hend
    | false =>
      have h := (ih' (s := s) hbody (by omega) (by omega)).goOn (by omega) (by omega)
        (by simp [performed, hend]) (by simp [hend]) fun s => step_label hend
      exact h.step (by simp; omega) (by simp; omega) (by simp [performed, helse]) (by simp [helse])
        (step_label helse)
  | loop a stmt ih =>
    rw [size] at hhi ⊢
    simp only [lower, segment_append, Segment, List.length_map, length_lower] at hseg
    obtain ⟨hjmp, hwhile, hbody, hcond, hcode, hjnz, -⟩ := hseg
    have htwhile := target_eq hwhile hnodup
    have htcond := target_eq hcond hnodup
    have hloop (k : Nat) (hk : k ≤ fuel) (s : σ) : B.Matches L lo hi k
        (p + 2 + B.size stmt, s) (p + 2 + B.size stmt + 1 + (B.code a).length + 1)
        (B.placedAtoms.evalLoop (p + 2 + B.size stmt + 1, a)
          (B.placedAtoms.eval fuel (B.place (p + 2) stmt)) k s) := by
      induction k generalizing s with
      | zero => exact ⟨0, [], _, .refl, rfl, Nat.le_refl _⟩
      | succ k ihk =>
        refine Matches.step (?_ : B.Matches L lo hi _ (p + 2 + B.size stmt + 1, s) _ _)
          (by simp; omega) (by simp; omega) (by simp [performed, hcond]) (by simp [hcond]) (step_label hcond)
        refine matches_test (g := fun b => if b then p + 1
          else p + 2 + B.size stmt + 1 + (B.code a).length + 1) hcode (by omega) (by omega)
          (by simp [performed, hjnz]) (by simp [hjnz]) (fun s => step_jnz hjnz htwhile)
          fun b s => ?_
        cases b with
        | true =>
          have h := (ih (s := s) hbody (by omega) (by omega)).mono (Nat.le_of_succ_le hk)
          exact (h.andThen (ihk (by omega))).step (by simp; omega) (by simp; omega)
            (by simp [performed, hwhile]) (by simp [hwhile]) (step_label hwhile)
        | false => exact ⟨0, [], _, .refl, rfl, rfl⟩
    have h := (hloop fuel (Nat.le_refl _) s).step (c := (p, s)) hlo (by simp; omega)
      (by simp [performed, hjmp]) (by simp [hjmp, B.exit_ne]) (step_jmp hjmp htcond)
    rw [show p + (2 + B.size stmt + 1 + (B.code a).length + 1) =
      p + 2 + B.size stmt + 1 + (B.code a).length + 1 by omega]
    exact h

end

/-! ## Simulation -/

/-- The machine can go no further inside the lines. -/
def Final (B : Backend α ι Λ σ) (L : List (Line ι Λ)) (hi : Nat) (c : Nat × σ) : Prop :=
  hi ≤ c.1 ∨ L[c.1]? = some (.jmp B.exit) ∨ B.step L c = none

theorem Final.eq (hfinal : B.Final L hi c) (h : B.Inside L lo hi n c t c') :
    n = 0 ∧ t = [] ∧ c' = c := by
  cases h with
  | refl => exact ⟨rfl, rfl, rfl⟩
  | step _ hhi hexit hstep _ =>
    rcases hfinal with h | h | h
    · omega
    · exact absurd h hexit
    · rw [h] at hstep
      cases hstep

/-- A run that cannot go on is the longest one. -/
theorem Final.longest (hfinal : B.Final L hi c') (h : B.Inside L lo hi n c t c')
    (h' : B.Inside L lo hi m c t' c'') : m ≤ n ∧ t' <+: t := by
  rcases Nat.le_total m n with hmn | hmn
  · obtain ⟨u, -, rfl⟩ := h'.split h hmn
    exact ⟨hmn, List.prefix_append ..⟩
  · obtain ⟨u, hu, rfl⟩ := h.split h' hmn
    obtain ⟨hzero, rfl, -⟩ := hfinal.eq hu
    exact ⟨by omega, by simp⟩

theorem Final.unique (hfinal : B.Final L hi c') (hfinal' : B.Final L hi c'')
    (h : B.Inside L lo hi n c t c') (h' : B.Inside L lo hi m c t' c'') : t = t' ∧ c' = c'' := by
  have hmn := (hfinal.longest h h').1
  obtain ⟨u, hu, rfl⟩ := h'.split h hmn
  obtain ⟨-, rfl, rfl⟩ := hfinal'.eq hu
  exact ⟨List.append_nil _, rfl⟩

/-- What was performed, and what it got stuck at. -/
def attempted (r : Result (Nat × α) σ) : List (Nat × α) :=
  r.1 ++ match r.2 with
    | .stuck a => [a]
    | _ => []

/-- The lines at `p` and the structured statement do the same. -/
structure Simulates (B : Backend α ι Λ σ) (L : List (Line ι Λ)) (p : Nat) (stmt : Stmt α) :
    Prop where
  /-- The machine goes on behind the lines iff the statement ends normally. -/
  falls : ∀ s t s', B.FallsThrough L p (p + B.size stmt) s t s' ↔
    ∃ fuel T, B.placedAtoms.eval fuel (B.place p stmt) s = (T, .normal s') ∧ B.positions T = t
  /-- The machine jumps to the exit iff the statement returns. -/
  exits : ∀ s t s', B.Exits L p (p + B.size stmt) s t s' ↔
    ∃ fuel T, B.placedAtoms.eval fuel (B.place p stmt) s = (T, .returned s') ∧ B.positions T = t
  /-- Whatever the statement performs, the machine does. -/
  performs : ∀ fuel s, ∃ n c, B.Inside L p (p + B.size stmt) n (p, s)
    (B.positions (B.placedAtoms.eval fuel (B.place p stmt) s).1) c
  /-- The machine performs nothing else, however long it runs. -/
  performed : ∀ n s t c, B.Inside L p (p + B.size stmt) n (p, s) t c →
    ∃ fuel, t <+: B.positions (attempted (B.placedAtoms.eval fuel (B.place p stmt) s))

section
variable {k q : Nat} {s : σ} {r : Result (Nat × α) σ} {T : List (Nat × α)}

theorem Matches.runs (h : B.Matches L lo hi k c q r) :
    ∃ n c', B.Inside L lo hi n c (B.positions r.1) c' := by
  obtain ⟨n, u, c', hin, -⟩ := h
  exact hin.cut

/-- A run of the machine is no longer than what the result performs, unless the rounds were used
up before. -/
theorem Matches.attempted_of_inside (h : B.Matches L lo hi k c q r) (hq : hi ≤ q)
    (hin : B.Inside L lo hi n c t c') (hn : n ≤ k) : t <+: B.positions (attempted r) := by
  obtain ⟨m, u, c'', hin', hend⟩ := h
  obtain ⟨T, o⟩ := r
  cases o with
  | running =>
    obtain ⟨rfl, hm⟩ := hend
    obtain ⟨v, -, hv⟩ := hin.split hin' (by omega)
    exact ⟨v, by simpa [attempted] using hv.symm⟩
  | stuck a =>
    obtain ⟨hu, -, -, hnone⟩ := hend
    have ht := (Final.longest (.inr (.inr hnone)) hin' hin).2
    rw [attempted, positions_append]
    exact ht.trans ((List.prefix_append_right_inj _).mpr hu)
  | normal s =>
    obtain ⟨rfl, rfl⟩ := hend
    simpa [attempted] using (Final.longest (.inl hq) hin' hin).2
  | returned s =>
    obtain ⟨rfl, -, -, -, hexit⟩ := hend
    simpa [attempted] using (Final.longest (.inr (.inl hexit)) hin' hin).2

/-- With enough rounds, the run that cannot go on is that of the result. -/
theorem Matches.ended (h : B.Matches L lo hi k c hi r) (hin : B.Inside L lo hi n c t c')
    (hn : n < k) (hfinal : B.Final L hi c') :
    ∃ m u, B.positions r.1 ++ u = t ∧ B.Ended L lo hi hi k m u c' r.2 ∧ m < k := by
  obtain ⟨m, u, c'', hin', hend⟩ := h
  have hmn := (hfinal.longest hin hin').1
  have hfinal' : B.Final L hi c'' := by
    rcases hr : r.2 with s | s | a | _ <;> rw [hr] at hend
    · obtain ⟨-, rfl⟩ := hend
      exact .inl (Nat.le_refl _)
    · exact .inr (.inl hend.2.2.2.2)
    · exact .inr (.inr hend.2.2.2)
    · have := hend.2
      omega
  obtain ⟨ht, rfl⟩ := hfinal'.unique hfinal hin' hin
  exact ⟨m, u, ht, hend, by omega⟩

/-- The lines of a statement simulate it, wherever they stand. -/
theorem lower_simulates (hnodup : (labels L).Nodup) {stmt : Stmt α} {p n : Nat}
    (hseg : Segment L p (B.lower stmt n)) : B.Simulates L p stmt := by
  have hmatches (fuel : Nat) (s : σ) : B.Matches L p (p + B.size stmt) fuel (p, s)
      (p + B.size stmt) (B.placedAtoms.eval fuel (B.place p stmt) s) :=
    lower_matches hnodup hseg (Nat.le_refl _) (Nat.le_refl _)
  refine ⟨fun s t s' => ⟨?_, ?_⟩, fun s t s' => ⟨?_, ?_⟩, fun fuel s => (hmatches fuel s).runs,
    fun n s t c hin => ⟨n, (hmatches n s).attempted_of_inside (Nat.le_refl _) hin (Nat.le_refl _)⟩⟩
  · rintro ⟨n, hin⟩
    obtain ⟨m, u, ht, hend, hm⟩ :=
      (hmatches (n + 1) s).ended hin (Nat.lt_succ_self n) (.inl (Nat.le_refl _))
    refine ⟨n + 1, (B.placedAtoms.eval (n + 1) (B.place p stmt) s).1, ?_⟩
    rcases hr : (B.placedAtoms.eval (n + 1) (B.place p stmt) s).2 with s₁ | s₁ | a | _ <;>
      rw [hr] at hend
    · obtain ⟨rfl, hc⟩ := hend
      cases hc
      exact ⟨by rw [← hr], by simpa using ht⟩
    · exact absurd hend.2.2.2.1 (Nat.lt_irrefl _)
    · exact absurd hend.2.1 (Nat.lt_irrefl _)
    · exact absurd hend.2 (Nat.not_le_of_lt hm)
  · rintro ⟨fuel, T, heval, rfl⟩
    obtain ⟨n, u, c, hin, hend⟩ := hmatches fuel s
    rw [heval] at hin hend
    obtain ⟨rfl, rfl⟩ := hend
    exact ⟨n, by simpa using hin⟩
  · rintro ⟨n, pc, hin, hlo, hhi, hexit⟩
    obtain ⟨m, u, ht, hend, hm⟩ :=
      (hmatches (n + 1) s).ended hin (Nat.lt_succ_self n) (.inr (.inl hexit))
    refine ⟨n + 1, (B.placedAtoms.eval (n + 1) (B.place p stmt) s).1, ?_⟩
    rcases hr : (B.placedAtoms.eval (n + 1) (B.place p stmt) s).2 with s₁ | s₁ | a | _ <;>
      rw [hr] at hend
    · cases hend.2
      exact absurd hhi (Nat.lt_irrefl _)
    · obtain ⟨rfl, rfl, -⟩ := hend
      exact ⟨by rw [← hr], by simpa using ht⟩
    · exact absurd hexit hend.2.2.1
    · exact absurd hend.2 (Nat.not_le_of_lt hm)
  · rintro ⟨fuel, T, heval, rfl⟩
    obtain ⟨n, u, ⟨pc, s''⟩, hin, hend⟩ := hmatches fuel s
    rw [heval] at hin hend
    obtain ⟨rfl, rfl, hlo, hhi, hexit⟩ := hend
    exact ⟨n, pc, by simpa using hin, hlo, hhi, hexit⟩

end

/-- Every part of a statement is simulated by its lines. -/
theorem parts_simulate (hnodup : (labels L).Nodup) {p n p' n' : Nat} {s s' : Stmt α}
    (hseg : Segment L p (B.lower s n)) (h : B.Part p n s p' n' s') : B.Simulates L p' s' :=
  lower_simulates hnodup (h.segment hseg)

end ControlFlow.Backend
