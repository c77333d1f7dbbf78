import Seron.Image
import Seron.Verify.JumpTargets

/-! # Running a program

What the machine does at the lines of straight-line code, at an address that a call or a return
goes to, and at the jumps of a procedure. -/

namespace Seron

open ControlFlow Runs

namespace Image

variable {I : Image} {i j p : Nat} {m m' : Machine} {line : Instr} {code : List Instr}

theorem Reaches.trans {c c' c'' : Nat × Machine} (h : I.Reaches c c') (h' : I.Reaches c' c'') :
    I.Reaches c c'' := Runs.Reaches.trans h h'

theorem Reaches.step {c c' c'' : Nat × Machine} (h : I.step c = some c') (h' : I.Reaches c' c'') :
    I.Reaches c c'' := Runs.Reaches.head h h'

theorem Reaches.upTo {c : Nat × Machine} (h : I.Reaches c (p, m)) (hq : p = j) : I.Reaches c (j, m) :=
  hq ▸ h

/-! ## Straight-line code -/

/-- An instruction of straight-line code goes on with the next line. -/
theorem step_of_exec (hline : I.text[p]? = some line) (h : exec I.env line m = some m') :
    I.step (p, m) = some (p + 1, m') := by
  cases line
  case jmp | je | jne | ret => exact absurd h (by simp [exec])
  case call => exact absurd h (by simp [exec, env])
  all_goals simp only [Image.step, hline, h, Option.map_some]

theorem reaches_of_run (hat : At I.text p code) (h : run I.env code m = some m') :
    I.Reaches (p, m) (p + code.length, m') := by
  induction code generalizing p m with
  | nil =>
    cases h
    exact Runs.Reaches.refl
  | cons line code ih =>
    obtain ⟨hline, hrest⟩ := at_cons.mp hat
    obtain ⟨m₁, hexec, hrun⟩ := Option.bind_eq_some_iff.mp h
    have hreach := Reaches.step (step_of_exec hline hexec) (ih hrest hrun)
    rwa [show p + 1 + code.length = p + (line :: code).length by simp; omega] at hreach

/-! ## Addresses -/

theorem addr_le_succ (hi : i < I.text.length) : I.addr i ≤ I.addr (i + 1) := by
  have h := I.grows i _ (List.getElem?_eq_getElem hi)
  split at h <;> omega

theorem addr_mono (hij : i ≤ j) (hj : j ≤ I.text.length) : I.addr i ≤ I.addr j := by
  induction j with
  | zero => rw [Nat.le_zero.mp hij]
  | succ j ih =>
    rcases Nat.lt_or_eq_of_le hij with hlt | rfl
    · exact (ih (by omega) (by omega)).trans (addr_le_succ (by omega))
    · exact le_rfl

theorem place_inj (hi : i ≤ I.text.length) (hj : j ≤ I.text.length) (h : I.place i = I.place j) :
    I.addr i = I.addr j := by
  have hlti := (addr_mono hi le_rfl).trans_lt I.bounded
  have hltj := (addr_mono hj le_rfl).trans_lt I.bounded
  have hnat := congrArg BitVec.toNat h
  rwa [place, place, BitVec.toNat_ofNat, BitVec.toNat_ofNat, Nat.mod_eq_of_lt hlti,
    Nat.mod_eq_of_lt hltj] at hnat

theorem step_silent (hline : I.text[p]? = some line) (h : line.silent = true) :
    I.step (p, m) = some (p + 1, m) := by
  cases line <;> simp only [Instr.silent, Bool.false_eq_true] at h <;> exact step_of_exec hline rfl

/-- Lines at one address do nothing up to the last of them. -/
theorem reaches_same_addr (hij : i ≤ j) (hj : j ≤ I.text.length) (h : I.addr i = I.addr j) :
    I.Reaches (i, m) (j, m) := by
  induction hij using Nat.decreasingInduction with
  | self => exact Runs.Reaches.refl
  | of_succ i hij ih =>
    have hi : i < I.text.length := by omega
    have hline := List.getElem?_eq_getElem hi
    have hle : I.addr (i + 1) ≤ I.addr j := addr_mono hij hj
    have hgrows := I.grows i _ hline
    split at hgrows
    · rename_i hsilent
      exact Reaches.step (step_silent hline hsilent) (ih (hgrows.trans h))
    · omega

/-- What goes to the address of a line comes to the line. -/
theorem entry_reaches (I : Image) (hi : i ≤ I.text.length) :
    ∃ pc, I.entry (I.place i) = some pc ∧ ∀ m, I.Reaches (pc, m) (i, m) := by
  have hmem : i ∈ List.range (I.text.length + 1) := List.mem_range.mpr (by omega)
  have hfound : (I.entry (I.place i)).isSome := by
    rw [entry, List.find?_isSome]
    exact ⟨i, hmem, by simp⟩
  obtain ⟨pc, hpc⟩ := Option.isSome_iff_exists.mp hfound
  refine ⟨pc, hpc, fun m => ?_⟩
  obtain ⟨hplace, -, hfirst⟩ := List.find?_range_eq_some.mp hpc
  have hle : pc ≤ i := by
    by_contra hlt
    have := hfirst i (by omega)
    simp at this
  exact reaches_same_addr hle hi (place_inj (by omega) hi (of_decide_eq_true hplace))

/-- A call comes to the line whose address is in the register, with the one behind the call as the
return address. -/
theorem reaches_call {r : Register} (hline : I.text[p]? = some (.call r)) (hi : i ≤ I.text.length)
    (hreg : m.reg r = I.place i) : I.Reaches (p, m) (i, m.push (I.place (p + 1))) := by
  obtain ⟨pc, hpc, hreach⟩ := entry_reaches I hi
  refine Reaches.step ?_ (hreach _)
  simp only [Image.step, hline, hreg, hpc, Option.map_some]

theorem reaches_ret (hline : I.text[p]? = some .ret) (hi : i ≤ I.text.length)
    (htop : m.top = I.place i) : I.Reaches (p, m) (i, m.drop) := by
  obtain ⟨pc, hpc, hreach⟩ := entry_reaches I hi
  refine Reaches.step ?_ (hreach _)
  simp only [Image.step, hline, htop, hpc, Option.map_some]

/-! ## Local labels -/

section
variable {l : Label} {q : Nat} {f : Flags}

theorem step_jmp (hline : I.text[p]? = some (.jmp l)) (htarget : I.target p l = some q) :
    I.step (p, m) = some (q, m) := by
  simp only [Image.step, hline, htarget, Option.map_some]

theorem step_je (hline : I.text[p]? = some (.je l)) (htarget : I.target p l = some q)
    (hflags : m.flags = some f) : I.step (p, m) = some (if f.zero then q else p + 1, m) := by
  simp only [Image.step, hline, htarget, hflags, Option.bind_some, Option.map_some]
  cases f.zero <;> rfl

theorem step_jne (hline : I.text[p]? = some (.jne l)) (htarget : I.target p l = some q)
    (hflags : m.flags = some f) : I.step (p, m) = some (if f.zero then p + 1 else q, m) := by
  simp only [Image.step, hline, htarget, hflags, Option.bind_some, Option.map_some]
  cases f.zero <;> rfl

end

variable (I) in
/-- Jumps to labels in a part of the text, from lines in it, go to these labels. -/
def Resolves (lo hi : Nat) : Prop :=
  ∀ pc j l, lo ≤ pc → pc < hi → lo ≤ j → j < hi → I.text[j]? = some (.label l) →
    I.target pc l = some j

theorem untilProc_eq (lines : List Instr) : untilProc lines = lines.takeWhile fun i => !i.entry := by
  refine congrArg (lines.takeWhile ·) (funext fun i => ?_)
  cases i
  case label l => cases l <;> rfl
  all_goals rfl

/-- The lines behind the label of a procedure. -/
theorem home_eq {before after : List Instr} {name : String}
    (htext : I.text = before ++ .label (.proc name) :: after) {k : Nat}
    (hk : k ≤ (untilProc after).length) :
    I.home (before.length + 1 + k) = before.length + 1 := by
  have hafter : ∀ i ∈ (after.take k).reverse, (!i.entry) = true := by
    intro i hi
    have hfront : after.take k <+: untilProc after :=
      List.prefix_of_prefix_length_le (List.take_prefix k after) (List.takeWhile_prefix _)
        ((List.length_take_le k after).trans hk)
    rw [untilProc_eq] at hfront
    exact List.mem_takeWhile_imp (p := fun i => !i.entry) (hfront.mem (List.mem_reverse.mp hi))
  have hlen : k ≤ after.length := hk.trans (List.takeWhile_prefix _).length_le
  have htake : I.text.take (before.length + 1 + k) =
      before ++ .label (.proc name) :: after.take k := by
    rw [htext, show before.length + 1 + k = before.length + (k + 1) by omega, List.take_length_add_append,
      List.take_succ_cons]
  rw [home, htake, List.reverse_append, List.reverse_cons, List.append_assoc,
    List.takeWhile_append_of_pos hafter]
  simp [Instr.entry, hlen]

theorem findIdx_label (lines : List Instr) (l : Label) :
    lines.findIdx? (· = .label l) = ControlFlow.target (lines.map Instr.line) l := by
  rw [ControlFlow.target, List.findIdx?_map]
  congr 1
  funext i
  cases i <;> simp [Instr.line]

/-- Behind the label of a procedure, jumps go to the labels of the procedure. -/
theorem resolves_of_unique {before after : List Instr} {name : String}
    (htext : I.text = before ++ .label (.proc name) :: after)
    (hunique : TargetsUnique (untilProc after)) :
    I.Resolves (before.length + 1) (before.length + 1 + (untilProc after).length) := by
  intro pc j l hpc hpc' hj hj' hline
  obtain ⟨k, rfl⟩ := Nat.exists_eq_add_of_le hpc
  obtain ⟨k', rfl⟩ := Nat.exists_eq_add_of_le hj
  have hdrop : I.text.drop (before.length + 1) = after := by
    rw [htext, List.drop_append, List.drop_eq_nil_of_le (by omega), List.nil_append,
      Nat.add_sub_cancel_left, List.drop_succ_cons, List.drop_zero]
  have hafter : (untilProc after)[k']? = some (.label l) := by
    have hlt : k' < (untilProc after).length := by omega
    have hfront : untilProc after <+: after := List.takeWhile_prefix _
    rw [List.getElem?_eq_getElem hlt, hfront.getElem hlt, ← List.getElem?_eq_getElem, ← hline,
      ← hdrop, List.getElem?_drop]
  have hnodup : (labels ((untilProc after).map Instr.line)).Nodup := hunique.nodup.of_map _
  have hfound : ControlFlow.target ((untilProc after).map Instr.line) l = some k' :=
    target_eq (by rw [List.getElem?_map, hafter]; rfl) hnodup
  rw [Image.target, home_eq htext (by omega), hdrop, ← untilProc_eq, findIdx_label, hfound]
  rfl

end Image

end Seron
