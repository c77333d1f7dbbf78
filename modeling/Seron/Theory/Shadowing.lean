import Mathlib.Data.List.Nodup
import Mathlib.Data.List.Basic

/-! # Shadowing in nested blocks

Names declared in nested blocks, with the innermost block first. An occurrence of a name means the
nearest declaration before it. A table that keeps the first declaration of each name of a whole
block answers something else in general, and this file says when it does not. -/

namespace Shadowing

/-- The declarations of a block, split at an occurrence. -/
structure Block (κ σ : Type*) where
  before : List (κ × σ)
  after : List (κ × σ)

variable {κ σ : Type*}

/-- All declarations of the block, in their order. -/
def Block.decls (b : Block κ σ) : List (κ × σ) := b.before ++ b.after

variable [DecidableEq κ]

def Block.Declares (k : κ) (b : Block κ σ) : Prop := k ∈ b.decls.map Prod.fst

instance (k : κ) (b : Block κ σ) : Decidable (b.Declares k) :=
  inferInstanceAs (Decidable (k ∈ b.decls.map Prod.fst))

/-- The nearest declaration before the occurrence, from the innermost block that has one. -/
def nearest (k : κ) (blocks : List (Block κ σ)) (outer : List (κ × σ)) : Option σ :=
  (blocks.flatMap (·.before.reverse) ++ outer).lookup k

/-- The first declaration of the innermost block that has one, before or after the occurrence. -/
def first (k : κ) (blocks : List (Block κ σ)) (outer : List (κ × σ)) : Option σ :=
  (blocks.flatMap Block.decls ++ outer).lookup k

/-- The innermost block that declares the name does so exactly once before the occurrence. -/
def DeclaredOnce (k : κ) (blocks : List (Block κ σ)) : Prop :=
  ∀ b, blocks.find? (fun b => b.Declares k) = some b → (b.before.map Prod.fst).count k = 1

variable {k : κ} {v : σ} {ds outer : List (κ × σ)} {b : Block κ σ} {blocks : List (Block κ σ)}

theorem lookup_eq_none : ds.lookup k = none ↔ k ∉ ds.map Prod.fst := by
  simp only [List.lookup_eq_none_iff, List.mem_map, bne_iff_ne, not_exists, not_and]
  exact ⟨fun h d hd hk => h d hd hk.symm, fun h d hd hk => h d hd hk.symm⟩

theorem mem_of_lookup (h : ds.lookup k = some v) : v ∈ ds.map Prod.snd := by
  obtain ⟨l, l', rfl, -⟩ := List.lookup_eq_some_iff.mp h
  simp

theorem mem_of_lookup_eq (h : ds.lookup k = some v) : (k, v) ∈ ds := by
  obtain ⟨l, l', rfl, -⟩ := List.lookup_eq_some_iff.mp h
  simp

/-- Among different names every declaration is found. -/
theorem lookup_of_nodup (hnodup : (ds.map Prod.fst).Nodup) (h : (k, v) ∈ ds) :
    ds.lookup k = some v := by
  obtain ⟨l, l', rfl⟩ := List.append_of_mem h
  refine List.lookup_eq_some_iff.mpr ⟨l, l', rfl, fun d hd => bne_iff_ne.mpr ?_⟩
  rw [List.map_append, List.map_cons, List.nodup_append'] at hnodup
  rintro rfl
  exact hnodup.2.2 (List.mem_map_of_mem hd) List.mem_cons_self

theorem exists_lookup (h : k ∈ ds.map Prod.fst) : ∃ v, ds.lookup k = some v :=
  Option.ne_none_iff_exists'.mp (mt lookup_eq_none.mp (not_not_intro h))

/-- The first and the last declaration of a name agree iff there is just one. -/
theorem lookup_reverse_iff (h : ds.lookup k = some v) (hnodup : (ds.map Prod.snd).Nodup) :
    ds.reverse.lookup k = some v ↔ (ds.map Prod.fst).count k = 1 := by
  obtain ⟨l, l', rfl, hl⟩ := List.lookup_eq_some_iff.mp h
  have hl : k ∉ l.map Prod.fst := lookup_eq_none.mp (List.lookup_eq_none_iff.mpr hl)
  simp only [List.map_append, List.map_cons, List.nodup_append, List.nodup_cons] at hnodup
  rw [List.reverse_append, List.reverse_cons, List.lookup_append, List.lookup_append,
    List.lookup_cons_self, List.map_append, List.map_cons, List.count_append, List.count_cons_self,
    List.count_eq_zero_of_not_mem hl]
  by_cases hk : k ∈ l'.map Prod.fst
  · obtain ⟨w, hw⟩ := exists_lookup (show k ∈ l'.reverse.map Prod.fst by simpa using hk)
    have hne : w ≠ v := by
      rintro rfl
      exact hnodup.2.1.1 (by simpa using mem_of_lookup hw)
    have := List.count_pos_iff.mpr hk
    rw [hw]
    simp [hne]
    omega
  · have hnone : l'.reverse.lookup k = none := lookup_eq_none.mpr (by simpa using hk)
    rw [hnone, List.count_eq_zero_of_not_mem hk]
    simp

theorem first_cons : first k (b :: blocks) outer = (b.decls.lookup k).or (first k blocks outer) := by
  rw [first, List.flatMap_cons, List.append_assoc, List.lookup_append, first]

theorem nearest_cons :
    nearest k (b :: blocks) outer = (b.before.reverse.lookup k).or (nearest k blocks outer) := by
  rw [nearest, List.flatMap_cons, List.append_assoc, List.lookup_append, nearest]

/-- What precedes the occurrence is declared. -/
theorem nearest_eq_none (h : first k blocks outer = none) : nearest k blocks outer = none := by
  refine lookup_eq_none.mpr fun hk => lookup_eq_none.mp h ?_
  simp only [List.map_append, List.mem_append, List.mem_map, List.mem_flatMap, List.mem_reverse]
    at hk ⊢
  refine hk.imp_left ?_
  rintro ⟨d, ⟨b, hb, hd⟩, hk⟩
  exact ⟨d, ⟨b, hb, List.mem_append_left _ hd⟩, hk⟩

theorem mem_of_nearest (h : nearest k blocks outer = some v) :
    v ∈ (blocks.flatMap Block.decls).map Prod.snd ∨ v ∈ outer.map Prod.snd := by
  have h := mem_of_lookup h
  rw [List.map_append, List.mem_append] at h
  refine h.imp_left fun h => ?_
  obtain ⟨d, hd, rfl⟩ := List.mem_map.mp h
  obtain ⟨b, hb, hd⟩ := List.mem_flatMap.mp hd
  exact List.mem_map_of_mem (List.mem_flatMap.mpr
    ⟨b, hb, List.mem_append_left _ (List.mem_reverse.mp hd)⟩)

/-- A block that does not declare the name is passed by. -/
theorem skip_block (h : ¬ b.Declares k) :
    first k (b :: blocks) outer = first k blocks outer ∧
      nearest k (b :: blocks) outer = nearest k blocks outer ∧
      (DeclaredOnce k (b :: blocks) ↔ DeclaredOnce k blocks) := by
  have hdecls : b.decls.lookup k = none := lookup_eq_none.mpr h
  have hbefore : b.before.reverse.lookup k = none := by
    refine lookup_eq_none.mpr fun hk => h ?_
    rw [Block.Declares, Block.decls, List.map_append]
    exact List.mem_append_left _ (by simpa using hk)
  exact ⟨by rw [first_cons, hdecls, Option.none_or], by rw [nearest_cons, hbefore, Option.none_or],
    by simp [DeclaredOnce, h]⟩

/-- The first declaration is the nearest one iff the innermost block that declares the name does so
exactly once before the occurrence, provided that different declarations have different values. -/
theorem first_eq_nearest_iff (hnodup : ((blocks.flatMap Block.decls).map Prod.snd).Nodup)
    (houter : ∀ v ∈ (blocks.flatMap Block.decls).map Prod.snd, v ∉ outer.map Prod.snd) :
    first k blocks outer = nearest k blocks outer ↔ DeclaredOnce k blocks := by
  induction blocks with
  | nil => simp [first, nearest, DeclaredOnce]
  | cons b blocks ih =>
    rw [List.flatMap_cons, List.map_append] at hnodup houter
    obtain ⟨hb, hblocks, hdisj⟩ := List.nodup_append.mp hnodup
    by_cases hk : b.Declares k
    · obtain ⟨v, hv⟩ := exists_lookup hk
      have hfind : (b :: blocks).find? (fun b => b.Declares k) = some b := by simp [hk]
      rw [first_cons, nearest_cons, hv, Option.some_or, DeclaredOnce, hfind]
      simp only [Option.some.injEq, forall_eq']
      rw [Block.decls, List.map_append] at hb
      by_cases hbefore : k ∈ b.before.map Prod.fst
      · obtain ⟨w, hw⟩ := exists_lookup
          (show k ∈ b.before.reverse.map Prod.fst by simpa using hbefore)
        obtain ⟨v', hv'⟩ := exists_lookup hbefore
        obtain rfl : v' = v := by simpa [Block.decls, List.lookup_append, hv'] using hv
        rw [← lookup_reverse_iff hv' (List.nodup_append.mp hb).1, hw]
        simp [eq_comm]
      · have hnone : b.before.reverse.lookup k = none := lookup_eq_none.mpr (by simpa using hbefore)
        rw [hnone, Option.none_or, List.count_eq_zero_of_not_mem hbefore]
        refine iff_of_false (fun heq => ?_) (by omega)
        -- the value of an outer declaration would be that of the first one of this block
        have hmem := mem_of_lookup hv
        rcases mem_of_nearest heq.symm with h | h
        · exact hdisj v hmem v h rfl
        · exact houter v (List.mem_append_left _ hmem) h
    · obtain ⟨hfirst, hnearest, hiff⟩ :
          first k (b :: blocks) outer = first k blocks outer ∧ _ := skip_block hk
      rw [hfirst, hnearest, hiff]
      exact ih hblocks fun v hv => houter v (List.mem_append_right _ hv)

end Shadowing
