import Mathlib

/-! # Layouts

Regions of an ordered address space that do not overlap, and how the layouts of two adjacent parts
of the space make one. -/

namespace Layout

/-- The regions are pairwise disjoint and lie from `lo` up to, but without, `hi`. -/
structure LaidOut {α : Type*} [Preorder α] (lo hi : α) (regions : List (Set α)) : Prop where
  disjoint : regions.Pairwise Disjoint
  inside : ∀ r ∈ regions, r ⊆ Set.Ico lo hi

namespace LaidOut

variable {α : Type*} [Preorder α] {lo mid hi lo' hi' : α} {regions regions' : List (Set α)}

theorem nil : LaidOut lo hi [] := ⟨.nil, nofun⟩

theorem single (hlo : lo ≤ lo') (hhi : hi' ≤ hi) : LaidOut lo hi [Set.Ico lo' hi'] :=
  ⟨List.pairwise_singleton _ _, by simpa using Set.Ico_subset_Ico hlo hhi⟩

theorem mono (h : LaidOut lo' hi' regions) (hlo : lo ≤ lo') (hhi : hi' ≤ hi) :
    LaidOut lo hi regions :=
  ⟨h.disjoint, fun r hr => (h.inside r hr).trans (Set.Ico_subset_Ico hlo hhi)⟩

/-- A layout that ends where another one starts. -/
theorem append (h : LaidOut mid hi regions) (h' : LaidOut lo mid regions') (hlo : lo ≤ mid)
    (hhi : mid ≤ hi) : LaidOut lo hi (regions ++ regions') := by
  refine ⟨List.pairwise_append.mpr ⟨h.disjoint, h'.disjoint, fun r hr r' hr' => ?_⟩, ?_⟩
  · have hdisj : Disjoint (Set.Ico mid hi) (Set.Ico lo mid) :=
      Set.disjoint_left.mpr fun x hx hx' => (hx.1.trans_lt hx'.2).false
    exact hdisj.mono (h.inside r hr) (h'.inside r' hr')
  · intro r hr
    rcases List.mem_append.mp hr with hr | hr
    · exact (h.mono hlo le_rfl).inside r hr
    · exact (h'.mono le_rfl hhi).inside r hr

/-- Some of the regions, in any order. -/
theorem subperm (h : LaidOut lo hi regions) (hsub : regions'.Subperm regions) :
    LaidOut lo hi regions' := by
  obtain ⟨l, hperm, hsublist⟩ := hsub
  refine ⟨?_, fun r hr => h.inside r (hsublist.subset (hperm.mem_iff.mpr hr))⟩
  exact (hperm.pairwise_iff fun hdisj => hdisj.symm).mp (h.disjoint.sublist hsublist)

end LaidOut

end Layout
