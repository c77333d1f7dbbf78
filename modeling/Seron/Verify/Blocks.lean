import Seron.Arena
import Seron.Theory.Ownership
import Mathlib.Data.List.Nodup

/-! # The blocks of the arena

The arena keeps the blocks that were allocated, as a keeper in the sense of `Ownership` does: it
forgets a block that is reallocated without being moved. -/

namespace Seron

variable {a a' : Arena} {r : Returned} {live kept : Finset Ptr} {ptr : Ptr}

/-! ## The array -/

/-- The blocks in the array. -/
def Arena.entries (a : Arena) : List Ptr := (a.memory.take a.size).filter (· ≠ 0)

/-- The array has room for `cap` entries, and is not larger than any object can be. -/
structure Arena.Sound (a : Arena) : Prop where
  size_le : a.size ≤ a.cap
  room : a.memory.length = a.cap
  cap_pos : 0 < a.cap
  bounded : a.cap * sizeofPtr < 2 ^ 63

/-- The array that `realloc` returns when it has to grow. It is no object as large as half of the
memory, keeps the entries, and does not share its address with a block. -/
structure Returned.Grown (r : Returned) (a : Arena) (live : Finset Ptr) : Prop where
  bounded : a.cap * 2 % 2 ^ 64 * sizeofPtr % 2 ^ 64 < 2 ^ 63
  room : r.memory.length = a.cap * 2 % 2 ^ 64 * sizeofPtr % 2 ^ 64 / sizeofPtr
  keeps : a.memory.length ≤ r.memory.length → a.memory <+: r.memory
  nonnull : r.items ≠ 0
  distinct : r.items = a.items ∨ r.items ∉ live

theorem take_set_succ {items : List Ptr} {n : Nat} (h : n < items.length) (ptr : Ptr) :
    (items.set n ptr).take (n + 1) = items.take n ++ [ptr] := by
  have hset : n < (items.set n ptr).length := by rwa [List.length_set]
  rw [List.take_add_one, List.take_set_of_le (Nat.le_refl n), List.getElem?_eq_getElem hset,
    List.getElem_set_self]
  rfl

/-- A block is put down behind the others. -/
theorem Arena.Sound.append (h : a.Sound) (hgrown : a.size = a.cap → r.Grown a live) (ptr : Ptr) :
    ∃ a', a.append r ptr = .ok a' ∧ a'.Sound ∧
      a'.memory.take a'.size = a.memory.take a.size ++ [ptr] ∧
      (a'.items = a.items ∨ a.size = a.cap ∧ a'.items = r.items) := by
  obtain ⟨hsize, hroom, hpos, hbounded⟩ := h
  unfold Arena.append
  unfold sizeofPtr at hbounded
  by_cases hfull : a.size = a.cap
  · obtain ⟨hbounded', hroom', hkeeps, -, -⟩ := hgrown hfull
    unfold sizeofPtr at hbounded' hroom'
    have hcap : a.cap * 2 % 2 ^ 64 = a.cap * 2 := by omega
    rw [hcap] at hbounded' hroom'
    have hlength : r.memory.length = a.cap * 2 := by omega
    obtain ⟨rest, hrest⟩ := hkeeps (by omega)
    have htake : r.memory.take a.size = a.memory.take a.size := by
      rw [← hrest, List.take_append_of_le_length (by omega)]
    have hlt : a.size < r.memory.length := by omega
    simp only [if_pos hfull, if_pos hlt, hcap]
    refine ⟨_, rfl, ⟨by dsimp only; omega, ?_, by dsimp only; omega, ?_⟩, ?_, .inr ⟨hfull, rfl⟩⟩
    · rw [List.length_set, hlength]
    · unfold sizeofPtr
      dsimp only
      omega
    · rw [take_set_succ hlt, htake]
  · have hlt : a.size < a.memory.length := by omega
    simp only [if_neg hfull, if_pos hlt]
    refine ⟨_, rfl, ⟨by dsimp only; omega, ?_, hpos, hbounded⟩, take_set_succ hlt ptr, .inl rfl⟩
    rw [List.length_set, hroom]

/-! ## The loop of `arena_realloc` -/

theorem arenaRealloc_loop_length (ptr : Ptr) (n : Nat) (items : List Ptr) :
    (arenaRealloc.loop ptr n items).length = items.length := by
  induction items generalizing n with
  | nil => cases n <;> rfl
  | cons item items ih =>
    cases n with
    | zero => rfl
    | succ n => exact congrArg (· + 1) (ih n)

/-- The pointer is not among the first entries any more. -/
theorem arenaRealloc_loop_entries (ptr : Ptr) (n : Nat) (items : List Ptr) :
    ((arenaRealloc.loop ptr n items).take n).filter (· ≠ 0) =
      ((items.take n).filter (· ≠ 0)).filter (· ≠ ptr) := by
  induction items generalizing n with
  | nil => cases n <;> rfl
  | cons item items ih =>
    cases n with
    | zero => rfl
    | succ n =>
      rw [arenaRealloc.loop, List.take_succ_cons, List.take_succ_cons, List.filter_cons, ih]
      by_cases hnull : item = 0
      · by_cases heq : item = ptr
        · simp [heq, ← hnull]
        · simp [hnull]
      · by_cases heq : item = ptr
        · simp [heq]
        · simp [heq, hnull]

/-! ## One call -/

inductive Request where
  | alloc
  | realloc (ptr : Ptr)
  deriving DecidableEq, Repr

/-- A call of `arena_alloc` or `arena_realloc`, with what the C library returns in it. -/
structure Call where
  request : Request
  returned : Returned

namespace Call

def perform (c : Call) (a : Arena) : Except Failure Arena :=
  match c.request with
  | .alloc => Prod.snd <$> arenaAlloc c.returned a
  | .realloc ptr => Prod.snd <$> arenaRealloc c.returned a ptr

/-- What the call does to the blocks. -/
def act (c : Call) : Ownership.Act Ptr :=
  match c.request with
  | .alloc => .take c.returned.ptr
  | .realloc ptr => .exchange ptr c.returned.ptr

/-- `arena_realloc` gets a block that is live, and the C library has memory. A block that it returns
is at the same address as before, or distinct from what is live. -/
structure Obeys (c : Call) (a : Arena) (live : Finset Ptr) : Prop where
  allowed : c.act.Allowed live
  nonnull : c.returned.ptr ≠ 0
  distinct : c.returned.ptr ≠ a.items
  grown : a.size = a.cap → c.returned.Grown a (c.act.live live)

end Call

/-- The arena has some of the live blocks in its array, each once. -/
structure Arena.Holds (a : Arena) (live kept : Finset Ptr) : Prop where
  sound : a.Sound
  nodup : a.entries.Nodup
  mem : ∀ p, p ∈ a.entries ↔ p ∈ kept
  subset : kept ⊆ live
  null : 0 ∉ live
  nonnull : a.items ≠ 0
  distinct : a.items ∉ live

theorem Call.mem_live {c : Call} {p : Ptr} (h : p ∈ c.act.live live) :
    p = c.returned.ptr ∨ p ∈ live := by
  obtain ⟨request, returned⟩ := c
  cases request with
  | alloc => exact Finset.mem_insert.mp h
  | realloc ptr => exact (Finset.mem_insert.mp h).imp_right Finset.mem_of_mem_erase

theorem nodup_snoc {l : List Ptr} (h : l.Nodup) (hp : ptr ∉ l) : (l ++ [ptr]).Nodup := by
  rw [← List.concat_eq_append, List.nodup_concat]
  exact ⟨hp, h⟩

theorem Arena.entries_append (hp : ptr ≠ 0)
    (h : a'.memory.take a'.size = a.memory.take a.size ++ [ptr]) :
    a'.entries = a.entries ++ [ptr] := by
  rw [Arena.entries, h, List.filter_append, List.filter_singleton]
  simp [Arena.entries, hp]

/-- The new block is put down. -/
theorem Arena.Holds.arenaAlloc (h : a.Holds live kept)
    (hc : (⟨.alloc, r⟩ : Call).Obeys a live) : ∃ a', arenaAlloc r a = .ok (r.ptr, a') ∧ a'.Sound ∧
      a'.entries = a.entries ++ [r.ptr] ∧
      (a'.items = a.items ∨ a.size = a.cap ∧ a'.items = r.items) := by
  obtain ⟨a', hok, hsound, htake, hitems⟩ := h.sound.append hc.grown r.ptr
  refine ⟨a', ?_, hsound, Arena.entries_append hc.nonnull htake, hitems⟩
  rw [Seron.arenaAlloc, hok]
  rfl

/-- The new block is put down, and then the old one is removed, even if it is the new one too. -/
theorem Arena.Holds.arenaRealloc (h : a.Holds live kept)
    (hc : (⟨.realloc ptr, r⟩ : Call).Obeys a live) :
    ∃ a', arenaRealloc r a ptr = .ok (r.ptr, a') ∧ a'.Sound ∧
      a'.entries = (a.entries ++ [r.ptr]).filter (· ≠ ptr) ∧
      (a'.items = a.items ∨ a.size = a.cap ∧ a'.items = r.items) := by
  obtain ⟨a', hok, hsound, htake, hitems⟩ := h.sound.append hc.grown r.ptr
  refine ⟨{ a' with memory := arenaRealloc.loop ptr a'.size a'.memory }, ?_, ?_, ?_, hitems⟩
  · rw [Seron.arenaRealloc, hok]
    rfl
  · exact ⟨hsound.size_le, (arenaRealloc_loop_length ..).trans hsound.room, hsound.cap_pos,
      hsound.bounded⟩
  · rw [← Arena.entries_append hc.nonnull htake]
    exact arenaRealloc_loop_entries ptr a'.size a'.memory

theorem Arena.Holds.perform {c : Call} (h : a.Holds live kept) (hc : c.Obeys a live) :
    ∃ a', c.perform a = .ok a' ∧ a'.Sound ∧ a'.entries.Nodup ∧
      (∀ p, p ∈ a'.entries ↔ p ∈ c.act.kept kept) ∧
      (a'.items = a.items ∨ a.size = a.cap ∧ a'.items = c.returned.items) := by
  obtain ⟨request, r⟩ := c
  cases request with
  | alloc =>
    obtain ⟨a', hok, hsound, hentries, hitems⟩ := h.arenaAlloc hc
    have hfresh : r.ptr ∉ a.entries := fun hmem => hc.allowed (h.subset ((h.mem _).mp hmem))
    refine ⟨a', ?_, hsound, ?_, fun p => ?_, hitems⟩
    · simp only [Call.perform, hok]
      rfl
    · rw [hentries]
      exact nodup_snoc h.nodup hfresh
    · rw [hentries, List.mem_append, List.mem_singleton, h.mem, or_comm]
      exact Finset.mem_insert.symm
  | realloc ptr =>
    obtain ⟨a', hok, hsound, hentries, hitems⟩ := h.arenaRealloc hc
    obtain ⟨hlive, hmoved⟩ := hc.allowed
    refine ⟨a', ?_, hsound, ?_, fun p => ?_, hitems⟩
    · simp only [Call.perform, hok]
      rfl
    · rw [hentries]
      rcases hmoved with heq | hfresh
      · have hsame : r.ptr = ptr := heq
        rw [List.filter_append, hsame, List.filter_singleton]
        simpa using h.nodup.filter _
      · have hfresh : r.ptr ∉ a.entries := fun hmem => hfresh (h.subset ((h.mem _).mp hmem))
        exact (nodup_snoc h.nodup hfresh).filter _
    · rw [hentries, List.mem_filter, List.mem_append, List.mem_singleton, h.mem, decide_eq_true_eq,
        and_comm, or_comm, ← Finset.mem_insert]
      exact Finset.mem_erase.symm

/-- A call is performed, and the array stays apart from the blocks. -/
theorem Arena.Holds.step {c : Call} (h : a.Holds live kept) (hc : c.Obeys a live) :
    ∃ a', c.perform a = .ok a' ∧ a'.Holds (c.act.live live) (c.act.kept kept) := by
  obtain ⟨a', hok, hsound, hnodup, hmem, hitems⟩ := h.perform hc
  have hbefore {p : Ptr} (hp : p ∉ live) (hne : c.returned.ptr ≠ p) : p ∉ c.act.live live := by
    intro hmem
    rcases Call.mem_live hmem with rfl | hmem
    · exact hne rfl
    · exact hp hmem
  have hold := hbefore h.distinct hc.distinct
  refine ⟨a', hok, hsound, hnodup, hmem, ?_, hbefore h.null hc.nonnull, ?_, ?_⟩
  · exact Ownership.Act.kept_subset h.subset
  · rcases hitems with hitems | ⟨hfull, hitems⟩
    · exact hitems ▸ h.nonnull
    · exact hitems ▸ (hc.grown hfull).nonnull
  · rcases hitems with hitems | ⟨hfull, hitems⟩
    · exact hitems ▸ hold
    · rcases (hc.grown hfull).distinct with hsame | hdistinct
      · rw [hitems, hsame]
        exact hold
      · exact hitems ▸ hdistinct

/-! ## Runs -/

/-- The arena after a sequence of calls, and the blocks that are live then. -/
inductive Arena.Reached : List Call → Arena → Finset Ptr → Prop
  | init {items : Ptr} {memory : List Ptr} : items ≠ 0 → memory.length = 5 →
    Reached [] (arenaInit items memory) ∅
  | call {calls : List Call} {a a' : Arena} {live : Finset Ptr} {c : Call} :
    Reached calls a live → c.Obeys a live → c.perform a = .ok a' →
    Reached (calls ++ [c]) a' (c.act.live live)

variable {calls : List Call}

/-- The array holds what the keeper of the same acts keeps. -/
theorem Arena.Reached.holds (h : Arena.Reached calls a live) :
    ∃ kept, Ownership.Run (calls.map Call.act) live kept ∧ a.Holds live kept := by
  induction h with
  | @init items memory hitems hmemory =>
    have hsound : (arenaInit items memory).Sound :=
      ⟨Nat.zero_le _, hmemory, Nat.zero_lt_succ 4, show 5 * sizeofPtr < 2 ^ 63 by decide⟩
    have hempty : ∀ p, p ∈ (arenaInit items memory).entries ↔ p ∈ (∅ : Finset Ptr) :=
      fun p => iff_of_false List.not_mem_nil (Finset.notMem_empty p)
    exact ⟨∅, .nil, hsound, List.nodup_nil, hempty, Finset.Subset.refl ∅, Finset.notMem_empty _,
      hitems, Finset.notMem_empty _⟩
  | @call calls a a' live c _ hc hok ih =>
    obtain ⟨kept, hrun, hholds⟩ := ih
    obtain ⟨a'', hok', hholds'⟩ := hholds.step hc
    cases hok.symm.trans hok'
    refine ⟨_, ?_, hholds'⟩
    rw [List.map_append]
    exact hrun.snoc hc.allowed

/-- The beginning of a run is a run. -/
theorem Arena.Reached.of_prefix (h : Arena.Reached calls a live) {calls' : List Call}
    (hfront : calls' <+: calls) : ∃ a' live', Arena.Reached calls' a' live' := by
  induction h with
  | init hitems hmemory =>
    rw [List.prefix_nil.mp hfront]
    exact ⟨_, _, .init hitems hmemory⟩
  | call h hc hok ih =>
    rcases List.prefix_concat_iff.mp hfront with heq | hfront
    · rw [heq]
      exact ⟨_, _, h.call hc hok⟩
    · exact ih hfront

/-- What is live after the last call of a run. -/
theorem Arena.Reached.last {c : Call} (h : Arena.Reached (calls ++ [c]) a live) :
    ∃ live', live = c.act.live live' := by
  generalize hcalls : calls ++ [c] = calls' at h
  cases h with
  | init => simp at hcalls
  | call _ _ _ =>
    rw [List.append_singleton_inj.mp hcalls |>.2]
    exact ⟨_, rfl⟩

/-! ## What is owned, and what is freed -/

/-- The array holds the live blocks, each once, and nothing else. -/
def Arena.Owns (a : Arena) (live : Finset Ptr) : Prop :=
  a.entries.Nodup ∧ ∀ p, p ∈ a.entries ↔ p ∈ live

/-- What is freed, since `free` ignores NULL. -/
def Arena.freed (a : Arena) : List Ptr := (arenaFree a).1.filter (· ≠ 0)

/-- The live blocks and the array are freed, each once, and nothing else. -/
def Arena.FreesAll (a : Arena) (live : Finset Ptr) : Prop :=
  a.freed.Nodup ∧ ∀ p, p ∈ a.freed ↔ p ∈ live ∨ p = a.items

theorem Arena.Holds.freed (h : a.Holds live kept) : a.freed = a.entries ++ [a.items] := by
  rw [Arena.freed, arenaFree, List.filter_append, List.filter_singleton]
  simp [Arena.entries, h.nonnull]

theorem Arena.Holds.owns_iff (h : a.Holds live kept) : a.Owns live ↔ kept = live := by
  constructor
  · intro ⟨_, hmem⟩
    ext p
    rw [← h.mem, hmem]
  · intro heq
    exact ⟨h.nodup, fun p => heq ▸ h.mem p⟩

theorem Arena.Holds.freesAll_iff (h : a.Holds live kept) : a.FreesAll live ↔ a.Owns live := by
  have hitems : a.items ∉ a.entries := fun hmem => h.distinct (h.subset ((h.mem _).mp hmem))
  unfold Arena.FreesAll
  rw [h.freed]
  constructor
  · intro ⟨_, hmem⟩
    refine ⟨h.nodup, fun p => ?_⟩
    have hp := hmem p
    rw [List.mem_append, List.mem_singleton] at hp
    by_cases heq : p = a.items
    · subst heq
      exact iff_of_false hitems h.distinct
    · simpa only [heq, or_false] using hp
  · intro ⟨_, hmem⟩
    refine ⟨nodup_snoc h.nodup hitems, fun p => ?_⟩
    rw [List.mem_append, List.mem_singleton, hmem]

/-- In a state of a run, the arena owns what is live iff no live block was grown in place by the
last call that returned it. -/
theorem Arena.Reached.owns_iff (h : Arena.Reached calls a live) : a.Owns live ∧ a.FreesAll live ↔
    ∀ p ∈ live, ¬ Ownership.LastInPlace (calls.map Call.act) p := by
  obtain ⟨kept, hrun, hholds⟩ := h.holds
  rw [hholds.freesAll_iff, and_self, hholds.owns_iff, hrun.kept_eq_iff]

/-- The arena owns each live block exactly once, and `arena_free` frees each exactly once and
nothing but the array besides, in all states of a run iff the C library moved every block that was
reallocated. No call of a run fails, and the blocks that are lost in a state are those that were
last grown in place. -/
theorem arena_owns_iff (h : Arena.Reached calls a live) :
    (∀ c : Call, c.Obeys a live → ∃ a', c.perform a = .ok a') ∧
      (a.Owns live ∧ a.FreesAll live ↔
        ∀ p ∈ live, ¬ Ownership.LastInPlace (calls.map Call.act) p) ∧
      ((∀ calls' a' live', calls' <+: calls → Arena.Reached calls' a' live' →
          a'.Owns live' ∧ a'.FreesAll live') ↔ ∀ c ∈ calls, ¬ c.act.InPlace) := by
  refine ⟨fun c hc => ?_, h.owns_iff, ?_, ?_⟩
  · obtain ⟨kept, -, hholds⟩ := h.holds
    obtain ⟨a', hok, -⟩ := hholds.step hc
    exact ⟨a', hok⟩
  · intro howns c hc ⟨p, hplace⟩
    obtain ⟨before, after, rfl⟩ := List.append_of_mem hc
    have hfront : before ++ [c] <+: before ++ c :: after := ⟨after, by simp⟩
    obtain ⟨a', live', h'⟩ := h.of_prefix hfront
    have hlive : p ∈ live' := by
      obtain ⟨live, rfl⟩ := h'.last
      have hresult := c.act.result_mem_live live
      rwa [hplace] at hresult ⊢
    refine h'.owns_iff.mp (howns _ a' live' hfront h') p hlive ?_
    rw [List.map_append, List.map_singleton, Ownership.lastInPlace_snoc]
    exact .inl hplace
  · intro hmoved calls' a' live' hfront h'
    rw [h'.owns_iff]
    refine fun p _ => Ownership.not_lastInPlace fun act hact => ?_
    obtain ⟨c, hc, rfl⟩ := List.mem_map.mp hact
    exact hmoved c (hfront.subset hc)

/-- An arena in dirty memory. -/
def smallArena : Arena := arenaInit 8 [7, 7, 7, 7, 7]

/-- A block at address 16 that is reallocated once. -/
def reallocatedTo (ptr : Ptr) : List Call :=
  [⟨.alloc, ⟨16, 0, []⟩⟩, ⟨.realloc 16, ⟨ptr, 0, []⟩⟩]

def reallocatedArena (ptr : Ptr) : Arena :=
  { smallArena with size := 2, memory := [0, if ptr = 16 then 0 else ptr, 7, 7, 7] }

theorem reallocatedTo_reached {ptr : Ptr} (hnull : ptr ≠ 0) (hitems : ptr ≠ 8) :
    Arena.Reached (reallocatedTo ptr) (reallocatedArena ptr) {ptr} := by
  have hinit : Arena.Reached [] smallArena ∅ := .init (by decide) rfl
  have hobeys : (⟨.alloc, ⟨16, 0, []⟩⟩ : Call).Obeys smallArena ∅ :=
    ⟨Finset.notMem_empty 16, by decide, by decide, nofun⟩
  have halloc : Arena.Reached [⟨.alloc, ⟨16, 0, []⟩⟩] _ {16} := hinit.call hobeys rfl
  have hallowed : (Ownership.Act.exchange 16 ptr).Allowed {16} := by
    refine ⟨Finset.mem_singleton_self 16, ?_⟩
    rw [Finset.mem_singleton]
    exact Decidable.em _
  exact halloc.call (c := ⟨.realloc 16, ⟨ptr, 0, []⟩⟩) ⟨hallowed, hnull, hitems, nofun⟩ rfl

theorem arena_owns_iff_moved : Arena.Reached (reallocatedTo 32) (reallocatedArena 32) {32} ∧
    (reallocatedArena 32).Owns {32} ∧ (reallocatedArena 32).FreesAll {32} := by
  have hreached := @reallocatedTo_reached 32 (by decide) (by decide)
  have hmoved : ∀ c ∈ reallocatedTo 32, ¬ c.act.InPlace := by
    rw [reallocatedTo, List.forall_mem_cons]
    refine ⟨Ownership.Act.not_inPlace_take 16, List.forall_mem_singleton.mpr ?_⟩
    exact mt Ownership.Act.inPlace_exchange.mp (by decide)
  obtain ⟨-, -, hruns⟩ := arena_owns_iff hreached
  exact ⟨hreached, hruns.mpr hmoved _ _ _ List.prefix_rfl hreached⟩

/-- If the library grows the block where it is, the arena has no block left, and frees only its
array. -/
theorem block_lost : Arena.Reached (reallocatedTo 16) (reallocatedArena 16) {16} ∧
    (reallocatedArena 16).entries = [] ∧ (reallocatedArena 16).freed = [8] :=
  ⟨reallocatedTo_reached (by decide) (by decide), by decide, by decide⟩

/-! ## Lists of nodes -/

/-- The arrays of the lists are live blocks, and no two lists share one. -/
structure ListsLive (lists : List NodeArray) (live : Finset Ptr) : Prop where
  nodup : (lists.map NodeArray.items).Nodup
  live : ∀ list ∈ lists, list.items ∈ live

variable {before after lists : List NodeArray} {list list' : NodeArray}

theorem arenaAlloc_ptr (h : arenaAlloc r a = .ok (ptr, a')) : ptr = r.ptr := by
  obtain ⟨a₁, -, h⟩ := Except.bind_ok.mp h
  cases h
  rfl

theorem arenaRealloc_ptr {old : Ptr} (h : arenaRealloc r a old = .ok (ptr, a')) :
    ptr = r.ptr := by
  obtain ⟨a₁, -, h⟩ := Except.bind_ok.mp h
  cases h
  rfl

theorem ListsLive.init (h : ListsLive lists live) (hfresh : r.ptr ∉ live)
    (hinit : astnodelistInit r a = .ok (list, a')) :
    ListsLive (lists ++ [list]) ((Call.mk .alloc r).act.live live) := by
  obtain ⟨⟨items, a₁⟩, halloc, hinit⟩ := Except.bind_ok.mp hinit
  cases hinit
  rw [arenaAlloc_ptr halloc]
  constructor
  · rw [List.map_append, List.map_singleton]
    refine nodup_snoc h.nodup fun hmem => hfresh ?_
    obtain ⟨list, hlist, hitems⟩ := List.mem_map.mp hmem
    have hlive := h.live list hlist
    rwa [hitems] at hlive
  · intro list hlist
    rcases List.mem_append.mp hlist with hlist | hlist
    · exact Finset.mem_insert_of_mem (h.live list hlist)
    · rw [List.mem_singleton.mp hlist]
      exact Finset.mem_insert_self ..

/-- A list that grows reallocates a live block, so that `arena_realloc` is called as it must be. -/
theorem ListsLive.append (h : ListsLive (before ++ list :: after) live)
    (hmoved : r.ptr = list.items ∨ r.ptr ∉ live) (hfull : list.size = list.cap)
    (happend : astnodelistAppend r a list = .ok (list', a')) :
    (Call.mk (.realloc list.items) r).act.Allowed live ∧
      (Call.mk (.realloc list.items) r).perform a = .ok a' ∧
      ListsLive (before ++ list' :: after)
        ((Call.mk (.realloc list.items) r).act.live live) := by
  have hlive := h.live list (List.mem_append_right _ List.mem_cons_self)
  rw [astnodelistAppend, if_pos hfull] at happend
  obtain ⟨⟨items, a₁⟩, hrealloc, happend⟩ := Except.bind_ok.mp happend
  cases happend
  have hperform : (Call.mk (.realloc list.items) r).perform a = .ok a' := by
    simp only [Call.perform, hrealloc]
    rfl
  refine ⟨⟨hlive, hmoved⟩, hperform, ?_⟩
  rw [arenaRealloc_ptr hrealloc]
  obtain ⟨hnodup, hlists⟩ := h
  rw [List.map_append, List.map_cons, List.nodup_middle, List.nodup_cons, ← List.map_append]
    at hnodup
  have hothers : ∀ other ∈ before ++ after, other.items ∈ live.erase list.items := by
    intro other hother
    have hne : other.items ≠ list.items := fun heq =>
      hnodup.1 (heq ▸ List.mem_map_of_mem hother)
    refine Finset.mem_erase.mpr ⟨hne, hlists other ?_⟩
    rw [List.mem_append, List.mem_cons] at *
    exact hother.imp_right .inr
  constructor
  · rw [List.map_append, List.map_cons, List.nodup_middle, List.nodup_cons, ← List.map_append]
    refine ⟨fun hmem => ?_, hnodup.2⟩
    obtain ⟨other, hother, heq⟩ := List.mem_map.mp hmem
    have hitems := Finset.mem_erase.mp (hothers other hother)
    rw [heq] at hitems
    exact hmoved.elim hitems.1 fun hfresh => hfresh hitems.2
  · intro other hother
    rw [List.mem_append, List.mem_cons, or_left_comm] at hother
    rcases hother with rfl | hother
    · exact Finset.mem_insert_self ..
    · exact Finset.mem_insert_of_mem (hothers other (List.mem_append.mpr hother))

end Seron
