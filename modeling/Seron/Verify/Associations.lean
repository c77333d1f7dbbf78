import Seron.Theory.Chaining
import Seron.Verify.Tables
import Mathlib.Data.List.GetD

/-! # The hash table as a finite map

The buckets of a table are the chains of a map with separate chaining, as long as every key that
was inserted fits its entry with a NUL behind it. Inserting and looking up then never fail, and
the value of a name is the one that was inserted first. -/

namespace Seron

/-- Keys that an entry keeps with a NUL behind them. -/
def Terminated (key : String) : Prop := key.length < maxIdentLen

instance (key : String) : Decidable (Terminated key) := inferInstanceAs (Decidable (_ < _))

/-- The table after a sequence of insertions, whatever each of them returned. -/
def insertAll (ht : Hashtable) : List (String × Symbol) → Except Failure Hashtable
  | [] => pure ht
  | decl :: decls => do
    let inserted ← hashtableInsert ht decl.1 decl.2
    insertAll inserted.1 decls

/-! ## Chains of entries -/

variable {decl : String × Symbol} {entries : List (String × Symbol)} {size : Nat}

theorem strcmpKey_terminated (h : Terminated decl.1) (key : String) :
    strcmpKey (entryOf decl) key.toList = .ok (key == decl.1) := by
  have hlen : decl.1.toList.length < maxIdentLen := by rwa [String.length_toList]
  have heq : (decl.1.toList == key.toList) = (key == decl.1) := by
    rw [Bool.eq_iff_iff, beq_iff_eq, beq_iff_eq, String.toList_inj, eq_comm]
  rw [strcmpKey_entryOf, if_pos hlen, heq]

theorem getChain_terminated (h : ∀ e ∈ entries, Terminated e.1) (key : String) :
    getChain key.toList (entries.map entryOf) = .ok (entries.lookup key) := by
  induction entries with
  | nil => rfl
  | cons decl entries ih =>
    obtain ⟨hdecl, hentries⟩ := List.forall_mem_cons.mp h
    rw [List.map_cons, getChain, strcmpKey_terminated hdecl, List.lookup_cons, ih hentries]
    cases key == decl.1 <;> rfl

/-- The walk stops at an entry of the key, or puts a new one at the end of the chain. -/
theorem insertChain_terminated (h : ∀ e ∈ entries, Terminated e.1) (key : String)
    (value : Symbol) :
    insertChain key.toList value (entries.map entryOf) =
      .ok (match entries.lookup key with
        | some _ => none
        | none => some ((entries ++ [(key, value)]).map entryOf)) := by
  induction entries with
  | nil => rfl
  | cons decl entries ih =>
    obtain ⟨hdecl, hentries⟩ := List.forall_mem_cons.mp h
    rw [List.map_cons, insertChain, strcmpKey_terminated hdecl, List.lookup_cons, ih hentries]
    cases key == decl.1 with
    | true => rfl
    | false => cases entries.lookup key <;> rfl

/-! ## Buckets -/

/-- The bucket of a key. -/
def bucketOf (hsize : 0 < size) (key : String) : Fin size :=
  ⟨hash size key.toList, Nat.mod_lt _ hsize⟩

/-- The buckets hold the entries of the chains. -/
structure Represents {hsize : 0 < size} (ht : Hashtable)
    (c : Chaining String Symbol size (bucketOf hsize)) : Prop where
  buckets : ht.buckets = List.ofFn fun i => (c.chains i).map entryOf
  terminated : ∀ i, ∀ e ∈ c.chains i, Terminated e.1

namespace Represents

variable {hsize : 0 < size} {ht : Hashtable} {c : Chaining String Symbol size (bucketOf hsize)}
  {key : String}

theorem init : Represents (hashtableInit size) (Chaining.empty : Chaining String Symbol size (bucketOf hsize)) where
  buckets := by
    rw [hashtableInit]
    apply List.ext_getElem
    · simp
    · intro i _ _
      simp [Chaining.empty]
  terminated _ := List.forall_mem_nil _

theorem size_eq (h : Represents ht c) : ht.size = size := by
  rw [Hashtable.size, h.buckets, List.length_ofFn]

/-- The bucket that the hash of a key selects. -/
theorem bucket (h : Represents ht c) (key : String) :
    ht.buckets.getD (hash ht.size key.toList) [] = (c.chains (bucketOf hsize key)).map entryOf := by
  have hlt : hash size key.toList < size := (bucketOf hsize key).isLt
  rw [h.size_eq, h.buckets, List.getD_eq_getElem _ _ (by simpa using hlt), List.getElem_ofFn]
  rfl

theorem get (h : Represents ht c) (key : String) : hashtableGet ht key = .ok (c.get key) := by
  rw [hashtableGet, h.bucket, getChain_terminated (h.terminated _)]
  rfl

/-- A store into the bucket of a key. -/
theorem set_bucket (h : Represents ht c) (key : String) (entries : List (String × Symbol)) :
    ht.buckets.set (hash ht.size key.toList) (entries.map entryOf) =
      List.ofFn fun i => (Function.update c.chains (bucketOf hsize key) entries i).map entryOf := by
  rw [h.size_eq, h.buckets]
  apply List.ext_getElem
  · simp
  · intro i hi _
    have hi : i < size := by simpa using hi
    rw [List.getElem_set, List.getElem_ofFn, List.getElem_ofFn]
    by_cases heq : hash size key.toList = i
    · subst heq
      have hself : Function.update c.chains (bucketOf hsize key) entries ⟨_, hi⟩ = entries :=
        Function.update_self (bucketOf hsize key) entries c.chains
      rw [if_pos rfl, hself]
    · have hne : (⟨i, hi⟩ : Fin size) ≠ bucketOf hsize key :=
        fun h => heq (congrArg Fin.val h).symm
      rw [if_neg heq, Function.update_of_ne hne]

/-- An insertion does to the buckets what it does to the chains. -/
theorem insert (h : Represents ht c) (hkey : Terminated key) (value : Symbol) :
    ∃ ht', hashtableInsert ht key value = .ok (ht', if (c.get key).isSome then -1 else 0) ∧
      Represents ht' (c.insert key value) := by
  rw [hashtableInsert, h.bucket, insertChain_terminated (h.terminated _)]
  cases hget : c.get key with
  | some v =>
    have hlookup : (c.chains (bucketOf hsize key)).lookup key = some v := hget
    rw [hlookup, Chaining.insert_of_get hget]
    exact ⟨ht, rfl, h⟩
  | none =>
    have hlookup : (c.chains (bucketOf hsize key)).lookup key = none := hget
    rw [hlookup]
    refine ⟨_, rfl, ?_, ?_⟩
    · rw [Chaining.insert_chains hget]
      exact h.set_bucket key _
    · intro i e he
      rcases Chaining.mem_insert he with he | rfl
      · exact h.terminated i e he
      · exact hkey

theorem insertAll {decls : List (String × Symbol)} (h : Represents ht c)
    (hkeys : ∀ decl ∈ decls, Terminated decl.1) :
    ∃ ht', insertAll ht decls = .ok ht' ∧ Represents ht' (c.insertAll decls) := by
  induction decls generalizing ht c with
  | nil => exact ⟨ht, rfl, h⟩
  | cons decl decls ih =>
    obtain ⟨hdecl, hdecls⟩ := List.forall_mem_cons.mp hkeys
    obtain ⟨ht₁, hins, h₁⟩ := h.insert hdecl decl.2
    obtain ⟨ht', hall, h'⟩ := ih h₁ hdecls
    refine ⟨ht', ?_, h'⟩
    rw [Seron.insertAll, hins]
    exact hall

end Represents

/-! ## The table as a map -/

/-- However the keys collide, a table of any size is the map of the first bindings: a lookup never
fails, and an insertion changes it for its own key only, if that was not there. -/
theorem hashtable_first_binding (hsize : 0 < size) {decls : List (String × Symbol)}
    (hkeys : ∀ decl ∈ decls, Terminated decl.1) :
    ∃ ht, insertAll (hashtableInit size) decls = .ok ht ∧
      (∀ k, hashtableGet ht k = .ok (decls.lookup k)) ∧
      ∀ key value, Terminated key → ∃ ht' r, hashtableInsert ht key value = .ok (ht', r) ∧
        (r = -1 ∧ key ∈ decls.map Prod.fst ∧ (∀ k, hashtableGet ht' k = hashtableGet ht k) ∨
          r = 0 ∧ key ∉ decls.map Prod.fst ∧ hashtableGet ht' key = .ok (some value) ∧
            ∀ k, k ≠ key → hashtableGet ht' k = hashtableGet ht k) := by
  obtain ⟨ht, hall, h⟩ := (@Represents.init _ hsize).insertAll hkeys
  have hget (k : String) :
      ((Chaining.empty : Chaining String Symbol size (bucketOf hsize)).insertAll decls).get k = decls.lookup k :=
    Chaining.get_insertAll_empty decls k
  refine ⟨ht, hall, fun k => by rw [h.get, hget], ?_⟩
  intro key value hkey
  obtain ⟨ht', hins, h'⟩ := h.insert hkey value
  refine ⟨ht', _, hins, ?_⟩
  rw [hget]
  cases hlookup : decls.lookup key with
  | some v =>
    have hmem : key ∈ decls.map Prod.fst := by
      by_contra hmem
      rw [Shadowing.lookup_eq_none.mpr hmem] at hlookup
      cases hlookup
    refine .inl ⟨rfl, hmem, fun k => ?_⟩
    rw [h.get, h'.get, Chaining.insert_of_get ((hget key).trans hlookup)]
  | none =>
    refine .inr ⟨rfl, Shadowing.lookup_eq_none.mp hlookup, ?_, fun k hne => ?_⟩
    · rw [h'.get, Chaining.get_insert_self, hget, hlookup, Option.getD_none]
    · rw [h.get, h'.get, Chaining.get_insert_of_ne _ _ hne]

/-- Both names collide in a table with one bucket. -/
theorem hashtable_first_binding_collision :
    0 < 1 ∧ (∀ decl ∈ [("a", (⟨.variable, .int, 4⟩ : Symbol)), ("b", ⟨.variable, .int, 8⟩)],
      Terminated decl.1) ∧
    ∃ ht, insertAll (hashtableInit 1) [("a", ⟨.variable, .int, 4⟩), ("b", ⟨.variable, .int, 8⟩)] =
      .ok ht ∧ hashtableGet ht "b" = .ok (some ⟨.variable, .int, 8⟩) := by
  have hkeys : ∀ decl ∈ [("a", (⟨.variable, .int, 4⟩ : Symbol)), ("b", ⟨.variable, .int, 8⟩)],
      Terminated decl.1 := by decide
  obtain ⟨ht, hall, hget, -⟩ := hashtable_first_binding Nat.one_pos hkeys
  exact ⟨Nat.one_pos, hkeys, ht, hall, hget "b"⟩

end Seron
