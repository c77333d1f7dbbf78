import Seron.Symboltable
import Seron.Theory.Shadowing

/-! # The symbol tables as lists of declarations

A hash table answers with the first declaration of a name that was inserted, and a chain of tables
is searched from the innermost one outwards. -/

namespace Seron

/-- Names in one bucket that agree as far as an entry keeps their characters. -/
def SameEntry (key key' : String) : Prop :=
  hash 50 key.toList = hash 50 key'.toList ∧
    key.toList.take maxIdentLen = key'.toList.take maxIdentLen

instance (key key' : String) : Decidable (SameEntry key key') :=
  inferInstanceAs (Decidable (_ ∧ _))

/-- An entry of a table for a declaration. -/
def entryOf (decl : String × Symbol) : HashtableEntry := newEntry decl.1.toList decl.2

/-! ## Chains -/

variable {key : String} {value : Symbol} {decl : String × Symbol}
  {decls entries : List (String × Symbol)}

theorem entryOf_key : (entryOf decl).key = decl.1.toList.take maxIdentLen := rfl

/-- The comparison with a name that the array of the entry holds, or holds a part of. -/
theorem strcmpKey_entryOf (key : List Char) :
    strcmpKey (entryOf decl) key =
      if decl.1.toList.length < maxIdentLen then .ok (decl.1.toList == key)
      else if key.take maxIdentLen = decl.1.toList.take maxIdentLen
      then .error (.undefined "read behind a key") else .ok false := by
  unfold strcmpKey
  rw [entryOf_key, List.length_take]
  by_cases h : decl.1.toList.length < maxIdentLen
  · rw [if_pos h, if_pos (by omega), List.take_of_length_le (Nat.le_of_lt h)]
  · rw [if_neg h, if_neg (by omega)]

theorem take_ne {key key' : List Char} (h : key.length < maxIdentLen)
    (h' : ¬ key'.length < maxIdentLen) : key.take maxIdentLen ≠ key'.take maxIdentLen := by
  intro heq
  have := congrArg List.length heq
  simp only [List.length_take] at this
  omega

theorem strcmpKey_short (h : key.length < maxIdentLen) :
    strcmpKey (entryOf decl) key.toList = .ok (key == decl.1) := by
  rw [← String.length_toList] at h
  rw [strcmpKey_entryOf]
  by_cases hlen : decl.1.toList.length < maxIdentLen
  · have heq : (decl.1.toList == key.toList) = (key == decl.1) := by
      rw [Bool.eq_iff_iff, beq_iff_eq, beq_iff_eq, String.toList_inj, eq_comm]
    rw [if_pos hlen, heq]
  · have hne : key ≠ decl.1 := by
      rintro rfl
      exact hlen h
    rw [if_neg hlen, if_neg (take_ne h hlen), beq_eq_false_iff_ne.mpr hne]

/-- Comparing the characters of an array that is full goes on behind it. -/
theorem strcmpKey_long (h : maxIdentLen ≤ key.length) :
    strcmpKey (entryOf decl) key.toList =
      if key.toList.take maxIdentLen = decl.1.toList.take maxIdentLen
      then .error (.undefined "read behind a key") else .ok false := by
  rw [← String.length_toList] at h
  rw [strcmpKey_entryOf]
  by_cases hlen : decl.1.toList.length < maxIdentLen
  · have hne : decl.1.toList ≠ key.toList := fun heq => by rw [heq] at hlen; omega
    rw [if_pos hlen, if_neg (take_ne hlen (by omega)).symm, beq_eq_false_iff_ne.mpr hne]
  · rw [if_neg hlen]

theorem getChain_short (h : key.length < maxIdentLen) :
    getChain key.toList (entries.map entryOf) = .ok (entries.lookup key) := by
  induction entries with
  | nil => rfl
  | cons decl entries ih =>
    rw [List.map_cons, getChain, strcmpKey_short h, List.lookup_cons, ih]
    cases key == decl.1 <;> rfl

theorem getChain_long (h : maxIdentLen ≤ key.length) :
    getChain key.toList (entries.map entryOf) =
      if ∃ decl ∈ entries, key.toList.take maxIdentLen = decl.1.toList.take maxIdentLen
      then .error (.undefined "read behind a key") else .ok none := by
  induction entries with
  | nil => simp [getChain]
  | cons decl entries ih =>
    rw [List.map_cons, getChain, strcmpKey_long h, ih]
    by_cases heq : key.toList.take maxIdentLen = decl.1.toList.take maxIdentLen
    · have hex : ∃ d ∈ decl :: entries,
          key.toList.take maxIdentLen = d.1.toList.take maxIdentLen := ⟨decl, by simp, heq⟩
      rw [if_pos heq, if_pos hex]
      rfl
    · rw [if_neg heq]
      simp only [heq, List.mem_cons, exists_eq_or_imp, false_or]
      rfl

/-- An insertion that does not fail adds the declaration of a new name behind the others. -/
theorem insertChain_ok {result : Option (List HashtableEntry)}
    (h : insertChain key.toList value (entries.map entryOf) = .ok result) :
    (∃ v, entries.lookup key = some v) ∧ result = none ∨
      entries.lookup key = none ∧ result = some ((entries ++ [(key, value)]).map entryOf) := by
  induction entries generalizing result with
  | nil =>
    cases h
    exact .inr ⟨rfl, rfl⟩
  | cons decl entries ih =>
    have hcmp : strcmpKey (entryOf decl) key.toList = .ok (key == decl.1) ∨
        ∃ e, strcmpKey (entryOf decl) key.toList = .error e := by
      by_cases hlen : key.length < maxIdentLen
      · exact .inl (strcmpKey_short hlen)
      · rw [strcmpKey_long (Nat.le_of_not_lt hlen)]
        by_cases heq : key.toList.take maxIdentLen = decl.1.toList.take maxIdentLen
        · rw [if_pos heq]
          exact .inr ⟨_, rfl⟩
        · have hne : key ≠ decl.1 := fun h => heq (by rw [h])
          rw [if_neg heq]
          exact .inl (by simp [hne])
    rw [List.map_cons, insertChain] at h
    obtain ⟨same, hsame, h₁⟩ := Except.bind_ok.mp h
    rcases hcmp with hcmp | ⟨e, hcmp⟩
    · cases hcmp.symm.trans hsame
      rw [List.lookup_cons]
      cases heq : key == decl.1 with
      | true =>
        rw [heq] at h₁
        cases h₁
        exact .inl ⟨⟨_, rfl⟩, rfl⟩
      | false =>
        rw [heq] at h₁
        obtain ⟨chain, hchain, h₂⟩ := Except.bind_ok.mp h₁
        cases h₂
        rcases ih hchain with ⟨hsome, rfl⟩ | ⟨hnone, rfl⟩
        · exact .inl ⟨hsome, rfl⟩
        · exact .inr ⟨hnone, rfl⟩
    · cases hcmp.symm.trans hsame

/-! ## Tables -/

/-- The table answers as if it held all the declarations, of which the first one counts. -/
structure Binds (ht : Hashtable) (decls : List (String × Symbol)) : Prop where
  size : ht.buckets.length = 50
  chain : ∀ i < 50, ∃ entries : List (String × Symbol), ht.buckets[i]? = some (entries.map entryOf) ∧
    (∀ e ∈ entries, hash 50 e.1.toList = i) ∧
    ∀ key, hash 50 key.toList = i → entries.lookup key = decls.lookup key

namespace Binds

open Shadowing

variable {ht ht' : Hashtable}

theorem init {parent : Option Nat} : Binds { hashtableInit 50 with parent } [] := by
  refine ⟨by simp [hashtableInit], fun i hi => ⟨[], ?_, nofun, fun _ _ => rfl⟩⟩
  rw [hashtableInit, List.getElem?_replicate_of_lt hi]
  rfl

theorem hash_lt (key : List Char) : hash 50 key < 50 := Nat.mod_lt _ (by omega)

theorem get_short (h : Binds ht decls) (hkey : key.length < maxIdentLen) :
    hashtableGet ht key = .ok (decls.lookup key) := by
  obtain ⟨entries, hentries, -, hlookup⟩ := h.chain _ (hash_lt key.toList)
  rw [hashtableGet, Hashtable.size, h.size, List.getD, hentries, Option.getD_some,
    getChain_short hkey, hlookup key rfl]

/-- A name that fills an array is not looked up properly: either nothing is found, or the
comparison does not stop at the end of the array. -/
theorem get_long (h : Binds ht decls) (hkey : maxIdentLen ≤ key.length) :
    hashtableGet ht key =
      if ∃ decl ∈ decls, SameEntry key decl.1 then .error (.undefined "read behind a key")
      else .ok none := by
  obtain ⟨entries, hentries, hhash, hlookup⟩ := h.chain _ (hash_lt key.toList)
  have hkeys {k : String} (hk : hash 50 k.toList = hash 50 key.toList) :
      k ∈ entries.map Prod.fst ↔ k ∈ decls.map Prod.fst :=
    not_iff_not.mp (by rw [← lookup_eq_none, ← lookup_eq_none, hlookup k hk])
  rw [hashtableGet, Hashtable.size, h.size, List.getD, hentries, Option.getD_some,
    getChain_long hkey]
  congr 1
  apply propext
  constructor
  · rintro ⟨e, he, htake⟩
    obtain ⟨d, hd, heq⟩ := List.mem_map.mp ((hkeys (hhash e he)).mp (List.mem_map_of_mem he))
    exact ⟨d, hd, by rw [heq]; exact ⟨(hhash e he).symm, htake⟩⟩
  · rintro ⟨d, hd, hsame, htake⟩
    obtain ⟨e, he, heq⟩ := List.mem_map.mp ((hkeys hsame.symm).mpr (List.mem_map_of_mem hd))
    exact ⟨e, he, by rw [heq]; exact htake⟩

theorem lookup_append_ne {k : String} (h : k ≠ key) :
    (decls ++ [(key, value)]).lookup k = decls.lookup k := by
  rw [List.lookup_append, List.lookup_cons, beq_eq_false_iff_ne.mpr h, List.lookup_nil,
    Option.or_none]

/-- An insertion adds a declaration; if the name is there already, it changes nothing. -/
theorem insert {r : Int} (h : Binds ht decls)
    (hins : hashtableInsert ht key value = .ok (ht', r)) :
    Binds ht' (decls ++ [(key, value)]) ∧ ht'.parent = ht.parent := by
  obtain ⟨entries, hentries, hhash, hlookup⟩ := h.chain _ (hash_lt key.toList)
  rw [hashtableInsert, Hashtable.size, h.size, List.getD, hentries, Option.getD_some] at hins
  obtain ⟨result, hchain, h₁⟩ := Except.bind_ok.mp hins
  rcases insertChain_ok hchain with ⟨⟨v, hv⟩, rfl⟩ | ⟨hnone, rfl⟩
  · cases h₁
    refine ⟨⟨h.size, fun i hi => ?_⟩, rfl⟩
    obtain ⟨entries', hentries', hhash', hlookup'⟩ := h.chain i hi
    refine ⟨entries', hentries', hhash', fun k hk => ?_⟩
    rw [hlookup' k hk]
    by_cases hkey : k = key
    · have hdecls : decls.lookup k = some v := by rw [hkey, ← hlookup key rfl, hv]
      rw [List.lookup_append, hdecls, Option.some_or]
    · exact (lookup_append_ne hkey).symm
  · cases h₁
    refine ⟨⟨by simp [h.size], fun i hi => ?_⟩, rfl⟩
    by_cases hi' : hash 50 key.toList = i
    · subst hi'
      refine ⟨entries ++ [(key, value)], by simp [h.size, hash_lt], ?_, fun k hk => ?_⟩
      · simpa [or_imp, forall_and] using hhash
      · rw [List.lookup_append, List.lookup_append, hlookup k hk]
    · obtain ⟨entries', hentries', hhash', hlookup'⟩ := h.chain i hi
      refine ⟨entries', by simp [hi', hentries'], hhash', fun k hk => ?_⟩
      rw [hlookup' k hk, lookup_append_ne]
      rintro rfl
      exact hi' hk

end Binds

/-! ## Chains of tables -/

/-- The declarations in a table and its parents, from the innermost table outwards. -/
inductive Chain (tables : List Hashtable) : Option Nat → List (List (String × Symbol)) → Prop
  | nil : Chain tables none []
  | cons {i : Nat} {ht : Hashtable} {decls : List (String × Symbol)}
    {rest : List (List (String × Symbol))} : tables[i]? = some ht → Binds ht decls →
    (∀ j ∈ ht.parent, j < i) → Chain tables ht.parent rest → Chain tables (some i) (decls :: rest)

namespace Chain

variable {tables : List Hashtable} {scope : Option Nat} {fuel : Nat}
  {chain : List (List (String × Symbol))}

theorem lookup_short (h : Chain tables scope chain) (hkey : key.length < maxIdentLen)
    (hfuel : ∀ i ∈ scope, i < fuel) :
    lookupChain tables key fuel scope = .ok (chain.flatten.lookup key) := by
  induction h generalizing fuel with
  | nil => simp [lookupChain]
  | @cons i ht decls rest hget hbinds hparent _ ih =>
    obtain ⟨fuel, rfl⟩ : ∃ n, fuel = n + 1 := ⟨fuel - 1, by have := hfuel i rfl; omega⟩
    have ih := @ih fuel fun j hj => by have := hparent j hj; have := hfuel i rfl; omega
    rw [lookupChain, hget, List.flatten_cons, List.lookup_append]
    simp only [hbinds.get_short hkey]
    cases decls.lookup key with
    | none => exact ih
    | some sym => rfl

theorem lookup_long (h : Chain tables scope chain) (hkey : maxIdentLen ≤ key.length)
    (hfuel : ∀ i ∈ scope, i < fuel) :
    lookupChain tables key fuel scope =
      if ∃ decl ∈ chain.flatten, SameEntry key decl.1
      then .error (.undefined "read behind a key") else .ok none := by
  induction h generalizing fuel with
  | nil => simp [lookupChain]
  | @cons i ht decls rest hget hbinds hparent _ ih =>
    obtain ⟨fuel, rfl⟩ : ∃ n, fuel = n + 1 := ⟨fuel - 1, by have := hfuel i rfl; omega⟩
    have ih := @ih fuel fun j hj => by have := hparent j hj; have := hfuel i rfl; omega
    rw [lookupChain, hget]
    simp only [hbinds.get_long hkey, List.flatten_cons, List.mem_append, or_and_right, exists_or]
    by_cases hsame : ∃ decl ∈ decls, SameEntry key decl.1
    · rw [if_pos hsame, if_pos (.inl hsame)]
      rfl
    · rw [if_neg hsame]
      simp only [hsame, false_or]
      exact ih

theorem fuel_lt (h : Chain tables scope chain) : ∀ i ∈ scope, i < tables.length + 1 := by
  cases h with
  | nil => nofun
  | cons hget =>
    rintro i ⟨⟩
    exact Nat.lt_succ_of_lt (List.getElem?_eq_some_iff.mp hget).1

/-- A lookup finds the first declaration in the chain. -/
theorem symboltableLookup_short {i : Nat} (h : Chain tables (some i) chain)
    (hkey : key.length < maxIdentLen) :
    symboltableLookup tables (some i) key = .ok (chain.flatten.lookup key) :=
  h.lookup_short hkey h.fuel_lt

theorem symboltableLookup_long {i : Nat} (h : Chain tables (some i) chain)
    (hkey : maxIdentLen ≤ key.length) :
    symboltableLookup tables (some i) key =
      if ∃ decl ∈ chain.flatten, SameEntry key decl.1
      then .error (.undefined "read behind a key") else .ok none :=
  h.lookup_long hkey h.fuel_lt

end Chain

end Seron
