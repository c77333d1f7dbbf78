import Seron.Theory.Shadowing
import Mathlib.Data.List.Nodup
import Mathlib.Logic.Function.Basic

/-! # Separate chaining

A map kept as chains of entries, one for each value of a hash function. An entry is found by
walking along the chain of its key, and a key that is there already is not inserted again. -/

namespace Seron

/-- Chains of entries without duplicate keys, each key in the chain of its hash. -/
structure Chaining (κ β : Type) (n : Nat) (hash : κ → Fin n) where
  chains : Fin n → List (κ × β)
  nodup : ∀ i, ((chains i).map Prod.fst).Nodup
  placed : ∀ i, ∀ e ∈ chains i, hash e.1 = i

namespace Chaining

variable {κ β : Type} {n : Nat} {hash : κ → Fin n}

/-- No entries at all. -/
def empty : Chaining κ β n hash where
  chains _ := []
  nodup _ := List.nodup_nil
  placed _ := List.forall_mem_nil _

variable [DecidableEq κ]

/-- The value of the first entry with the key, in the chain of the key. -/
def get (c : Chaining κ β n hash) (key : κ) : Option β := (c.chains (hash key)).lookup key

theorem get_eq_none {c : Chaining κ β n hash} {key : κ} :
    c.get key = none ↔ key ∉ (c.chains (hash key)).map Prod.fst :=
  Shadowing.lookup_eq_none

/-- An entry behind the others of its chain. -/
def append (c : Chaining κ β n hash) (key : κ) (value : β) (h : c.get key = none) :
    Chaining κ β n hash where
  chains := Function.update c.chains (hash key) (c.chains (hash key) ++ [(key, value)])
  nodup i := by
    by_cases hi : i = hash key
    · rw [hi, Function.update_self, List.map_append, List.map_singleton]
      apply List.Nodup.append (c.nodup _) (List.nodup_singleton _)
      intro k hk hk'
      rw [List.mem_singleton.mp hk'] at hk
      exact get_eq_none.mp h hk
    · rw [Function.update_of_ne hi]
      exact c.nodup i
  placed i e he := by
    by_cases hi : i = hash key
    · rw [hi, Function.update_self] at he
      rcases List.mem_append.mp he with he | he
      · exact (c.placed _ e he).trans hi.symm
      · rw [List.mem_singleton.mp he, hi]
    · rw [Function.update_of_ne hi] at he
      exact c.placed i e he

/-- The first value that is inserted for a key stays. -/
def insert (c : Chaining κ β n hash) (key : κ) (value : β) : Chaining κ β n hash :=
  if h : c.get key = none then c.append key value h else c

theorem insert_of_get {c : Chaining κ β n hash} {key : κ} {v value : β}
    (h : c.get key = some v) : c.insert key value = c := by
  rw [insert, dif_neg (by simp [h])]

theorem insert_chains {c : Chaining κ β n hash} {key : κ} {value : β} (h : c.get key = none) :
    (c.insert key value).chains =
      Function.update c.chains (hash key) (c.chains (hash key) ++ [(key, value)]) := by
  rw [insert, dif_pos h]
  rfl

theorem get_insert_self (c : Chaining κ β n hash) (key : κ) (value : β) :
    (c.insert key value).get key = some ((c.get key).getD value) := by
  cases h : c.get key with
  | some v => rw [insert_of_get h, h, Option.getD_some]
  | none =>
    have hnone : (c.chains (hash key)).lookup key = none := h
    rw [get, insert_chains h, Function.update_self, List.lookup_append, hnone]
    simp

theorem get_insert_of_ne (c : Chaining κ β n hash) {key k : κ} (value : β) (hne : k ≠ key) :
    (c.insert key value).get k = c.get k := by
  cases h : c.get key with
  | some v => rw [insert_of_get h]
  | none =>
    rw [get, insert_chains h]
    by_cases hk : hash k = hash key
    · rw [hk, Function.update_self, List.lookup_append, List.lookup_cons,
        beq_eq_false_iff_ne.mpr hne, List.lookup_nil, Option.or_none, get, hk]
    · rw [Function.update_of_ne hk, get]

/-- All entries of a list, one after the other. -/
def insertAll (c : Chaining κ β n hash) (entries : List (κ × β)) : Chaining κ β n hash :=
  entries.foldl (fun c e => c.insert e.1 e.2) c

theorem get_insertAll (c : Chaining κ β n hash) (entries : List (κ × β)) (key : κ) :
    (c.insertAll entries).get key = (c.get key).or (entries.lookup key) := by
  induction entries generalizing c with
  | nil => simp [insertAll]
  | cons e entries ih =>
    have hstep : c.insertAll (e :: entries) = (c.insert e.1 e.2).insertAll entries := rfl
    rw [hstep, ih, List.lookup_cons]
    by_cases hkey : key = e.1
    · subst hkey
      rw [get_insert_self, beq_self_eq_true]
      cases c.get e.1 <;> rfl
    · rw [get_insert_of_ne _ _ hkey, beq_eq_false_iff_ne.mpr hkey]

/-- The chains answer as the list of all insertions, of which the first one counts. -/
theorem get_insertAll_empty (entries : List (κ × β)) (key : κ) :
    ((empty : Chaining κ β n hash).insertAll entries).get key = entries.lookup key := by
  rw [get_insertAll]
  exact Option.none_or

/-- The keys of the entries are the keys that were inserted. -/
theorem mem_insert {c : Chaining κ β n hash} {key : κ} {value : β} {i : Fin n} {e : κ × β}
    (h : e ∈ (c.insert key value).chains i) : e ∈ c.chains i ∨ e = (key, value) := by
  cases hget : c.get key with
  | some v =>
    rw [insert_of_get hget] at h
    exact .inl h
  | none =>
    rw [insert_chains hget] at h
    by_cases hi : i = hash key
    · rw [hi, Function.update_self] at h
      rw [hi]
      exact (List.mem_append.mp h).imp id List.mem_singleton.mp
    · rw [Function.update_of_ne hi] at h
      exact .inl h

end Chaining

end Seron
