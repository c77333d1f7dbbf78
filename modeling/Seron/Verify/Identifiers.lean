import Seron.Cstring
import Seron.Parser.Rules
import Seron.Verify.Associations
import Seron.Verify.Whitespace

/-! # Copies of identifiers

The lexer accepts identifiers of up to `MAX_IDENT_LEN` characters. The arrays they are copied to
are of different sizes, and two of them have no room for a NUL behind the longest ones. -/

namespace Seron

/-! ## Copying a name -/

variable {name : List UInt8} {n size : Nat}

theorem takeWhile_nonzero_zeros (hnul : 0 ∉ name) (k : Nat) :
    (name ++ zeros k).takeWhile (· ≠ 0) = name := by
  rw [takeWhile_nonzero hnul]
  cases k <;> simp [zeros, List.replicate_succ]

/-- As many characters as the call may copy, in an array of NULs. -/
theorem strncpyInto_zeros (hnul : 0 ∉ name) (hn : n ≤ size) :
    strncpyInto (zeros size) name n = name.take n ++ zeros (size - (name.take n).length) := by
  have hchars : name.takeWhile (· ≠ 0) = name := by
    have := takeWhile_nonzero_zeros hnul 0
    rwa [zeros, List.replicate_zero, List.append_nil] at this
  have hlen : (name.take n).length ≤ n := List.length_take_le n name
  have hzeros : n - (name.take n).length + (size - n) = size - (name.take n).length := by omega
  unfold strncpyInto zeros
  simp only [hchars, List.drop_replicate]
  rw [List.replicate_append_replicate, hzeros]

/-- The array has a NUL behind the characters unless they fill it. -/
theorem readString_copy (hnul : 0 ∉ name) (hn : n ≤ size) :
    readString (strncpyInto (zeros size) name n) =
      if (name.take n).length < size then .ok (name.take n)
      else .error (.undefined "read behind an array") := by
  have hnul' : 0 ∉ name.take n := fun h => hnul (List.mem_of_mem_take h)
  rw [strncpyInto_zeros hnul hn, readString, takeWhile_nonzero_zeros hnul']
  by_cases hlt : (name.take n).length < size
  · obtain ⟨k, hk⟩ : ∃ k, size - (name.take n).length = k + 1 :=
      ⟨size - (name.take n).length - 1, by omega⟩
    rw [hk, zeros, List.replicate_succ, if_pos (by simp), if_pos hlt]
  · have hnone : size - (name.take n).length = 0 := by omega
    rw [hnone, zeros, List.replicate_zero, List.append_nil, if_neg hnul', if_neg hlt]

/-! ## The four copies -/

theorem readString_tokenValue (hnul : 0 ∉ name) (hlen : name.length ≤ maxIdentLen)
    (rest : List UInt8) : readString (tokenValue (name ++ rest) name.length) = .ok name := by
  have hbuf : maxIdentLen < bufsiz := by decide
  have hsame : tokenValue (name ++ rest) name.length = tokenValue name name.length := by
    have hchars : name.takeWhile (· ≠ 0) = name := by
      have := takeWhile_nonzero hnul []
      rwa [List.append_nil, List.takeWhile_nil, List.append_nil] at this
    unfold tokenValue strncpyInto
    simp only [takeWhile_nonzero hnul rest, hchars, List.take_left, List.take_length]
  rw [hsame, tokenValue, readString_copy hnul (by omega), List.take_length, if_pos (by omega)]

theorem readString_paramIdent (hnul : 0 ∉ name) (hlen : name.length ≤ maxIdentLen) :
    readString (paramIdent name) = .ok name := by
  have htake : name.take (maxIdentLen + 1 - 1) = name := List.take_of_length_le hlen
  rw [paramIdent, readString_copy hnul (by omega), htake, if_pos (by omega)]

theorem readString_typeObjectName (hnul : 0 ∉ name) :
    readString (typeObjectName name) = .ok (name.take (maxIdentLen - 1)) := by
  have hlen : (name.take (maxIdentLen - 1)).length < maxIdentLen := by
    rw [List.length_take]
    exact Nat.lt_of_le_of_lt (Nat.min_le_left _ _) (by decide)
  rw [typeObjectName, readString_copy hnul (by omega), if_pos hlen]

theorem readString_entryKey (hnul : 0 ∉ name) (hlen : name.length ≤ maxIdentLen) :
    readString (entryKey name) =
      if name.length < maxIdentLen then .ok name
      else .error (.undefined "read behind an array") := by
  rw [entryKey, readString_copy hnul (Nat.le_refl _), List.take_of_length_le hlen]

/-! ## Accepted identifiers -/

/-- The lexer makes an identifier of these characters. -/
def AcceptedIdent (name : List UInt8) : Prop :=
  ∃ tok c rest tok' src, isIdentHead c = true ∧ tokenizeIdent tok c rest = .ok tok' src ∧
    tok'.kind = .literalIdent ∧ name = (c :: rest).take tok'.len

theorem ne_zero_of_isIdentTail {c : UInt8} (h : isIdentTail c = true) : c ≠ 0 := by
  rintro rfl
  cases h

theorem tokenizeIdent_len {tok tok' : Token} {c : UInt8} {rest src : List UInt8}
    (h : tokenizeIdent tok c rest = .ok tok' src) :
    tok'.len = (c :: rest).length - src.length := by
  simp only [tokenizeIdent] at h
  split at h
  · cases h
  · split at h <;> cases h <;> rfl

theorem AcceptedIdent.spec (h : AcceptedIdent name) : 0 ∉ name ∧ name.length ≤ maxIdentLen := by
  obtain ⟨tok, c, rest, tok', src, hhead, hlex, -, rfl⟩ := h
  have hlen := tokenizeIdent_len hlex
  obtain ⟨tail, rfl, htail, -, hshort⟩ := tokenizeIdent_ok hlex
  rw [length_between rfl] at hlen
  have hname : (c :: (tail ++ src)).take tok'.len = c :: tail := by
    rw [hlen, List.take_succ_cons, List.take_left]
  rw [hname]
  refine ⟨fun hmem => ?_, hshort⟩
  rcases List.mem_cons.mp hmem with heq | hmem
  · subst heq
    cases hhead
  · exact ne_zero_of_isIdentTail (htail 0 hmem) rfl

/-- All copies of the names are strings that end in their arrays, no two names look the same in
any of them, and a name that was inserted into a table is found there. -/
structure NamesKept (names : List (List UInt8)) : Prop where
  value : ∀ name ∈ names, ∀ rest, readString (tokenValue (name ++ rest) name.length) = .ok name
  ident : ∀ name ∈ names, readString (paramIdent name) = .ok name
  objectName : ∀ name ∈ names, readString (typeObjectName name) = .ok name
  key : ∀ name ∈ names, readString (entryKey name) = .ok name
  apart : ∀ copy ∈ [fun name => tokenValue name name.length, paramIdent, typeObjectName, entryKey],
    ∀ name ∈ names, ∀ name' ∈ names, copy name = copy name' → name = name'
  found : ∀ size > 0, ∀ decls : List (String × Symbol),
    (∀ decl ∈ decls, ∃ name ∈ names, decl.1 = text name) →
    ∃ ht, insertAll (hashtableInit size) decls = .ok ht ∧
      ∀ decl ∈ decls, ∃ value, hashtableGet ht decl.1 = .ok (some value)

theorem text_length : (text name).length = name.length := by
  rw [← String.length_toList, text, String.toList_ofList, List.length_map]

/-- Names are told apart by what is read. -/
theorem eq_of_readString {array : List UInt8} {name' : List UInt8}
    (h : readString array = .ok name) (h' : readString array = .ok name') : name = name' :=
  Except.ok.inj (h.symm.trans h')

theorem found_of_terminated (hsize : 0 < size) {decls : List (String × Symbol)}
    (h : ∀ decl ∈ decls, Terminated decl.1) :
    ∃ ht, insertAll (hashtableInit size) decls = .ok ht ∧
      ∀ decl ∈ decls, ∃ value, hashtableGet ht decl.1 = .ok (some value) := by
  obtain ⟨ht, hall, hht⟩ := (@Represents.init _ hsize).insertAll h
  refine ⟨ht, hall, fun decl hdecl => ?_⟩
  rw [hht.get, Chaining.get_insertAll_empty]
  obtain ⟨value, hvalue⟩ := Shadowing.exists_lookup (List.mem_map_of_mem hdecl)
  exact ⟨value, by rw [hvalue]⟩

/-- The identifiers that the lexer accepts fit everywhere if they do not reach the longest length,
and only then. -/
theorem names_kept_iff {names : List (List UInt8)} (h : ∀ name ∈ names, AcceptedIdent name) :
    NamesKept names ↔ ∀ name ∈ names, name.length < maxIdentLen := by
  constructor
  · intro hkept name hmem
    obtain ⟨hnul, hlen⟩ := (h name hmem).spec
    have hkey := hkept.key name hmem
    rw [readString_entryKey hnul hlen] at hkey
    by_contra hlong
    rw [if_neg hlong] at hkey
    cases hkey
  · intro hshort
    have value : ∀ name ∈ names, ∀ rest,
        readString (tokenValue (name ++ rest) name.length) = .ok name := fun name hmem rest =>
      readString_tokenValue (h name hmem).spec.1 (h name hmem).spec.2 rest
    have ident : ∀ name ∈ names, readString (paramIdent name) = .ok name := fun name hmem =>
      readString_paramIdent (h name hmem).spec.1 (h name hmem).spec.2
    have objectName : ∀ name ∈ names, readString (typeObjectName name) = .ok name := by
      intro name hmem
      have hle : name.length ≤ maxIdentLen - 1 := Nat.le_sub_one_of_lt (hshort name hmem)
      rw [readString_typeObjectName (h name hmem).spec.1, List.take_of_length_le hle]
    have key : ∀ name ∈ names, readString (entryKey name) = .ok name := by
      intro name hmem
      rw [readString_entryKey (h name hmem).spec.1 (h name hmem).spec.2, if_pos (hshort name hmem)]
    refine ⟨value, ident, objectName, key, ?_, ?_⟩
    · intro copy hcopy name hmem name' hmem' heq
      have hread : ∀ n ∈ names, readString (copy n) = .ok n := by
        intro n hn
        simp only [List.mem_cons, List.not_mem_nil, or_false] at hcopy
        rcases hcopy with rfl | rfl | rfl | rfl
        · have := value n hn []
          rwa [List.append_nil] at this
        · exact ident n hn
        · exact objectName n hn
        · exact key n hn
      have hname := hread name hmem
      rw [heq] at hname
      exact eq_of_readString hname (hread name' hmem')
    · intro size hsize decls hdecls
      apply found_of_terminated hsize
      intro decl hdecl
      obtain ⟨name, hmem, heq⟩ := hdecls decl hdecl
      rw [heq, Terminated, text_length]
      exact hshort name hmem

/-- Two names that begin alike, and one that just fits. -/
def shortNames : List (List UInt8) := [bytes "main", bytes "maze", List.replicate 63 97]

theorem shortNames_accepted : ∀ name ∈ shortNames, AcceptedIdent name := by
  intro name hmem
  simp only [shortNames, List.mem_cons, List.not_mem_nil, or_false] at hmem
  rcases hmem with rfl | rfl | rfl
  · exact ⟨{ kind := .invalid, position := 0 }, 109, bytes "ain() \x7b", _, _, rfl, rfl, rfl, rfl⟩
  · exact ⟨{ kind := .invalid, position := 0 }, 109, bytes "aze;", _, _, rfl, rfl, rfl, rfl⟩
  · exact ⟨{ kind := .invalid, position := 0 }, 97, List.replicate 62 97, _, _, rfl, rfl, rfl, rfl⟩

theorem names_kept_iff_shortNames :
    (∀ name ∈ shortNames, AcceptedIdent name) ∧ NamesKept shortNames :=
  ⟨shortNames_accepted, (names_kept_iff shortNames_accepted).mpr (by decide)⟩

/-- An identifier of the longest length. -/
def longestName : List UInt8 := List.replicate maxIdentLen 97

/-- It is accepted, but its key has no NUL, so that the lookup reads on behind it, and as the name of
a type it is cut off. -/
theorem longest_name_lost :
    AcceptedIdent longestName ∧
      readString (entryKey longestName) = .error (.undefined "read behind an array") ∧
      readString (typeObjectName longestName) = .ok (List.replicate 63 97) ∧
      ∃ ht, hashtableInsert (hashtableInit 50) (text longestName) ⟨.variable, .int, 4⟩ =
        .ok (ht, 0) ∧
        hashtableGet ht (text longestName) = .error (.undefined "read behind a key") := by
  have haccepted : AcceptedIdent longestName :=
    ⟨{ kind := .invalid, position := 0 }, 97, List.replicate 63 97, _, _, rfl, rfl, rfl, rfl⟩
  obtain ⟨ht, hins⟩ : ∃ ht, hashtableInsert (hashtableInit 50) (text longestName)
      ⟨.variable, .int, 4⟩ = .ok (ht, 0) := ⟨_, rfl⟩
  have hbinds : Binds ht [(text longestName, ⟨.variable, .int, 4⟩)] :=
    (Binds.insert (@Binds.init none) hins).1
  refine ⟨haccepted, by decide, by decide, ht, hins, ?_⟩
  have hlong : maxIdentLen ≤ (text longestName).length := by
    rw [text_length]
    exact Nat.le_refl _
  rw [hbinds.get_long hlong, if_pos ⟨_, List.mem_singleton_self _, rfl, rfl⟩]

end Seron
