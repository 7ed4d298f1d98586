/-
# Keys of mappings

The keys of a mapping in shorthand have several spellings and ignore letter case.  A
`Keyring` lists the spellings of the keys that are known in one place; `readKeys` sorts the
entries of a mapping by key and reports those that are unknown or repeated.
-/
import RdfMapping.Shorthand.Reading

namespace RdfMapping.Shorthand

open Yaml (Node Entry)

/-- The spellings of some keys, in alphabetical order, and the proper name of each key. -/
structure Keyring (κ : Type) where
  spellings : List (String × κ)
  name : κ → String

/-- The entries of a mapping by key. -/
abbrev Keyed (κ : Type) := List (κ × Entry)

namespace Keyed

/-- The entry with a key. -/
def get? {κ : Type} [BEq κ] (keys : Keyed κ) (k : κ) : Option Entry :=
  keys.lookup k

/-- The value with a key. -/
def value? {κ : Type} [BEq κ] (keys : Keyed κ) (k : κ) : Option Node :=
  (keys.get? k).map Entry.value

end Keyed

/-- The key an entry is written with, if it is known. -/
def Keyring.find? {κ : Type} (ring : Keyring κ) (e : Entry) : Option κ :=
  ring.spellings.lookup (Text.lower e.key.text)

/-- Sorts entries by key after those in `found`.  The first entry with a key counts. -/
def collectKeys {κ : Type} [BEq κ] (ring : Keyring κ) (place : Place) (found : Keyed κ) :
    List Entry → Noted (Keyed κ)
  | [] => pure found
  | e :: rest =>
    match ring.find? e with
    | none => do
      note (.unknownKey e.key.text (ring.spellings.map Prod.fst)) (some e.key) place
      collectKeys ring place found rest
    | some k =>
      if (found.get? k).isSome then do
        note (.repeatedKey e.key.text (ring.name k)) (some e.key) place
        collectKeys ring place found rest
      else collectKeys ring place (found ++ [(k, e)]) rest

/-- The entries of a mapping by key. -/
def readKeys {κ : Type} [BEq κ] (ring : Keyring κ) (n : Node) (place : Place) :
    Noted (Keyed κ) :=
  collectKeys ring place [] n.entries

theorem mem_of_collectKeys {κ : Type} [BEq κ] (ring : Keyring κ) (place : Place)
    (found : Keyed κ) (es : List Entry) {p : κ × Entry}
    (h : p ∈ (collectKeys ring place found es).value) : p ∈ found ∨ p.2 ∈ es := by
  induction es generalizing found with
  | nil => exact Or.inl h
  | cons e rest ih =>
    simp only [collectKeys] at h
    split at h
    · exact (ih found h).imp_right (List.mem_cons_of_mem e)
    · split at h
      · exact (ih found h).imp_right (List.mem_cons_of_mem e)
      · rcases ih _ h with h | h
        · rcases List.mem_append.1 h with h | h
          · exact Or.inl h
          · rw [List.mem_singleton.1 h]
            exact Or.inr (List.mem_cons_self ..)
        · exact Or.inr (List.mem_cons_of_mem e h)

theorem mem_of_lookup_eq_some {κ : Type} [BEq κ] {keys : Keyed κ} {k : κ} {e : Entry}
    (h : keys.get? k = some e) : ∃ k', (k', e) ∈ keys := by
  induction keys with
  | nil => simp [Keyed.get?] at h
  | cons p rest ih =>
    obtain ⟨k', e'⟩ := p
    simp only [Keyed.get?, List.lookup_cons] at h
    split at h
    · cases h
      exact ⟨k', List.mem_cons_self ..⟩
    · obtain ⟨k'', hk⟩ := ih h
      exact ⟨k'', List.mem_cons_of_mem _ hk⟩

/-- A value found by its key is smaller than the mapping. -/
theorem size_value?_lt {κ : Type} [BEq κ] {ring : Keyring κ} {n m : Node} {place : Place} {k : κ}
    (h : (readKeys ring n place).value.value? k = some m) : m.size < n.size := by
  obtain ⟨e, he, rfl⟩ := Option.map_eq_some_iff.1 h
  obtain ⟨k', hk⟩ := mem_of_lookup_eq_some he
  rcases mem_of_collectKeys ring place [] n.entries hk with h | h
  · simp at h
  · exact Node.size_value_lt h

end RdfMapping.Shorthand
