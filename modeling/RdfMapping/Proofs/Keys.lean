/-
# Lists with keys

Tables, indices and names are lists of pairs in which a value is looked up by its key, and the order
of the keys is often that in which they come first.
-/
import Mathlib.Data.List.Nodup

namespace RdfMapping

variable {κ α : Type} [BEq κ] [LawfulBEq κ] {k : κ} {a : α}

/-- Where no key comes twice, look-up finds just the pairs of the list. -/
theorem lookup_eq_some_iff_mem {bs : List (κ × α)} (hbs : (bs.map Prod.fst).Nodup) :
    bs.lookup k = some a ↔ (k, a) ∈ bs := by
  rw [List.lookup_eq_some_iff]
  constructor
  · rintro ⟨before, after, rfl, -⟩
    exact List.mem_append_right _ (List.mem_cons_self ..)
  · intro hmem
    obtain ⟨before, after, rfl⟩ := List.append_of_mem hmem
    refine ⟨before, after, rfl, fun p hp => ?_⟩
    rw [List.map_append, List.nodup_append] at hbs
    have hne : p.1 ≠ k := hbs.2.2 _ (List.mem_map_of_mem hp) _ (List.mem_cons_self ..)
    simpa using hne.symm

theorem isSome_lookup_iff {bs : List (κ × α)} :
    (bs.lookup k).isSome = true ↔ k ∈ bs.map Prod.fst := by
  rw [List.lookup_isSome_iff, List.mem_map]
  exact exists_congr fun p => and_congr_right fun _ => beq_iff_eq.trans eq_comm

/-! ## First occurrences -/

theorem eraseDups_eq_self {l : List κ} (h : l.Nodup) : l.eraseDups = l := by
  induction l with
  | nil => rfl
  | cons n rest ih =>
    obtain ⟨hn, hrest⟩ := List.nodup_cons.1 h
    have hfilter : rest.filter (fun m => !m == n) = rest := by
      rw [List.filter_eq_self]
      rintro m hm
      have hne : m ≠ n := fun heq => hn (heq ▸ hm)
      simpa using hne
    rw [List.eraseDups_cons, hfilter, ih hrest]

/-- Each element is kept once. -/
theorem nodup_eraseDups (l : List κ) : l.eraseDups.Nodup := by
  -- the recursion goes on with the elements that differ from the first
  induction hn : l.length using Nat.strongRecOn generalizing l with
  | ind n ih =>
    cases l with
    | nil => simp
    | cons a rest =>
      rw [List.eraseDups_cons, List.nodup_cons, List.mem_eraseDups, List.mem_filter]
      refine ⟨fun h => by simp at h, ih _ ?_ _ rfl⟩
      have hle := List.length_filter_le (fun b => !b == a) rest
      rw [List.length_cons] at hn
      omega

theorem eraseDups_concat (l : List κ) (k : κ) :
    (l ++ [k]).eraseDups = if k ∈ l then l.eraseDups else l.eraseDups ++ [k] := by
  rw [List.eraseDups_append]
  by_cases hk : k ∈ l <;> simp [List.removeAll, hk, List.eraseDups_cons]

end RdfMapping
