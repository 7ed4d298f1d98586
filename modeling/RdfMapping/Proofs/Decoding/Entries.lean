/-
# Entries of function values

Nothing is wrong with the entries of a function value if each can be read and at most one of them
names the function.  Read so, they do not depend on the place of the one that names it.
-/
import RdfMapping.Proofs.Decoding.Notes

namespace RdfMapping.RuleGraph

open Mapping
open Rdf (Term Quad)

variable {pom : PredicateObjectMap} {x : FunctionEntry} {k : Constant} {n : Term} {f : String}

/-! ## Single entries -/

/-- The entry a predicate-object map stands for, wherever it stands. -/
def entryOfPair (pom : PredicateObjectMap) : Option FunctionEntry :=
  match pom.predicates, pom.objects, pom.graphs with
  | [predicate], [object], [] =>
    match constantIri? predicate with
    | none => none
    | some iri =>
      if iri ≠ Property.executes then some (.parameter ⟨iri, object⟩)
      else (constantIri? object).map .executes
  | _, _, _ => none

/-- An entry has one predicate and one object, and goes to no graph. -/
theorem shape_of_entryOfPair (h : entryOfPair pom = some x) :
    ∃ p o, pom.predicates = [p] ∧ pom.objects = [o] ∧ pom.graphs = [] := by
  unfold entryOfPair at h
  split at h
  · next p o hp ho hg => exact ⟨p, o, hp, ho, hg⟩
  · cases h

/-- The names given so far. -/
def namedSoFar (name : String) : List String :=
  if name = "" then [] else [name]

/-- An entry can be used unless it names the function a second time. -/
theorem entryOf_cases (c : Context) (name : String) (pom : PredicateObjectMap) (path : String) :
    (∃ x, entryOfPair pom = some x ∧ (namedSoFar name ++ x.executes?.toList).length ≤ 1 ∧
      entryOf c name pom path = pure x) ∨
    (∃ f, entryOf c name pom path = c.refuse f path) ∧
      ∀ x, entryOfPair pom = some x → 1 < (namedSoFar name ++ x.executes?.toList).length := by
  obtain ⟨span, predicates, objects, graphs⟩ := pom
  by_cases hshape : ∃ predicate object, predicates = [predicate] ∧ objects = [object] ∧ graphs = []
  · obtain ⟨predicate, object, rfl, rfl, rfl⟩ := hshape
    simp only [entryOf, entryOfPair]
    cases constantIri? predicate with
    | none => exact .inr ⟨⟨_, rfl⟩, by simp⟩
    | some iri =>
      by_cases hiri : iri ≠ Property.executes
      · refine .inl ⟨_, if_pos hiri, ?_, if_pos hiri⟩
        unfold namedSoFar
        split <;> simp [FunctionEntry.executes?]
      · simp only [if_neg hiri]
        cases constantIri? object with
        | none => exact .inr ⟨⟨_, rfl⟩, by simp⟩
        | some function =>
          by_cases hname : name = ""
          · refine .inl ⟨_, rfl, ?_, if_neg (not_not_intro hname)⟩
            simp [namedSoFar, hname, FunctionEntry.executes?]
          · refine .inr ⟨⟨_, if_pos hname⟩, ?_⟩
            rintro x hx
            cases hx
            simp [namedSoFar, hname, FunctionEntry.executes?]
  · -- the maps are too many or too few
    refine .inr ⟨⟨.functionEntry, ?_⟩, fun x hx => absurd (shape_of_entryOfPair hx) hshape⟩
    unfold entryOf
    split
    · next p o hp ho hg => exact absurd ⟨p, o, hp, ho, hg⟩ hshape
    · rfl

/-! ## All entries -/

section Entries

variable {c : Context} {functionAt : Term → String → Trial Value} {path name : String} {e : Edge}
  {t : Term} {term : Constant} {tm : TermMap} {position : Position}

/-- The predicate-object maps of entries, the first of which has a number. -/
def decodeEntryPairs (c : Context) (functionAt : Term → String → Trial Value) (path : String)
    (i : Nat) : List Edge → List (Trial PredicateObjectMap)
  | [] => []
  | e :: rest =>
    decodePair c functionAt e.object (numbered (path ++ ".function") i) ::
      decodeEntryPairs c functionAt path (i + 1) rest

/-- The functions that entries name. -/
def functionsOf (xs : List FunctionEntry) : List String :=
  xs.filterMap FunctionEntry.executes?

/-- The parameters among entries. -/
def parametersOf (xs : List FunctionEntry) : List Parameter :=
  xs.filterMap FunctionEntry.parameter?

/-- What is noted on the predicate-object maps is noted on the entries. -/
theorem notes_pairs_subset (es : List Edge) :
    ∀ i name, (Attempt.all (decodeEntryPairs c functionAt path i es)).run.notes ⊆
      (decodeEntries c functionAt path i name es).run.notes := by
  induction es with
  | nil => exact fun i name => List.Subset.refl _
  | cons e rest ih =>
    intro i name f hf
    rw [Attempt.notes_all, decodeEntryPairs, List.flatMap_cons, ← Attempt.notes_all] at hf
    rw [notes_decodeEntries_cons]
    rcases List.mem_append.1 hf with hf | hf
    · exact List.mem_append_left _ (Attempt.mem_notes_bind.2 (.inl hf))
    · exact List.mem_append_right _ (ih _ _ hf)

/-- One step: the entry at hand is put before what comes of the others. -/
theorem decodeEntries_cons {e : Edge} (rest : List Edge) {i : Nat} {name : String}
    (hpom : (decodePair c functionAt e.object
      (numbered (path ++ ".function") i)).run.value = some pom)
    (hx : entryOf c name pom (numbered (path ++ ".function") i) = pure x) :
    (decodeEntries c functionAt path i name (e :: rest)).run.value =
        (decodeEntries c functionAt path (i + 1) (x.executes?.getD name) rest).run.value.map
          (fun r => (r.1, x.parameter?.toList ++ r.2)) ∧
      (decodeEntries c functionAt path i name (e :: rest)).run.notes =
        (decodePair c functionAt e.object (numbered (path ++ ".function") i)).run.notes ++
          (decodeEntries c functionAt path (i + 1) (x.executes?.getD name) rest).run.notes := by
  have hvalue : (decodeEntry c functionAt name e.object
      (numbered (path ++ ".function") i)).run.value = some x := by
    rw [decodeEntry, Attempt.value_bind, hpom, Option.bind_some, hx, Attempt.value_pure]
  have hnotes : (decodeEntry c functionAt name e.object
      (numbered (path ++ ".function") i)).run.notes =
        (decodePair c functionAt e.object (numbered (path ++ ".function") i)).run.notes := by
    rw [decodeEntry, Attempt.notes_bind, hpom, Option.map_some, hx, Attempt.notes_pure,
      Option.getD_some, List.append_nil]
  constructor
  · rw [decodeEntries, OptionT.run_mk, Logged.value_bind, hvalue]
    exact Option.map_eq_bind.symm
  · rw [notes_decodeEntries_cons, hvalue, hnotes, Option.bind_some]

/-- The values of all entries, taken apart. -/
theorem value_all_cons {α : Type} {x : Trial α} {xs : List (Trial α)} {as : List α}
    (h : (Attempt.all (x :: xs)).run.value = some as) :
    ∃ a rest, x.run.value = some a ∧ (Attempt.all xs).run.value = some rest ∧ as = a :: rest := by
  rw [Attempt.value_all, List.mapM_cons] at h
  simp only [Option.bind_eq_bind, Option.bind_eq_some_iff] at h
  obtain ⟨a, ha, rest, hrest, has⟩ := h
  rw [← Attempt.value_all] at hrest
  exact ⟨a, rest, ha, hrest, (Option.some.inj has).symm⟩

theorem mapM_entryOfPair_cons {rest : List PredicateObjectMap} {xs : List FunctionEntry} :
    (pom :: rest).mapM entryOfPair = some xs ↔
      ∃ x ys, entryOfPair pom = some x ∧ rest.mapM entryOfPair = some ys ∧ xs = x :: ys := by
  rw [List.mapM_cons]
  simp only [Option.bind_eq_bind, Option.bind_eq_some_iff, Option.pure_def, Option.some.injEq]
  constructor
  · rintro ⟨x, hx, ys, hys, rfl⟩
    exact ⟨x, ys, hx, hys, rfl⟩
  · rintro ⟨x, ys, hx, hys, rfl⟩
    exact ⟨x, hx, ys, hys, rfl⟩

/-- The names given after an entry. -/
theorem namedSoFar_next (hx : x ≠ .executes "")
    (hlen : (namedSoFar name ++ x.executes?.toList).length ≤ 1) :
    namedSoFar (x.executes?.getD name) = namedSoFar name ++ x.executes?.toList := by
  cases x with
  | parameter p => simp [FunctionEntry.executes?]
  | executes function =>
    have hne : function ≠ "" := fun h => hx (h ▸ rfl)
    by_cases hname : name = ""
    · simp [namedSoFar, FunctionEntry.executes?, hname, hne]
    · simp [namedSoFar, FunctionEntry.executes?, hname] at hlen

theorem functionsOf_cons (x : FunctionEntry) (xs : List FunctionEntry) :
    functionsOf (x :: xs) = x.executes?.toList ++ functionsOf xs := by
  cases x <;> rfl

theorem parametersOf_cons (x : FunctionEntry) (xs : List FunctionEntry) :
    parametersOf (x :: xs) = x.parameter?.toList ++ parametersOf xs := by
  cases x <;> rfl

/-- Entries with nothing wrong can be read and name one function. -/
theorem exists_entries_of_clean (es : List Edge) :
    ∀ {i name poms}, (Attempt.all (decodeEntryPairs c functionAt path i es)).run.value = some poms →
      (∀ pom ∈ poms, entryOfPair pom ≠ some (.executes "")) →
      Clean (decodeEntries c functionAt path i name es).run.notes →
      ∃ xs, poms.mapM entryOfPair = some xs ∧ (namedSoFar name ++ functionsOf xs).length ≤ 1 := by
  induction es with
  | nil =>
    intro i name poms hpoms _ _
    cases hpoms
    refine ⟨[], rfl, ?_⟩
    unfold namedSoFar
    split <;> simp [functionsOf]
  | cons e rest ih =>
    intro i name poms hpoms hne hclean
    obtain ⟨pom, poms', hpom, hrest, rfl⟩ := value_all_cons hpoms
    rcases entryOf_cases c name pom (numbered (path ++ ".function") i) with
      ⟨x, hx, hlen, hentry⟩ | ⟨⟨f, hentry⟩, -⟩
    · have hxne : x ≠ .executes "" := fun h => hne pom (List.mem_cons_self ..) (h ▸ hx)
      rw [(decodeEntries_cons rest hpom hentry).2, clean_append] at hclean
      obtain ⟨xs, hxs, hlen'⟩ :=
        ih hrest (fun q hq => hne q (List.mem_cons_of_mem _ hq)) hclean.2
      refine ⟨x :: xs, mapM_entryOfPair_cons.2 ⟨x, xs, hx, hxs, rfl⟩, ?_⟩
      rwa [namedSoFar_next hxne hlen, List.append_assoc, ← functionsOf_cons] at hlen'
    · -- the entry is refused, which is noted
      have hmem : Finding.flaw (f.diagnostic c.mapping (numbered (path ++ ".function") i)) ∈
          (decodeEntries c functionAt path i name (e :: rest)).run.notes := by
        rw [notes_decodeEntries_cons]
        refine List.mem_append_left _ (Attempt.mem_notes_bind.2 (.inr ⟨pom, hpom, ?_⟩))
        rw [hentry]
        exact List.mem_singleton.2 rfl
      exact absurd (hclean _ hmem) (by simp [Finding.isClean])

/-- **Entries that can all be read and name one function at most are decoded.** -/
theorem decodeEntries_of_entries (es : List Edge) :
    ∀ {i name poms xs},
      (Attempt.all (decodeEntryPairs c functionAt path i es)).run.value = some poms →
      (∀ pom ∈ poms, entryOfPair pom ≠ some (.executes "")) →
      poms.mapM entryOfPair = some xs → (namedSoFar name ++ functionsOf xs).length ≤ 1 →
      (decodeEntries c functionAt path i name es).run.value =
          some ((namedSoFar name ++ functionsOf xs).head?.getD "", parametersOf xs) ∧
        (decodeEntries c functionAt path i name es).run.notes =
          (Attempt.all (decodeEntryPairs c functionAt path i es)).run.notes := by
  induction es with
  | nil =>
    intro i name poms xs hpoms _ hxs _
    cases hpoms
    cases hxs
    refine ⟨?_, rfl⟩
    rw [decodeEntries, Attempt.value_pure]
    unfold namedSoFar
    split
    · next h => simp [functionsOf, parametersOf, h]
    · simp [functionsOf, parametersOf]
  | cons e rest ih =>
    intro i name poms xs hpoms hne hxs hlen
    obtain ⟨pom, poms', hpom, hrest, rfl⟩ := value_all_cons hpoms
    obtain ⟨x, ys, hx, hys, rfl⟩ := mapM_entryOfPair_cons.1 hxs
    have hxne : x ≠ .executes "" := fun h => hne pom (List.mem_cons_self ..) (h ▸ hx)
    rw [functionsOf_cons, ← List.append_assoc] at hlen
    have hlen₁ : (namedSoFar name ++ x.executes?.toList).length ≤ 1 := by
      rw [List.length_append] at hlen
      omega
    rcases entryOf_cases c name pom (numbered (path ++ ".function") i) with
      ⟨x', hx', -, hentry⟩ | ⟨-, hlong⟩
    · rw [hx] at hx'
      cases hx'
      rw [← namedSoFar_next hxne hlen₁] at hlen
      obtain ⟨hvalue, hnotes⟩ :=
        ih hrest (fun q hq => hne q (List.mem_cons_of_mem _ hq)) hys hlen
      obtain ⟨hv, hn⟩ := decodeEntries_cons rest hpom hentry
      rw [hv, hn, hvalue, hnotes, namedSoFar_next hxne hlen₁, functionsOf_cons,
        parametersOf_cons, List.append_assoc, Option.map_some]
      refine ⟨rfl, ?_⟩
      rw [Attempt.notes_all, Attempt.notes_all, decodeEntryPairs, List.flatMap_cons]
    · have := hlong x hx
      omega

/-! ## Where the name of a function comes from -/

/-- A constant that is an IRI comes from that IRI. -/
theorem iri_of_constantOf (h : constantOf t = .ok k) (hk : k.kind = .iri) : t = .iri k.value := by
  rcases t with value | label | ⟨text, _ | code | type⟩ | text | _
  · cases h
    rfl
  · cases h
    cases hk
  · cases h
    cases hk
  · cases h
    cases hk
  · cases h
    cases hk
  · cases h
  · cases h

theorem constantOf_of_decodeConstant (h : (decodeConstant c t path).run.value = some k) :
    constantOf t = .ok k := by
  unfold decodeConstant at h
  split at h
  · next hk =>
    cases h
    exact hk
  · cases h

/-- A datatype or a language changes neither the kind nor the value of a constant. -/
theorem kind_tagConstant {datatype language : String}
    (h : (tagConstant c term datatype language path).run.value = some k) :
    k.kind = term.kind ∧ k.value = term.value := by
  unfold tagConstant at h
  split at h
  · cases h
    exact ⟨rfl, rfl⟩
  · split at h
    · cases h
    · cases h
      exact ⟨rfl, rfl⟩

/-- A constant that is an IRI. -/
theorem kind_of_constantIri? (htm : tm.value = some (.constant k)) (hf : constantIri? tm = some f) :
    k.kind = .iri ∧ k.value = f := by
  simp only [constantIri?, htm] at hf
  split at hf
  · next hkind => exact ⟨hkind, Option.some.inj hf⟩
  · cases hf

variable (hfun : ∀ n path v, (functionAt n path).run.value = some v → v.isConstant = false)

include hfun

/-- A constant value is the object of its edge; function values are no constants. -/
theorem constantOf_of_decodeValue
    (hv : (decodeValue c functionAt n e path).run.value = some (.constant term)) :
    constantOf e.object = .ok term := by
  unfold decodeValue at hv
  split at hv
  · rw [Attempt.value_bind, Option.bind_eq_some_iff] at hv
    obtain ⟨k, hk, hv⟩ := hv
    cases hv
    exact constantOf_of_decodeConstant hk
  split at hv
  · split at hv <;> cases hv
  split at hv
  · exact absurd (hfun _ _ _ hv) (by simp [Value.isConstant])
  split at hv
  · unfold decodeJoin at hv
    split at hv
    · cases hv
    · rw [Attempt.value_bind, Attempt.value_lift, Option.bind_some, Attempt.value_bind,
        Option.bind_eq_some_iff] at hv
      obtain ⟨conditions, -, hv⟩ := hv
      split at hv <;> cases hv
  · split at hv <;> cases hv

/-- A term map that always makes the same IRI has it from the object of a triple. -/
theorem exists_object_of_decodeTermMap
    (h : (decodeTermMap c functionAt position n path).run.value = some tm)
    (hf : constantIri? tm = some f) : ∃ q ∈ c.graph.triples, q.object = .iri f := by
  unfold decodeTermMap at h
  rw [Attempt.value_bind, Option.bind_eq_some_iff] at h
  obtain ⟨_, -, h⟩ := h
  rw [Attempt.value_bind, Attempt.value_lift, Option.bind_some] at h
  split at h
  · next e he =>
    rw [Attempt.value_bind, Attempt.value_lift, Option.bind_some, Attempt.value_bind,
      Option.bind_eq_some_iff] at h
    obtain ⟨v, hv, h⟩ := h
    have hedge : e ∈ c.graph.edges n Property.values := by simp [he]
    obtain ⟨⟨q, hq, -, -, ho⟩, -⟩ := Graph.leads_of_mem_edges hedge
    unfold decodeAttributes at h
    rw [Attempt.value_bind, Option.bind_eq_some_iff] at h
    obtain ⟨stated, -, h⟩ := h
    rw [Attempt.value_bind, Attempt.value_lift, Option.bind_some, Attempt.value_bind,
      Attempt.value_lift, Option.bind_some] at h
    cases v with
    | constant term =>
      simp only at h
      rw [Attempt.value_bind, Option.bind_eq_some_iff] at h
      obtain ⟨k, hk, h⟩ := h
      split at h
      · cases h
        have hkf := kind_of_constantIri? rfl hf
        obtain ⟨hkind, hvalue⟩ := kind_tagConstant hk
        refine ⟨q, hq, ho.trans ?_⟩
        have hterm := constantOf_of_decodeValue hfun hv
        rw [iri_of_constantOf hterm (hkind ▸ hkf.1), ← hvalue, hkf.2]
      · cases h
    | reference a | template a | function a ps | join a cs =>
      cases h
      simp [constantIri?] at hf
  · cases h

theorem exists_object_of_decodeLinked {link shortcut : String}
    (h : tm ∈ (decodeLinked c functionAt position n path link shortcut).value)
    (hf : constantIri? tm = some f) : ∃ q ∈ c.graph.triples, q.object = .iri f := by
  obtain ⟨x, hx, htm⟩ := Logged.mem_those h
  obtain ⟨i, hi, rfl⟩ := List.mem_mapIdx.1 hx
  split at htm
  · rw [Attempt.value_bind, Option.bind_eq_some_iff] at htm
    obtain ⟨k, hk, htm⟩ := htm
    cases htm
    have hkf := kind_of_constantIri? rfl hf
    obtain ⟨⟨q, hq, -, -, ho⟩, -⟩ := Graph.leads_of_mem_edges (List.getElem_mem hi)
    refine ⟨q, hq, ho.trans ?_⟩
    rw [← hkf.2]
    exact iri_of_constantOf (constantOf_of_decodeConstant hk) hkf.1
  · exact exists_object_of_decodeTermMap hfun htm hf

/-- **A function is named by an object of the graph.** -/
theorem exists_object_of_executes
    (h : (decodePair c functionAt n path).run.value = some pom)
    (hf : entryOfPair pom = some (.executes f)) : ∃ q ∈ c.graph.triples, q.object = .iri f := by
  unfold decodePair at h
  rw [Attempt.value_bind, Option.bind_eq_some_iff] at h
  obtain ⟨_, -, h⟩ := h
  iterate 4 rw [Attempt.value_bind, Attempt.value_lift, Option.bind_some] at h
  cases h
  unfold entryOfPair at hf
  split at hf
  · next predicate object hp ho hg =>
    split at hf
    · cases hf
    · split at hf
      · cases hf
      · obtain ⟨function, hobject, hfunction⟩ := Option.map_eq_some_iff.1 hf
        cases hfunction
        simp only at ho
        exact exists_object_of_decodeLinked hfun (by rw [ho]; exact List.mem_singleton.2 rfl)
          hobject
  · cases hf

end Entries

end RdfMapping.RuleGraph
