/-
# Written Turtle

What a Turtle text says, sign by sign: declarations of labels, then statements, in which an IRI is a
name with a declared label or stands between angle brackets.
-/
import RdfMapping.Proofs.Iri.Abbreviations
import RdfMapping.Proofs.Rdf.Gathering
import RdfMapping.Rdf.Codec

namespace RdfMapping.Rdf.Turtle

open Iri (PrefixTable isLocalName)

/-! ## Texts and what they say -/

section Texts

variable (lib : TermLibrary) (declared : List (String × String))

/-- The text of an IRI: a name, or the IRI between brackets. -/
inductive WrittenIri : String → String → Prop where
  | name {label ns rest : String} : (label, ns) ∈ declared → ':' ∉ label.toList →
    isLocalName rest.toList = true → WrittenIri (ns ++ rest) (label ++ ":" ++ rest)
  | bracketed {iri inner : String} : StandsFor isIriRefChar [] inner iri →
    WrittenIri iri ("<" ++ inner ++ ">")

/-- The text of a literal between its quotes. -/
def WrittenText (text quoted : String) : Prop :=
  ∃ inner, StandsFor Term.isStringChar NQuads.escapes inner text ∧
    quoted = "\"" ++ inner ++ "\""

/-- The text of a term. -/
inductive WrittenTerm : Term → String → Prop where
  | iri {value text : String} : WrittenIri declared (lib.full value) text →
    WrittenTerm (.iri value) text
  | blank (label : String) : WrittenTerm (.blank label) ("_:" ++ label)
  | plain {text quoted : String} : WrittenText text quoted →
    WrittenTerm (.literal text .plain) quoted
  | language {text quoted : String} (code : String) : WrittenText text quoted →
    WrittenTerm (.literal text (.language code)) (quoted ++ "@" ++ code)
  | datatype {text quoted type name : String} : WrittenText text quoted →
    WrittenIri declared (lib.full type) name →
    WrittenTerm (.literal text (.datatype type)) (quoted ++ "^^" ++ name)

/-- The text of a predicate, which may be a word of its own. -/
inductive WrittenPredicate : Term → String → Prop where
  | type {value : String} : lib.full value = typeIri → WrittenPredicate (.iri value) "a"
  | term {p : Term} {text : String} : WrittenTerm lib declared p text → WrittenPredicate p text

/-- The text of a predicate and its objects. -/
def WrittenBranch (b : Branch) (text : String) : Prop :=
  ∃ p os, WrittenPredicate lib declared b.predicate p ∧
    List.Forall₂ (WrittenTerm lib declared) b.objects os ∧ text = p ++ " " ++ Text.join ", " os

/-- The text of a statement. -/
def WrittenStatement (st : Statement) (text : String) : Prop :=
  ∃ s bs, WrittenTerm lib declared st.subject s ∧
    List.Forall₂ (WrittenBranch lib declared) st.branches bs ∧
    text = s ++ " " ++ Text.join " ;\n    " bs ++ " .\n"

/-- The declaration of a label and its namespace. -/
def WrittenDeclaration (b : String × String) (line : String) : Prop :=
  ∃ inner, StandsFor isIriRefChar [] inner b.2 ∧
    line = "@prefix " ++ b.1 ++ ": <" ++ inner ++ "> .\n"

/-- The text of a document: declarations and statements. -/
def WrittenDocument (sts : List Statement) (text : String) : Prop :=
  ∃ lines texts, List.Forall₂ WrittenDeclaration declared lines ∧
    List.Forall₂ (WrittenStatement lib declared) sts texts ∧
    text = String.join lines ++ (if declared.isEmpty then "" else "\n") ++ Text.join "\n" texts

end Texts

/-! ## Abbreviations -/

variable {lib : TermLibrary} {table : PrefixTable} {declared : List (String × String)}

theorem exists_of_contract? {iri : String} {c : Iri.Compact} (h : table.contract? iri = some c) :
    ∃ ns rest, table.lookup? c.label = some ns ∧ iri = ns ++ rest ∧
      isLocalName rest.toList = true ∧ c.text = c.label ++ ":" ++ rest := by
  have hstart (ns : String) (h : PrefixTable.leavesLocalName iri ns = true) :
      ∃ rest, iri = ns ++ rest := by
    obtain ⟨rest, hrest, -⟩ := PrefixTable.leavesLocalName_iff.1 h
    exact ⟨rest, hrest⟩
  obtain ⟨ns, rest, hprefers, rfl, htext⟩ := (table.contractWith?_prefers hstart).1 c h
  obtain ⟨rest', hrest, hlocal⟩ := PrefixTable.leavesLocalName_iff.1 hprefers.good.2
  rw [String.append_right_inj] at hrest
  exact ⟨ns, rest, hprefers.bound, rfl, hrest ▸ hlocal, htext⟩

/-- Whether the labels with which IRIs are abbreviated are declared. -/
def Declares (table : PrefixTable) (declared : List (String × String)) (iris : List String) :
    Prop :=
  ∀ iri ∈ iris, ∀ label ns, labelOf? table iri = some label → table.lookup? label = some ns →
    (label, ns) ∈ declared

/-- **An abbreviated IRI is its namespace and its local name.** -/
theorem writtenIri_iriText (hlabels : ∀ l ∈ table.labels, ':' ∉ l.toList) {iri : String}
    (hiri : Declares table declared [iri]) : WrittenIri declared iri (iriText table iri) := by
  unfold iriText
  cases hc : table.contract? iri with
  | none => exact .bracketed (standsFor_escapeIri iri)
  | some c =>
    obtain ⟨ns, rest, hbound, rfl, hlocal, htext⟩ := exists_of_contract? hc
    have hlabel : c.label ∈ table.labels := PrefixTable.mem_labels_of_lookup? hbound
    have hused : labelOf? table (ns ++ rest) = some c.label := by rw [labelOf?, hc, Option.map_some]
    have hdeclared := hiri _ (List.mem_singleton_self _) c.label ns hused hbound
    change WrittenIri declared (ns ++ rest) c.text
    rw [htext]
    exact .name hdeclared (hlabels _ hlabel) hlocal

/-! ## Terms and statements -/

theorem Declares.mono {iris iris' : List String} (h : Declares table declared iris)
    (hsub : iris' ⊆ iris) : Declares table declared iris' :=
  fun iri hiri => h iri (hsub hiri)

section Statements

variable (hlabels : ∀ l ∈ table.labels, ':' ∉ l.toList)

include hlabels

/-- The text of a proper term stands for it. -/
theorem writtenTerm_termText {t : Term} (ht : t.isProper = true)
    (hiris : Declares table declared (shownIris lib t)) :
    WrittenTerm lib declared t (termText lib table t) := by
  have hquoted (text : String) : WrittenText text (Term.quoteLiteral text) :=
    ⟨Term.escapeText text, Term.standsFor_escapeText text, Term.quoteLiteral_eq text⟩
  cases t with
  | iri value => exact .iri (writtenIri_iriText hlabels hiris)
  | blank label => exact .blank label
  | literal text tag =>
    cases tag with
    | plain => exact .plain (hquoted text)
    | language code => exact .language code (hquoted text)
    | datatype type => exact .datatype (hquoted text) (writtenIri_iriText hlabels hiris)
  | other | missing => cases ht

theorem writtenPredicate_predicateText {p : Term} (hp : p.isProper = true)
    (hiris : Declares table declared (if isType lib p then [] else shownIris lib p)) :
    WrittenPredicate lib declared p (predicateText lib table p) := by
  unfold predicateText
  by_cases htype : isType lib p = true
  · rw [if_pos htype]
    cases p with
    | iri value => exact .type (by simpa [isType, Term.iri?] using htype)
    | blank | literal | other | missing => cases htype
  · rw [if_neg htype] at hiris ⊢
    exact .term (writtenTerm_termText hlabels hp hiris)

theorem writtenBranch_branchText {b : Branch} (hp : b.predicate.isProper = true)
    (hos : ∀ o ∈ b.objects, o.isProper = true)
    (hiris : Declares table declared
      ((if isType lib b.predicate then [] else shownIris lib b.predicate) ++
        b.objects.flatMap (shownIris lib))) :
    WrittenBranch lib declared b (branchText lib table b) := by
  refine ⟨_, _, writtenPredicate_predicateText hlabels hp
    (hiris.mono (List.subset_append_left _ _)), ?_, rfl⟩
  rw [List.forall₂_map_right_iff, List.forall₂_same]
  intro o ho
  refine writtenTerm_termText hlabels (hos o ho) (hiris.mono fun iri hiri => ?_)
  exact List.mem_append_right _ (List.mem_flatMap.2 ⟨o, ho, hiri⟩)

theorem writtenStatement_statementText {st : Statement} (hs : st.subject.isProper = true)
    (hbs : ∀ b ∈ st.branches, b.predicate.isProper = true ∧ ∀ o ∈ b.objects, o.isProper = true)
    (hiris : Declares table declared (st.iris lib)) :
    WrittenStatement lib declared st (statementText lib table st) := by
  refine ⟨_, _, writtenTerm_termText hlabels hs (hiris.mono (List.subset_append_left _ _)), ?_, rfl⟩
  rw [List.forall₂_map_right_iff, List.forall₂_same]
  intro b hb
  refine writtenBranch_branchText hlabels (hbs b hb).1 (hbs b hb).2 (hiris.mono fun iri hiri => ?_)
  exact List.mem_append_right _ (List.mem_flatMap.2 ⟨b, hb, hiri⟩)

end Statements

/-! ## Documents -/

/-- The bindings that the statements of a document use. -/
def declaredOf (lib : TermLibrary) (table : PrefixTable) (sts : List Statement) :
    List (String × String) :=
  table.bindings.filter fun (label, _) => (usedLabels lib table sts).contains label

/-- **Every label that is used is declared.** -/
theorem declares_declaredOf (lib : TermLibrary) (table : PrefixTable) (sts : List Statement) :
    Declares table (declaredOf lib table sts) (sts.flatMap (Statement.iris lib)) := by
  intro iri hiri label ns hlabel hbound
  have hused : label ∈ usedLabels lib table sts := List.mem_filterMap.2 ⟨iri, hiri, hlabel⟩
  exact List.mem_filter.2 ⟨PrefixTable.mem_of_lookup? hbound, List.contains_iff_mem.2 hused⟩

/-- Labels are declared if some are used. -/
theorem isEmpty_declaredOf (lib : TermLibrary) (table : PrefixTable) (sts : List Statement) :
    (declaredOf lib table sts).isEmpty = (usedLabels lib table sts).isEmpty := by
  rw [Bool.eq_iff_iff, List.isEmpty_iff, List.isEmpty_iff]
  constructor
  · intro hnone
    rw [List.eq_nil_iff_forall_not_mem]
    intro label hlabel
    obtain ⟨iri, hiri, hused⟩ := List.mem_filterMap.1 hlabel
    obtain ⟨c, hc, rfl⟩ := Option.map_eq_some_iff.1 hused
    obtain ⟨ns, rest, hbound, -⟩ := exists_of_contract? hc
    have hmem := declares_declaredOf lib table sts iri hiri c.label ns hused hbound
    exact absurd (hnone ▸ hmem) List.not_mem_nil
  · intro hnone
    rw [declaredOf, hnone, List.filter_eq_nil_iff]
    exact fun b _ => Bool.false_ne_true

/-- The terms of the statements of triples are terms of the triples. -/
theorem Gathers.isProper {qs : List Quad} {sts : List Statement} (h : Gathers qs sts)
    (hqs : ∀ q ∈ qs, IsTriple q) {st : Statement} (hst : st ∈ sts) :
    st.subject.isProper = true ∧ ∀ b ∈ st.branches,
      b.predicate.isProper = true ∧ ∀ o ∈ b.objects, o.isProper = true := by
  have hsubject := List.mem_map_of_mem (f := Statement.subject) hst
  rw [h.subjects, List.mem_eraseDups, List.mem_map] at hsubject
  obtain ⟨q, hq, hqs'⟩ := hsubject
  refine ⟨hqs' ▸ (hqs q hq).subject, fun b hb => ⟨?_, fun o ho => ?_⟩⟩
  · have hpredicate := List.mem_map_of_mem (f := Branch.predicate) hb
    rw [h.predicates st hst, List.mem_eraseDups, List.mem_map] at hpredicate
    obtain ⟨q, hq, hp⟩ := hpredicate
    exact hp ▸ (hqs q (List.mem_filter.1 hq).1).predicate
  · rw [h.objects st hst b hb, List.mem_map] at ho
    obtain ⟨q, hq, ho⟩ := ho
    exact ho ▸ (hqs q (List.mem_filter.1 hq).1).object

/-- The label of the base has no colon either. -/
theorem colon_not_mem_withBase (hlabels : ∀ l ∈ table.labels, ':' ∉ l.toList) (base : String) :
    ∀ l ∈ (withBase table base).labels, ':' ∉ l.toList := by
  unfold withBase
  split
  · exact hlabels
  · intro l hl
    rw [PrefixTable.labels_set] at hl
    split at hl
    · exact hlabels l hl
    · rcases List.mem_append.1 hl with hl | hl
      · exact hlabels l hl
      · rw [List.mem_singleton.1 hl]
        decide

/-- The text of triples is a document of their statements. -/
theorem writtenDocument_render {table : PrefixTable} {base : String} {qs : List Quad}
    (hlib : lib.TellsApart) (hlabels : ∀ l ∈ (withBase table base).labels, ':' ∉ l.toList)
    (hqs : ∀ q ∈ qs, IsTriple q) :
    WrittenDocument lib (declaredOf lib (withBase table base) (group lib qs)) (group lib qs)
      (render lib table base qs) := by
  refine ⟨(declaredOf lib (withBase table base) (group lib qs)).map fun (label, ns) =>
      "@prefix " ++ label ++ ": <" ++ escapeIri ns ++ "> .\n",
    (group lib qs).map (statementText lib (withBase table base)), ?_, ?_, ?_⟩
  · rw [List.forall₂_map_right_iff, List.forall₂_same]
    exact fun b _ => ⟨escapeIri b.2, standsFor_escapeIri b.2, rfl⟩
  · rw [List.forall₂_map_right_iff, List.forall₂_same]
    intro st hst
    obtain ⟨hsubject, hbranches⟩ := (gathers_group hlib hqs).isProper hqs hst
    refine writtenStatement_statementText hlabels hsubject hbranches ?_
    refine (declares_declaredOf lib (withBase table base) (group lib qs)).mono fun iri hiri => ?_
    exact List.mem_flatMap.2 ⟨st, hst, hiri⟩
  · rw [isEmpty_declaredOf]
    rfl

/-- **The text of triples says these triples.**  They are all in its statements, as often as they
come, by subject and predicate in the order in which these come first, and with the objects in
order.  A name stands for the namespace of its label and its local name, and its label is declared,
once; between brackets no character stands that may not, and undoing the escapes gives the IRI, as
it gives the text of a literal between its quotes. -/
theorem write_turtle_denotes {lib : TermLibrary} (hlib : lib.TellsApart) {table : PrefixTable}
    (hlabels : ∀ l ∈ table.labels, ':' ∉ l.toList) (base : String) {qs : List Quad}
    (hqs : ∀ q ∈ qs, IsTriple q) :
    ∃ text declared, Format.turtle.writeWith lib table base qs = .ok text ∧
      Gathers qs (group lib qs) ∧
      declared.Sublist (withBase table base).bindings ∧ (declared.map Prod.fst).Nodup ∧
      WrittenDocument lib declared (group lib qs) text := by
  have hnone : qs.find? (·.graph.isSome) = none := by
    rw [List.find?_eq_none]
    intro q hq
    simp [(hqs q hq).graph]
  have hsublist : (declaredOf lib (withBase table base) (group lib qs)).Sublist
    (withBase table base).bindings := List.filter_sublist
  have hnodup := (withBase table base).inStep.nodup
  rw [← PrefixTable.map_fst_bindings] at hnodup
  refine ⟨render lib table base qs, declaredOf lib (withBase table base) (group lib qs), ?_,
    gathers_group hlib hqs, hsublist, hnodup.sublist (hsublist.map Prod.fst),
    writtenDocument_render hlib (colon_not_mem_withBase hlabels base) hqs⟩
  rw [Format.writeWith, hnone]

/-- The texts of terms tell them apart. -/
theorem tellsApart_standard : TermLibrary.standard.TellsApart :=
  fun _ _ ht hu h => Term.render_injOn ht hu h

/-- Two triples of a person, with another one between them. -/
def personTriples : List Quad :=
  [⟨.iri "http://ex.org/ann", .iri "rdf:type", .iri "http://ex.org/v#Person", none⟩,
    ⟨.blank "x", .iri "http://ex.org/v#knows", .iri "http://ex.org/a b", none⟩,
    ⟨.iri "http://ex.org/ann", .iri "http://ex.org/v#name", .literal "An\"n" (.language "en"),
      none⟩]

/-- A person with a name, and a blank node. -/
theorem write_turtle_denotes_person :
    (∀ l ∈ PrefixTable.nestedTable.labels, ':' ∉ l.toList) ∧ (∀ q ∈ personTriples, IsTriple q) ∧
      ∃ text declared, Format.turtle.write PrefixTable.nestedTable "" personTriples = .ok text ∧
        (group .standard personTriples).map Statement.subject =
          [.iri "http://ex.org/ann", .blank "x"] ∧
        WrittenDocument .standard declared (group .standard personTriples) text := by
  have hlabels : ∀ l ∈ PrefixTable.nestedTable.labels, ':' ∉ l.toList := by decide
  have hqs : ∀ q ∈ personTriples, IsTriple q := by
    simp only [personTriples, List.forall_mem_cons]
    exact ⟨⟨rfl, rfl, rfl, rfl⟩, ⟨rfl, rfl, rfl, rfl⟩, ⟨rfl, rfl, rfl, rfl⟩,
      fun _ h => absurd h List.not_mem_nil⟩
  obtain ⟨text, declared, hwrite, -, -, -, hwritten⟩ :=
    write_turtle_denotes tellsApart_standard hlabels "" hqs
  exact ⟨hlabels, hqs, text, declared, hwrite, by decide +kernel, hwritten⟩

end RdfMapping.Rdf.Turtle
