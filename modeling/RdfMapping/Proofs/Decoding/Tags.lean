/-
# Tags in decoded documents

The datatype and the language of a term map are those that its node states.  So a constant has both
only if its node states both: a literal of the graph has at most one of them.
-/
import RdfMapping.Proofs.Decoding.Imparted
import RdfMapping.Proofs.Mapping.Tags

namespace RdfMapping.RuleGraph

open Iri (PrefixTable)
open Mapping
open Rdf (Term Quad)

variable {t : Term} {term : Constant} {position : Position}

/-! ## What nodes state -/

/-- A node of the graph states the datatype and the language that a constant has. -/
def Graph.StatesBoth (g : Graph) (term : Constant) : Prop :=
  ∃ n t l, g.Leads n Property.constant t ∧ constantOf t = .ok (.ofText term.value) ∧
    g.Leads n Property.datatype (.iri term.datatype) ∧
    g.Leads n Property.language l ∧ textOf? l = some term.language

/-- The tags of a term map are in place, and a node states both if it has both. -/
def Graph.Tagged (g : Graph) (tm : TermMap) : Prop :=
  tm.TagsPlaced ∧ tm.BothFrom g.StatesBoth

/-- A term of a graph is tagged only if it is a literal, and once. -/
theorem tags_constantOf (h : constantOf t = .ok term) :
    (term.datatype = "" ∨ term.language = "") ∧
      (term.kind ≠ .literal → term.datatype = "" ∧ term.language = "") := by
  unfold constantOf at h
  split at h <;> cases h
  · exact ⟨.inl rfl, fun _ => ⟨rfl, rfl⟩⟩
  · exact ⟨.inl rfl, fun _ => ⟨rfl, rfl⟩⟩
  · exact ⟨.inl rfl, fun _ => ⟨rfl, rfl⟩⟩
  · exact ⟨.inl rfl, fun hkind => absurd rfl hkind⟩
  · exact ⟨.inr rfl, fun hkind => absurd rfl hkind⟩

variable {g : Graph} {c : Context} {functionAt : Term → String → Trial Value} {n : Term}
  {path : String}

/-- A constant without tags of its own, which are in place. -/
theorem tagged_constant {termType : TermType}
    (hkind : term.kind ≠ .literal → term.datatype = "" ∧ term.language = "")
    (hboth : term.datatype ≠ "" → term.language ≠ "" → g.StatesBoth term) :
    TermMap.Every g.Tagged { value := some (.constant term), termType } := by
  refine TermMap.forall_nested.2 ⟨⟨fun term' h => ?_, fun term' h => ?_⟩, fun v hv => ?_⟩
  · cases h
    exact ⟨rfl, rfl, hkind⟩
  · cases h
    exact hboth
  · cases hv
    exact Value.every_of_nested_eq_nil rfl

theorem tagged_ofConstant (h : constantOf t = .ok term) :
    (TermMap.ofConstant term).Every g.Tagged := by
  obtain ⟨hexclusive, hkind⟩ := tags_constantOf h
  exact tagged_constant hkind fun hd hl => hexclusive.elim (absurd · hd) (absurd · hl)

/-- A value that is no constant has no tags of its own. -/
theorem tagged_of_not_constant {tm : TermMap} (h : ∀ term, tm.value ≠ some (.constant term))
    (hvalue : ∀ v, tm.value = some v → v.Every g.Tagged) : tm.Every g.Tagged :=
  TermMap.forall_nested.2 ⟨⟨fun term ht => absurd ht (h term), fun term ht => absurd ht (h term)⟩,
    hvalue⟩

theorem eq_iri {iri : String} (h : t.iri? = some iri) : t = .iri iri := by
  cases t <;> cases h
  rfl

/-- The value of a property is empty, or that of a triple. -/
theorem gives_property {read : Term → Option String} {p : String} :
    (liftM (c.property read n path [p]) : Trial String).Gives fun text =>
      text ≠ "" → ∃ o, c.graph.Leads n p o ∧ read o = some text := by
  refine .lift ?_
  unfold Context.property
  split
  · exact fun hne => absurd rfl hne
  · next e he =>
    have hmem : e ∈ c.graph.edges n [p] := by
      rw [he]
      exact List.mem_singleton_self e
    split
    · next hread =>
      obtain ⟨hl, hp⟩ := Graph.leads_of_mem_edges hmem
      rw [List.mem_singleton.1 hp] at hl
      exact fun _ => ⟨e.object, hl, hread⟩
    · exact fun hne => absurd rfl hne
  · exact fun hne => absurd rfl hne

/-! ## Term maps -/

/-- A value that is no constant, and whose parameters have their tags in place. -/
def PlainValue (g : Graph) (v : Value) : Prop :=
  v.Every g.Tagged ∧ ∀ term, v ≠ .constant term

/-- **A constant has both tags only if its node states both.** -/
theorem gives_tagConstant {datatype language : String} (ht : c.graph.Leads n Property.constant t)
    (hterm : constantOf t = .ok term) (hdatatype : datatype ≠ "" →
      ∃ o, c.graph.Leads n Property.datatype o ∧ o.iri? = some datatype)
    (hlanguage : language ≠ "" →
      ∃ l, c.graph.Leads n Property.language l ∧ textOf? l = some language) :
    (tagConstant c term datatype language path).Gives fun term =>
      ∀ termType, TermMap.Every c.graph.Tagged { value := some (.constant term), termType } := by
  obtain ⟨hexclusive, hkind⟩ := tags_constantOf hterm
  unfold tagConstant
  split
  · exact .pure fun termType =>
      tagged_constant hkind fun hd hl => hexclusive.elim (absurd · hd) (absurd · hl)
  · split
    · exact gives_refuse
    · next hplain =>
      simp only [ne_eq, decide_not, Bool.or_eq_true, Bool.not_eq_true', decide_eq_false_iff_not,
        not_or, not_not] at hplain
      obtain ⟨⟨hliteral, hd⟩, hl⟩ := hplain
      refine .pure fun termType => tagged_constant (fun h => absurd hliteral h) fun hd' hl' => ?_
      obtain ⟨o, hstated, hiri⟩ := hdatatype hd'
      obtain ⟨l, hspoken, htext⟩ := hlanguage hl'
      rw [eq_iri hiri] at hstated
      refine ⟨n, t, l, ht, hterm.trans ?_, hstated, hspoken, htext⟩
      obtain ⟨kind, value, _, _⟩ := term
      cases hliteral
      cases hd
      cases hl
      rfl

/-- What holds of the value at a node: a constant is the object of a triple. -/
def TaggedValue (g : Graph) (n : Term) (v : Value) : Prop :=
  PlainValue g v ∨
    ∃ t term, v = .constant term ∧ g.Leads n Property.constant t ∧ constantOf t = .ok term

/-- Attributes keep the tags in place. -/
theorem gives_decodeAttributes {v : Value} (hv : TaggedValue c.graph n v) :
    (decodeAttributes c position n v path).Gives (TermMap.Every c.graph.Tagged) := by
  unfold decodeAttributes
  refine .bind_right fun stated => ?_
  refine gives_property.bind fun datatype hdatatype => ?_
  refine gives_property.bind fun language hlanguage => ?_
  rcases hv with ⟨hevery, hconstant⟩ | ⟨t, term, rfl, ht, hterm⟩
  · split
    · next term => exact absurd rfl (hconstant term)
    · refine .pure (tagged_of_not_constant (fun term h => ?_) fun v hv => ?_)
      · exact hconstant term (Option.some.inj h)
      · cases hv
        exact hevery
  · refine (gives_tagConstant ht hterm hdatatype hlanguage).bind fun term hterm => ?_
    split
    · exact .pure (hterm _)
    · exact gives_refuse

/-- **Decoding puts the tags in place**, also inside function values. -/
theorem imparts_tagged (g : Graph) (ids : List (Term × String)) (id : String) :
    Imparts ⟨g, ids, id⟩ (TaggedValue g) (PlainValue g) (TermMap.Every g.Tagged) where
  constant ht hterm := .inr ⟨_, _, rfl, ht, hterm⟩
  reference n name := .inl ⟨Value.every_of_nested_eq_nil rfl, fun _ h => by cases h⟩
  template n pattern := .inl ⟨Value.every_of_nested_eq_nil rfl, fun _ h => by cases h⟩
  join parent conditions _ := .inl ⟨Value.every_of_nested_eq_nil rfl, fun _ h => by cases h⟩
  function n _ hv := .inl hv
  call hps := ⟨Parameter.forall_nestedAll.2 fun p hp => (hps p hp).2, fun _ h => by cases h⟩
  attributes position path hv := gives_decodeAttributes hv
  shortcut := tagged_ofConstant
  missing := tagged_of_not_constant (fun _ h => by cases h) fun _ hv => by cases hv

/-- **The tags of all term maps of a document that is decoded are in place.** -/
theorem every_of_decode {base : String} {prefixes : Option PrefixTable} {qs : List Quad}
    {doc : Document} (h : decode base prefixes qs = .ok doc) :
    doc.isValid = true ∧ ∀ tm ∈ doc.maps, tm.Every (Graph.ofQuads qs).Tagged := by
  obtain ⟨-, -, -, hvalid, hdoc⟩ := decode_eq_ok_iff.1 h
  refine ⟨?_, Imparts.of_decode (imparts_tagged _) h⟩
  rw [hdoc]
  exact Document.isValid_freeze hvalid

end RdfMapping.RuleGraph
