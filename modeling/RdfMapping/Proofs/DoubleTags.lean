/-
# Terms with a datatype and a language

The rules refuse a term map with a datatype and a language, but they do not look at constants.  A
document that was read or decoded has a constant with both only if a node states both of them.
-/
import RdfMapping.Proofs.Decoding.Tags
import RdfMapping.Proofs.Shorthand.Provenance

namespace RdfMapping

open Mapping

/-! ## Nodes that state both tags -/

namespace Shorthand

open Yaml (Node Entry)

/-- A node stands in a tree, aliases followed. -/
inductive Holds (root : Option Node) : Node → Prop where
  | top {n : Node} : root = some n → Holds root n
  | body {n m : Node} : Holds root n → n.body? = some m → Holds root m
  | item {n m : Node} : Holds root n → m ∈ n.items → Holds root m
  | key {n : Node} {e : Entry} : Holds root n → e ∈ n.entries → Holds root e.key
  | value {n : Node} {e : Entry} : Holds root n → e ∈ n.entries → Holds root e.value

/-- A node of a tree states the language and the datatype of a constant. -/
def StatesBoth (scope : Scope) (root : Option Node) (term : Constant) : Prop :=
  ∃ n t l, Holds root n ∧
    valueOf? termKeys n .datatype = some t ∧ scope.resolve t.target.text = .ok term.datatype ∧
    valueOf? termKeys n .language = some l ∧ l.target.text = term.language

/-- A constant with both tags comes from a node that states both. -/
theorem bothFrom_of_complete {scope : Scope} {site : Site} {root : Option Node} {n : Node}
    {d : Draft} {tm : TermMap} (hn : Holds root n) (hd : Drafted n d)
    (h : scope.complete site d = .ok tm) : tm.BothFrom (StatesBoth scope root) := by
  intro term hterm hdatatype hlanguage
  obtain ⟨-, hresolve, ⟨-, term', hterm', hspoken⟩ | ⟨pattern, hvalue⟩ | ⟨hvalue, hconstant⟩⟩ :=
    of_complete h
  · rw [hterm'] at hterm
    cases hterm
    rw [TermMap.termDatatype, TermMap.constant?_eq_some_iff.2 hterm'] at hresolve
    have hne : d.datatype ≠ "" := by
      intro hempty
      rw [hempty, Scope.resolveOptional, if_pos rfl] at hresolve
      exact hdatatype (Except.ok.inj hresolve).symm
    rw [Scope.resolveOptional, if_neg hne] at hresolve
    obtain ⟨t, l, ht, htext, hl, hltext⟩ := hd hne (hspoken ▸ hlanguage)
    exact ⟨n, t, l, hn, ht, htext ▸ hresolve, hl, hltext.trans hspoken.symm⟩
  · rw [hvalue] at hterm
    cases hterm
  · rw [hvalue] at hterm
    exact absurd (Option.some.inj hterm) (hconstant term)

theorem traces_statesBoth (scope : Scope) (root : Option Node) :
    Traces scope (Holds root) fun u => u.TagsPlaced ∧ u.BothFrom (StatesBoth scope root) where
  item := .item
  key := .key
  value := .value
  missing := ⟨fun _ h => (by cases h), fun _ h => (by cases h)⟩
  complete hn hd h := ⟨tagsPlaced_of_complete h, bothFrom_of_complete hn hd h⟩

/-- **The tags of a document that was read.** -/
theorem tagged_of_parse {settings : Settings} {root : Option Node} {parsed : Parsed}
    (h : parse settings root = .ok parsed) :
    ∀ u ∈ parsed.document.termMaps,
      u.Tagged (StatesBoth ⟨parsed.document.table, parsed.document.base⟩ root) := by
  refine tagged_of_isValid (isValid_of_parse h)
    ((readWith_of_parse h).maps (traces_statesBoth _ root) fun n hn => ?_)
  obtain ⟨r, hr, hbody⟩ := Option.bind_eq_some_iff.1 hn
  exact .body (.top hr) hbody

end Shorthand

/-! ## Documents that were read or decoded -/

open Iri (PrefixTable)
open Rdf (Term Quad)
open RuleGraph
open Shorthand
open Yaml (Node)

/-- **The tags of all term maps.**  In a document that was read from a tree or decoded from a list
of quads, a term map at any position, or in parameters however deep, has a datatype or a language
only if its terms are literals.  It has both only if it is a constant, with both tags on its term,
and one node of the tree or of the graph states both of them. -/
theorem tagged_of_parse_and_decode (settings : Settings) (root : Option Node) (base : String)
    (prefixes : Option PrefixTable) (qs : List Quad) :
    (∀ parsed, parse settings root = .ok parsed → ∀ u ∈ parsed.document.termMaps,
      u.Tagged (Shorthand.StatesBoth ⟨parsed.document.table, parsed.document.base⟩ root)) ∧
    ∀ doc, decode base prefixes qs = .ok doc → ∀ u ∈ doc.termMaps,
      u.Tagged (Graph.ofQuads qs).StatesBoth := by
  constructor
  · intro parsed h
    exact tagged_of_parse h
  · intro doc h
    obtain ⟨hvalid, hmaps⟩ := every_of_decode h
    exact tagged_of_isValid hvalid hmaps

/-- A tree with a constant that has a datatype and a language. -/
def twiceTaggedTree : Node :=
  .ofEntries [⟨.ofText "mappings", .ofEntries [⟨.ofText "m", .ofEntries
    [⟨.ofText "s", .ofText "http://ex.org/$(id)"⟩,
      ⟨.ofText "po", .ofEntries [⟨.ofText "http://ex.org/p", .ofEntries
        [⟨.ofText "constant", .ofText "x"⟩, ⟨.ofText "datatype", .ofText "http://ex.org/d"⟩,
          ⟨.ofText "language", .ofText "en"⟩]⟩]⟩]⟩]⟩]

/-- A list of triples with such a constant. -/
def twiceTaggedTriples : List Quad :=
  let triple (s : Term) (p : String) (o : Term) : Quad :=
    { subject := s, predicate := .iri p, object := o }
  let node (name : String) : Term := .iri ("http://ex.org/" ++ name)
  [triple (node "m") Property.logicalSource (.blank "src"),
    triple (node "m") Property.subject (node "x"),
    triple (node "m") Property.predicateObjectMap (.blank "p"),
    triple (.blank "p") Property.predicate (node "p"),
    triple (.blank "p") Property.objectMap (.blank "o"),
    triple (.blank "o") Property.constant (.ofText "x"),
    triple (.blank "o") Property.datatype (node "d"),
    triple (.blank "o") Property.language (.ofText "en")]

/-- Some term map of a document has a datatype and a language. -/
def hasTwiceTagged (doc : Document) : Bool :=
  doc.termMaps.any fun u => u.hasDatatype && u.hasLanguage

theorem exists_twiceTagged {doc : Document} (h : hasTwiceTagged doc = true) :
    ∃ u ∈ doc.termMaps, u.hasDatatype = true ∧ u.hasLanguage = true := by
  obtain ⟨u, hu, htags⟩ := List.any_eq_true.1 h
  exact ⟨u, hu, Bool.and_eq_true_iff.1 htags⟩

theorem exists_parse_twiceTaggedTree :
    ∃ parsed, parse {} (some twiceTaggedTree) = .ok parsed ∧
      ∃ u ∈ parsed.document.termMaps, u.hasDatatype = true ∧ u.hasLanguage = true := by
  have hread : ((parse {} (some twiceTaggedTree)).toOption.any fun parsed =>
      hasTwiceTagged parsed.document) = true := by
    decide +kernel
  cases hparsed : parse {} (some twiceTaggedTree) with
  | error ds =>
    rw [hparsed] at hread
    cases hread
  | ok parsed =>
    rw [hparsed] at hread
    exact ⟨parsed, rfl, exists_twiceTagged hread⟩

/-- The triples are decoded to a constant with both tags. -/
theorem exists_decode_twiceTaggedTriples :
    ∃ doc, decode "" none twiceTaggedTriples = .ok doc ∧
      ∃ u ∈ doc.termMaps, u.hasDatatype = true ∧ u.hasLanguage = true := by
  have hsourced : (Graph.ofQuads twiceTaggedTriples).sourced = [.iri "http://ex.org/m"] := by
    decide +kernel
  have hanchors : (Graph.ofQuads twiceTaggedTriples).anchors = [.iri "http://ex.org/m"] := by
    rw [Graph.anchors, hsourced, List.mergeSort_singleton]
  have hread : ((decode "" none twiceTaggedTriples).toOption.any hasTwiceTagged) = true := by
    unfold decode decodeWithin
    simp only [hanchors]
    decide +kernel
  cases hdoc : decode "" none twiceTaggedTriples with
  | error e =>
    rw [hdoc] at hread
    cases hread
  | ok doc =>
    rw [hdoc] at hread
    exact ⟨doc, rfl, exists_twiceTagged hread⟩

/-- Both documents have such a constant, and a node states its tags. -/
theorem statesBoth_twiceTagged :
    (∃ parsed term, parse {} (some twiceTaggedTree) = .ok parsed ∧ Shorthand.StatesBoth
      ⟨parsed.document.table, parsed.document.base⟩ (some twiceTaggedTree) term) ∧
    ∃ doc term, decode "" none twiceTaggedTriples = .ok doc ∧
      (Graph.ofQuads twiceTaggedTriples).StatesBoth term := by
  obtain ⟨parsed, hparsed, u, hu, hdatatype, hlanguage⟩ := exists_parse_twiceTaggedTree
  obtain ⟨doc, hdoc, v, hv, hdatatype', hlanguage'⟩ := exists_decode_twiceTaggedTriples
  obtain ⟨hread, hdecoded⟩ :=
    tagged_of_parse_and_decode {} (some twiceTaggedTree) "" none twiceTaggedTriples
  obtain ⟨-, -, term, -, hboth⟩ := (hread parsed hparsed u hu).exclusive hdatatype hlanguage
  obtain ⟨-, -, term', -, hboth'⟩ := (hdecoded doc hdoc v hv).exclusive hdatatype' hlanguage'
  exact ⟨⟨parsed, term, hparsed, hboth⟩, doc, term', hdoc, hboth'⟩

/-- A constant may have both tags, read from a tree or decoded. -/
theorem constants_tagged_twice :
    (∃ parsed, parse {} (some twiceTaggedTree) = .ok parsed ∧
      ∃ u ∈ parsed.document.termMaps, u.hasDatatype = true ∧ u.hasLanguage = true) ∧
    ∃ doc, decode "" none twiceTaggedTriples = .ok doc ∧
      ∃ u ∈ doc.termMaps, u.hasDatatype = true ∧ u.hasLanguage = true :=
  ⟨exists_parse_twiceTaggedTree, exists_decode_twiceTaggedTriples⟩

end RdfMapping
