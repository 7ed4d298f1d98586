/-
# The sketches of documents

Every part of a document has a sketch, and emission draws it.  The sketch of a part says what is
written for it in both dialects.  A document in normal form states nothing that emission leaves
out.
-/
import RdfMapping.Proofs.Emission.Outline
import RdfMapping.Proofs.Mapping.Rules

namespace RdfMapping

/-! ## The normal form -/

namespace Mapping

/-- A constant has the tags that its kind allows. -/
def Constant.Normal (term : Constant) : Prop :=
  (term.datatype = "" ∨ term.language = "") ∧
    (term.kind ≠ .literal → term.datatype = "" ∧ term.language = "")

mutual

/-- The normal form of a value. -/
def Value.Normal : Value → Prop
  | .constant term => term.Normal
  | .function _ parameters => Parameter.NormalAll parameters
  | .reference _ | .template _ | .join _ _ => True

/-- No parameter is called like the name of the function. -/
def Parameter.NormalAll : List Parameter → Prop
  | [] => True
  | ⟨name, value⟩ :: rest =>
    name ≠ RuleGraph.Property.executes ∧ value.Normal ∧ Parameter.NormalAll rest

/-- The normal form: a constant is tagged as its term is, and a join makes IRIs. -/
def TermMap.Normal : TermMap → Prop
  | ⟨none, _, _, _, _⟩ => True
  | ⟨some value, termType, datatype, language, _⟩ =>
    (value.isConstant = true → datatype = "" ∧ language = "") ∧
    (value.isJoin = true → termType = .iri ∧ datatype = "" ∧ language = "") ∧
    value.Normal

end

/-- The normal form of a predicate-object map. -/
structure PredicateObjectMap.Normal (pom : PredicateObjectMap) : Prop where
  predicates : ∀ tm ∈ pom.predicates, tm.Normal
  objects : ∀ tm ∈ pom.objects, tm.Normal
  graphs : ∀ tm ∈ pom.graphs, tm.Normal

/-- The normal form of a triples map: no class is listed twice. -/
structure TriplesMap.Normal (tm : TriplesMap) : Prop where
  subject : tm.subject.term.Normal
  classes : tm.subject.classes.Nodup
  graphs : ∀ g ∈ tm.subject.graphs, g.Normal
  predicateObjects : ∀ pom ∈ tm.predicateObjects, pom.Normal

instance (term : Constant) : Decidable term.Normal :=
  inferInstanceAs (Decidable (_ ∧ _))

mutual

instance decidableNormalValue : (value : Value) → Decidable value.Normal
  | .constant term => decidable_of_iff term.Normal (by rw [Value.Normal])
  | .function _ parameters =>
    have := decidableNormalParameters parameters
    decidable_of_iff (Parameter.NormalAll parameters) (by rw [Value.Normal])
  | .reference _ => .isTrue (by rw [Value.Normal]; trivial)
  | .template _ => .isTrue (by rw [Value.Normal]; trivial)
  | .join _ _ => .isTrue (by rw [Value.Normal]; trivial)

instance decidableNormalParameters :
    (parameters : List Parameter) → Decidable (Parameter.NormalAll parameters)
  | [] => .isTrue (by rw [Parameter.NormalAll]; trivial)
  | ⟨name, value⟩ :: rest =>
    have := decidableNormalTermMap value
    have := decidableNormalParameters rest
    decidable_of_iff (name ≠ RuleGraph.Property.executes ∧ value.Normal ∧
      Parameter.NormalAll rest) (by rw [Parameter.NormalAll])

instance decidableNormalTermMap : (tm : TermMap) → Decidable tm.Normal
  | ⟨none, _, _, _, _⟩ => .isTrue (by rw [TermMap.Normal]; trivial)
  | ⟨some value, termType, datatype, language, _⟩ =>
    have := decidableNormalValue value
    decidable_of_iff ((value.isConstant = true → datatype = "" ∧ language = "") ∧
      (value.isJoin = true → termType = .iri ∧ datatype = "" ∧ language = "") ∧ value.Normal)
      (by rw [TermMap.Normal])

end

instance (pom : PredicateObjectMap) : Decidable pom.Normal :=
  decidable_of_iff ((∀ tm ∈ pom.predicates, tm.Normal) ∧ (∀ tm ∈ pom.objects, tm.Normal) ∧
    ∀ tm ∈ pom.graphs, tm.Normal) ⟨fun h => ⟨h.1, h.2.1, h.2.2⟩, fun h => ⟨h.1, h.2, h.3⟩⟩

instance (tm : TriplesMap) : Decidable tm.Normal :=
  decidable_of_iff (tm.subject.term.Normal ∧ tm.subject.classes.Nodup ∧
      (∀ g ∈ tm.subject.graphs, g.Normal) ∧ ∀ pom ∈ tm.predicateObjects, pom.Normal)
    ⟨fun h => ⟨h.1, h.2.1, h.2.2.1, h.2.2.2⟩, fun h => ⟨h.1, h.2, h.3, h.4⟩⟩

end Mapping

namespace RuleGraph

open Mapping
open Rdf (Term Quad)

/-- The properties of what a term map states besides its value. -/
def Property.attributes : List String :=
  [termType, datatype, language]

/-! ## Sketches -/

namespace Sketch

/-- An arrow to a text, unless the text is empty. -/
def text (p value : String) : Sketch :=
  if value = "" then done else arrow p (.ofText value) done

/-- An arrow to an IRI, unless the IRI is empty. -/
def iri (p value : String) : Sketch :=
  if value = "" then done else arrow p (.iri value) done

/-- Arrows with one property to new nodes. -/
def links (p : String) : List Sketch → Sketch
  | [] => done
  | s :: rest => link p s (links p rest)

/-- Arrows to classes. -/
def classes : List String → Sketch
  | [] => done
  | c :: rest => arrow Property.classOf (.iri c) (classes rest)

/-- A source. -/
def ofSource (dialect : Dialect) (ls : LogicalSource) : Sketch :=
  arrow rdfType (.iri (sourceClass dialect ls))
    (text Property.source ls.access ++
      (iri Property.referenceFormulation ls.formulation ++
        (text Property.iterator ls.iterator ++
          (text Property.tableName ls.table ++
            (text (queryProperty dialect) ls.query ++ iri Property.sqlVersion ls.sqlVersion)))))

/-- A join condition. -/
def ofCondition (c : JoinCondition) : Sketch :=
  arrow rdfType (.iri Class.join) (text Property.child c.child ++ text Property.parent c.parent)

/-- The kind of terms of a term map, if it is stated. -/
def kind (position : Position) (tm : TermMap) : Sketch :=
  if !tm.value.any Value.isConstant && tm.termType ≠ defaultTermType position tm then
    arrow Property.termType (.iri (kindIri tm.termType)) done
  else done

/-- What a term map states besides its value.  A join states nothing. -/
def attributes (position : Position) (tm : TermMap) : Sketch :=
  if tm.value.any Value.isJoin then done
  else kind position tm ++ (iri Property.datatype tm.datatype ++ text Property.language tm.language)

/-- A predicate-object map, from the sketches of its term maps. -/
def pair (predicates objects graphs : List Sketch) : Sketch :=
  arrow rdfType (.iri Class.predicateObjectMap)
    (links Property.predicateMap predicates ++
      (links Property.objectMap objects ++ links Property.graphMap graphs))

/-- A term map that always makes the same IRI. -/
def ofIri (class_ value : String) : Sketch :=
  arrow rdfType (.iri class_) (arrow Property.constant (.iri value) done)

mutual

/-- A term map. -/
def ofTermMap (s : Setting) (class_ : String) (position : Position) : TermMap → Sketch
  | ⟨none, termType, datatype, language, span⟩ =>
    arrow rdfType (.iri class_) (attributes position ⟨none, termType, datatype, language, span⟩)
  | ⟨some value, termType, datatype, language, span⟩ =>
    arrow rdfType (.iri class_) (ofValue s value ++
      attributes position ⟨some value, termType, datatype, language, span⟩)

/-- A value. -/
def ofValue (s : Setting) : Value → Sketch
  | .constant term => arrow Property.constant (termOf term) done
  | .reference name => arrow (referenceProperty s.dialect) (.ofText name) done
  | .template pattern => arrow Property.template (.ofText pattern) done
  | .function name parameters =>
    link Property.functionValue
      (links Property.predicateObjectMap
        (pair [ofIri Class.predicateMap Property.executes] [ofIri Class.objectMap name] [] ::
          ofParameters s parameters)) done
  | .join parent conditions =>
    arrow Property.parentTriplesMap (.iri (mapIri s.base parent))
      (links Property.joinCondition (conditions.map ofCondition))

/-- The parameters of a function. -/
def ofParameters (s : Setting) : List Parameter → List Sketch
  | [] => []
  | ⟨name, value⟩ :: rest =>
    pair [ofIri Class.predicateMap name] [ofTermMap s (objectClass value) .parameter value] [] ::
      ofParameters s rest

end

/-- Graphs. -/
def ofGraphs (s : Setting) (graphs : List TermMap) : List Sketch :=
  graphs.map (ofTermMap s Class.graphMap .graph)

/-- A predicate-object map. -/
def ofPair (s : Setting) (pom : PredicateObjectMap) : Sketch :=
  pair (pom.predicates.map (ofTermMap s Class.predicateMap .predicate))
    (pom.objects.map fun o => ofTermMap s (objectClass o) .object o) (ofGraphs s pom.graphs)

/-- The subjects of a triples map. -/
def ofSubject (s : Setting) (subject : SubjectMap) : Sketch :=
  ofTermMap s Class.subjectMap .subject subject.term ++
    (classes subject.classes ++ links Property.graphMap (ofGraphs s subject.graphs))

/-- A triples map. -/
def ofTriplesMap (s : Setting) (tm : TriplesMap) : Sketch :=
  link (sourceProperty s.dialect) (ofSource s.dialect tm.source)
    (arrow rdfType (.iri Class.triplesMap)
      (link Property.subjectMap (ofSubject s tm.subject)
        (links Property.predicateObjectMap (tm.predicateObjects.map (ofPair s)))))

end Sketch

/-! ## Emission draws the sketches -/

section Steps

open Sketch

variable {s : Setting}

theorem Step.write_cons (t : Quad) (ts : List Quad) :
    Step.write (t :: ts) = (do .write [t]; .write ts) := rfl

theorem Step.write_cons_cons (t u : Quad) (ts : List Quad) :
    Step.write (t :: u :: ts) = (do .write [t]; .write (u :: ts)) := rfl

theorem draw_done (used : List String) (n : Term) : done.draw used n = pure () := rfl

theorem draw_arrow (used : List String) (n : Term) (p : String) (o : Term) (rest : Sketch) :
    (arrow p o rest).draw used n = (do .write [triple n p o]; rest.draw used n) := rfl

theorem draw_text (used : List String) (n : Term) (p value : String) :
    (text p value).draw used n = .write (textTriple n p value) := by
  unfold text textTriple
  split <;> rfl

theorem draw_iri (used : List String) (n : Term) (p value : String) :
    (iri p value).draw used n = .write (iriTriple n p value) := by
  unfold iri iriTriple
  split <;> rfl

theorem draw_classes (used : List String) (n : Term) (cs : List String) :
    (classes cs).draw used n = .write (cs.map fun c => triple n Property.classOf (.iri c)) := by
  induction cs with
  | nil => rfl
  | cons c rest ih => rw [classes, draw_arrow, ih, List.map_cons, ← Step.write_cons]

/-- Draws a new node that another one leads to. -/
def linkStep (used : List String) (n : Term) (p : String) (inner : Sketch) : Step Unit := do
  let x ← freshNode used
  .write [triple n p x]
  inner.draw used x

theorem draw_link (used : List String) (n : Term) (p : String) (inner rest : Sketch) :
    (link p inner rest).draw used n = (do linkStep used n p inner; rest.draw used n) := by
  rw [draw, linkStep]
  simp only [bind_assoc]

theorem draw_links (used : List String) (n : Term) (p : String) (inners : List Sketch) :
    (links p inners).draw used n = .each (linkStep used n p) inners := by
  induction inners with
  | nil => rfl
  | cons inner rest ih => rw [links, draw_link, ih, Step.each]

theorem Step.each_map {α β : Type} (f : β → Step Unit) (k : α → β) (as : List α) :
    Step.each f (as.map k) = Step.each (fun a => f (k a)) as := by
  induction as with
  | nil => rfl
  | cons a as ih => rw [List.map_cons, Step.each, ih, Step.each]

theorem Step.each_congr {α : Type} {f k : α → Step Unit} {as : List α}
    (h : ∀ a ∈ as, f a = k a) : Step.each f as = Step.each k as := by
  induction as with
  | nil => rfl
  | cons a as ih =>
    rw [List.forall_mem_cons] at h
    rw [Step.each, Step.each, h.1, ih h.2]

theorem draw_kind (used : List String) (n : Term) (position : Position) (tm : TermMap) :
    (kind position tm).draw used n =
      .write (if !tm.value.any Value.isConstant && tm.termType ≠ defaultTermType position tm then
        [triple n Property.termType (.iri (kindIri tm.termType))] else []) := by
  unfold kind
  split <;> rfl

theorem draw_attributes (used : List String) (n : Term) (position : Position) {tm : TermMap}
    (h : tm.value.any Value.isJoin = false) :
    (attributes position tm).draw used n = .write (attributeTriples n position tm) := by
  rw [attributes, h, if_neg Bool.false_ne_true, draw_append, draw_append, draw_kind, draw_iri,
    draw_text, attributeTriples, Step.write_append, Step.write_append, bind_assoc]

theorem joinStep_eq_draw (n : Term) (c : JoinCondition) :
    joinStep s n c = linkStep s.used n Property.joinCondition (ofCondition c) := by
  simp only [joinStep, linkStep, ofCondition, draw_arrow, draw_append, draw_text]
  rfl

theorem draw_ofIri (used : List String) (n : Term) (class_ value : String) :
    (ofIri class_ value).draw used n =
      .write [typeTriple n class_, triple n Property.constant (.iri value)] := rfl

/-- An entry of a function value with the node of its object map. -/
theorem entryStep_eq_draw (fn : Term) (property : String) (object : Sketch) :
    (do
      let entry ← entryStep s fn property
      linkStep s.used entry Property.objectMap object) =
    linkStep s.used fn Property.predicateObjectMap
      (pair [ofIri Class.predicateMap property] [object] []) := by
  simp only [entryStep, linkStep, pair, draw_arrow, links, draw_link, draw_append, draw_ofIri,
    draw_done, Step.write_cons_cons, typeTriple, bind_assoc, pure_bind, bind_pure_unit]

mutual

/-- **Emission draws the sketch of a term map.** -/
theorem termMapStep_eq_draw (n : Term) (class_ : String) (position : Position) :
    ∀ tm : TermMap,
      termMapStep s n class_ position tm = (ofTermMap s class_ position tm).draw s.used n
  | ⟨none, termType, datatype, language, span⟩ => by
    rw [termMapStep, ofTermMap, draw_arrow, draw_attributes _ _ _ rfl]
    rfl
  | ⟨some value, termType, datatype, language, span⟩ => by
    rw [termMapStep, ofTermMap, draw_arrow, draw_append, valueStep_eq_draw n value]
    cases hj : value.isJoin with
    | true =>
      have hnone : attributes position ⟨some value, termType, datatype, language, span⟩ = done :=
        if_pos hj
      rw [hnone]
      rfl
    | false =>
      have hdraw : (attributes position ⟨some value, termType, datatype, language, span⟩).draw
          s.used n = _ := draw_attributes _ _ _ hj
      rw [hdraw]
      rfl

/-- Emission draws the sketch of a value. -/
theorem valueStep_eq_draw (n : Term) :
    ∀ v : Value, valueStep s n v = (ofValue s v).draw s.used n
  | .constant term => by rw [valueStep, ofValue]; rfl
  | .reference name => by rw [valueStep, ofValue]; rfl
  | .template pattern => by rw [valueStep, ofValue]; rfl
  | .function name parameters => by
    have hentry (fn : Term) : (do
          let entry ← entryStep s fn Property.executes
          let om ← freshNode s.used
          Step.write [triple entry Property.objectMap om, typeTriple om Class.objectMap,
            triple om Property.constant (.iri name)]) =
        linkStep s.used fn Property.predicateObjectMap
          (pair [ofIri Class.predicateMap Property.executes] [ofIri Class.objectMap name] []) :=
      entryStep_eq_draw fn Property.executes (ofIri Class.objectMap name)
    rw [valueStep, ofValue, draw_link, linkStep]
    simp only [links, draw_link, draw_links, draw_done, parametersStep_eq_draw _ parameters,
      ← hentry, bind_assoc, bind_pure_unit]
  | .join parent conditions => by
    rw [valueStep, ofValue, draw_arrow, draw_links, Step.each_map]
    exact congrArg _ (funext fun _ => Step.each_congr fun c _ => joinStep_eq_draw n c)

theorem parametersStep_eq_draw (fn : Term) :
    ∀ ps : List Parameter, parametersStep s fn ps =
      .each (linkStep s.used fn Property.predicateObjectMap) (ofParameters s ps)
  | [] => by rw [parametersStep, ofParameters, Step.each]
  | ⟨name, value⟩ :: rest => by
    rw [parametersStep, ofParameters, Step.each, ← entryStep_eq_draw]
    simp only [termMapStep_eq_draw _ _ _ value, parametersStep_eq_draw fn rest, linkStep,
      bind_assoc]

end

theorem linkedStep_eq_draw (n : Term) (p class_ : String) (position : Position) (tm : TermMap) :
    linkedStep s n p class_ position tm =
      linkStep s.used n p (ofTermMap s class_ position tm) := by
  simp only [linkedStep, linkStep, termMapStep_eq_draw]

theorem graphsStep_eq_draw (n : Term) (graphs : List TermMap) :
    graphsStep s n graphs = (links Property.graphMap (ofGraphs s graphs)).draw s.used n := by
  rw [graphsStep, draw_links, ofGraphs, Step.each_map]
  exact Step.each_congr fun g _ => linkedStep_eq_draw _ _ _ _ g

theorem pairStep_eq_draw (n : Term) (pom : PredicateObjectMap) :
    pairStep s n pom = linkStep s.used n Property.predicateObjectMap (ofPair s pom) := by
  have hp (x : Term) : Step.each
      (linkedStep s x Property.predicateMap Class.predicateMap .predicate) pom.predicates =
        .each (fun tm => linkStep s.used x Property.predicateMap
          (ofTermMap s Class.predicateMap .predicate tm)) pom.predicates :=
    Step.each_congr fun tm _ => linkedStep_eq_draw _ _ _ _ tm
  have ho (x : Term) : Step.each
      (fun o => linkedStep s x Property.objectMap (objectClass o) .object o) pom.objects =
        .each (fun tm => linkStep s.used x Property.objectMap
          (ofTermMap s (objectClass tm) .object tm)) pom.objects :=
    Step.each_congr fun tm _ => linkedStep_eq_draw _ _ _ _ tm
  simp only [pairStep, linkStep, ofPair, pair, draw_arrow, draw_append, draw_links, Step.each_map,
    hp, ho, graphsStep_eq_draw, Step.write_cons_cons, typeTriple, bind_assoc]

/-- What the relational dialect leaves out of a source is not there. -/
def SourceFits (dialect : Dialect) (ls : LogicalSource) : Prop :=
  dialect = .r2rml → ls.access = "" ∧ ls.formulation = "" ∧ ls.iterator = ""

theorem draw_ofSource (used : List String) (n : Term) {dialect : Dialect} {ls : LogicalSource}
    (h : SourceFits dialect ls) :
    (ofSource dialect ls).draw used n = .write (sourceTriples dialect n ls) := by
  simp only [ofSource, draw_arrow, draw_append, draw_text, draw_iri, ← Step.write_append]
  cases dialect with
  | rml =>
    simp only [sourceTriples, typeTriple, List.cons_append, List.nil_append, List.append_assoc]
  | r2rml =>
    obtain ⟨ha, hf, hi⟩ := h rfl
    simp only [sourceTriples, ha, hf, hi, textTriple, iriTriple, if_pos, List.append_assoc]
    rfl

/-- **Emission draws the sketch of a triples map.** -/
theorem triplesMapStep_eq_draw {tm : TriplesMap} (hs : SourceFits s.dialect tm.source) :
    triplesMapStep s tm = (ofTriplesMap s tm).draw s.used (.iri (mapIri s.base tm.id)) := by
  have hpairs (n : Term) : Step.each (pairStep s n) tm.predicateObjects =
      .each (fun pom => linkStep s.used n Property.predicateObjectMap (ofPair s pom))
        tm.predicateObjects :=
    Step.each_congr fun pom _ => pairStep_eq_draw n pom
  simp only [triplesMapStep, ofTriplesMap, ofSubject, draw_link, linkStep, draw_arrow, draw_append,
    draw_classes, draw_links, Step.each_map, hpairs, draw_ofSource _ _ hs,
    graphsStep_eq_draw, termMapStep_eq_draw, typeTriple,
    Step.write_cons (triple _ _ _) (sourceTriples _ _ _), bind_assoc]

end Steps

/-! ## The sketches are tidy -/

/-- The properties of arrows to terms. -/
def leafProperties : Dialect → List String
  | .rml => [rdfType, Property.source, Property.referenceFormulation, Property.iterator,
      Property.tableName, Property.query, Property.sqlVersion, Property.constant,
      Property.reference, Property.template, Property.parentTriplesMap, Property.child,
      Property.parent, Property.termType, Property.datatype, Property.language, Property.classOf]
  | .r2rml => [rdfType, Property.tableName, Property.sqlQuery, Property.sqlVersion,
      Property.constant, Property.column, Property.template, Property.parentTriplesMap,
      Property.child, Property.parent, Property.termType, Property.datatype, Property.language,
      Property.classOf]

/-- The properties of arrows to new nodes, apart from sources. -/
def linkProperties : Dialect → List String
  | .rml => [Property.functionValue, Property.subjectMap, Property.predicateObjectMap,
      Property.predicateMap, Property.objectMap, Property.graphMap, Property.joinCondition]
  | .r2rml => [Property.subjectMap, Property.predicateObjectMap, Property.predicateMap,
      Property.objectMap, Property.graphMap, Property.joinCondition]

/-- A tidy sketch of a new node in a dialect. -/
def Sketch.Neat (used : List String) (dialect : Dialect) (t : Sketch) : Prop :=
  t.arrows.Nodup ∧ t.Tidy used (leafProperties dialect) (linkProperties dialect)

section Tidy

open Sketch

variable {used leaves ks : List String} {dialect : Dialect} {s : Setting} {p value : String}
  {subject : SubjectMap} {tm : TriplesMap} {leaf : String → Term → Prop}
  {branch : String → Sketch → Prop}

theorem all_text (h : value ≠ "" → leaf p (.ofText value)) : (text p value).All leaf branch := by
  unfold text
  split
  · trivial
  · next hv => exact ⟨h hv, trivial⟩

theorem all_iri (h : value ≠ "" → leaf p (.iri value)) : (iri p value).All leaf branch := by
  unfold iri
  split
  · trivial
  · next hv => exact ⟨h hv, trivial⟩

theorem all_links {inners : List Sketch} (h : ∀ t ∈ inners, branch p t ∧ t.All leaf branch) :
    (links p inners).All leaf branch := by
  induction inners with
  | nil => trivial
  | cons t rest ih =>
    rw [List.forall_mem_cons] at h
    exact ⟨h.1.1, h.1.2, ih h.2⟩

theorem all_classes {cs : List String} (h : ∀ c, leaf Property.classOf (.iri c)) :
    (classes cs).All leaf branch := by
  induction cs with
  | nil => trivial
  | cons c rest ih => exact ⟨h c, ih⟩

/-- What a term map states besides its value are IRIs and texts. -/
theorem all_attributes (position : Position) (tm : TermMap)
    (h : ∀ p ∈ [Property.termType, Property.datatype, Property.language], ∀ o : Term,
      (∀ l, o ≠ .blank l) → leaf p o) : (attributes position tm).All leaf branch := by
  have hkind : (kind position tm).All leaf branch := by
    unfold kind
    split
    · exact ⟨h _ (by decide) _ fun _ ho => Term.noConfusion ho, trivial⟩
    · trivial
  unfold attributes
  split
  · trivial
  · rw [all_append, all_append]
    refine ⟨hkind, all_iri fun _ => h _ (by decide) _ ?_, all_text fun _ => h _ (by decide) _ ?_⟩
    · exact fun _ ho => Term.noConfusion ho
    · exact fun _ ho => Term.noConfusion ho

theorem tidy_text (h : value ≠ "" → p ∈ leaves) : (text p value).Tidy used leaves ks :=
  all_text fun hv => ⟨h hv, fun _ ho => Term.noConfusion ho⟩

theorem tidy_iri (h : value ≠ "" → p ∈ leaves) : (iri p value).Tidy used leaves ks :=
  all_iri fun hv => ⟨h hv, fun _ ho => Term.noConfusion ho⟩

theorem tidy_links {inners : List Sketch} (hp : p ∈ ks)
    (h : ∀ t ∈ inners, t.arrows.Nodup ∧ t.Tidy used leaves ks) :
    (links p inners).Tidy used leaves ks :=
  all_links fun t ht => ⟨⟨hp, (h t ht).1⟩, (h t ht).2⟩

theorem arrows_links (p : String) (inners : List Sketch) : (links p inners).arrows = [] := by
  induction inners with
  | nil => rfl
  | cons t rest ih => exact ih

theorem arrows_classes (cs : List String) :
    (classes cs).arrows = cs.map fun c => (Property.classOf, .iri c) := by
  induction cs with
  | nil => rfl
  | cons c rest ih => exact congrArg _ ih

theorem fst_arrows_text (p value : String) :
    ((text p value).arrows.map Prod.fst).Sublist [p] := by
  unfold text
  split
  · exact List.nil_sublist _
  · exact List.Sublist.refl _

theorem fst_arrows_iri (p value : String) :
    ((iri p value).arrows.map Prod.fst).Sublist [p] := by
  unfold iri
  split
  · exact List.nil_sublist _
  · exact List.Sublist.refl _

/-- Arrows with distinct properties are distinct. -/
theorem nodup_arrows {t : Sketch} (ps : List String)
    (h : (t.arrows.map Prod.fst).Sublist ps) (hps : ps.Nodup) : t.arrows.Nodup :=
  (hps.sublist h).of_map Prod.fst

/-! ### Sources and conditions -/

/-- The sketch of a source is neat. -/
theorem neat_ofSource {ls : LogicalSource} (h : SourceFits dialect ls) :
    (ofSource dialect ls).Neat used dialect := by
  constructor
  · refine nodup_arrows [rdfType, Property.source, Property.referenceFormulation,
      Property.iterator, Property.tableName, queryProperty dialect, Property.sqlVersion] ?_
      (by cases dialect <;> decide)
    simp only [ofSource, arrows, arrows_append, List.map_cons, List.map_append]
    exact ((fst_arrows_text _ _).append ((fst_arrows_iri _ _).append ((fst_arrows_text _ _).append
      ((fst_arrows_text _ _).append ((fst_arrows_text _ _).append
        (fst_arrows_iri _ _)))))).cons_cons _
  · simp only [ofSource, All, all_append]
    refine ⟨⟨by cases dialect <;> decide, fun _ ho => Term.noConfusion ho⟩, tidy_text fun hv => ?_,
      tidy_iri fun hv => ?_, tidy_text fun hv => ?_, tidy_text fun _ => ?_, tidy_text fun _ => ?_,
      tidy_iri fun _ => ?_⟩
    · cases dialect with
      | rml => decide
      | r2rml => exact absurd (h rfl).1 hv
    · cases dialect with
      | rml => decide
      | r2rml => exact absurd (h rfl).2.1 hv
    · cases dialect with
      | rml => decide
      | r2rml => exact absurd (h rfl).2.2 hv
    · cases dialect <;> decide
    · cases dialect <;> decide
    · cases dialect <;> decide

theorem neat_ofCondition (c : JoinCondition) : (ofCondition c).Neat used dialect := by
  constructor
  · refine nodup_arrows [rdfType, Property.child, Property.parent] ?_ (by decide)
    simp only [ofCondition, arrows, arrows_append, List.map_cons, List.map_append]
    exact ((fst_arrows_text _ _).append (fst_arrows_text _ _)).cons_cons _
  · simp only [ofCondition, All, all_append]
    refine ⟨⟨?_, fun _ ho => Term.noConfusion ho⟩, tidy_text fun _ => ?_, tidy_text fun _ => ?_⟩ <;>
      cases dialect <;> decide

/-! ### Term maps -/

/-- The properties of arrows to terms that a term map has. -/
def termProperties (p : String) : List String :=
  [rdfType, p, Property.termType, Property.datatype, Property.language]

/-- A value has one arrow to a term at most. -/
theorem fst_arrows_ofValue (s : Setting) (v : Value) :
    ∃ p ∈ Property.values, ((ofValue s v).arrows.map Prod.fst).Sublist [p] := by
  cases v with
  | constant term =>
    exact ⟨Property.constant, by decide, by rw [ofValue]; exact List.Sublist.refl _⟩
  | reference name =>
    refine ⟨referenceProperty s.dialect, by cases s.dialect <;> decide, ?_⟩
    rw [ofValue]
    exact List.Sublist.refl _
  | template pattern =>
    exact ⟨Property.template, by decide, by rw [ofValue]; exact List.Sublist.refl _⟩
  | function name parameters =>
    exact ⟨Property.functionValue, by decide, by rw [ofValue]; exact List.nil_sublist _⟩
  | join parent conditions =>
    refine ⟨Property.parentTriplesMap, by decide, ?_⟩
    rw [ofValue, arrows, arrows_links]
    exact List.Sublist.refl _

theorem fst_arrows_attributes (position : Position) (tm : TermMap) :
    ((attributes position tm).arrows.map Prod.fst).Sublist
      [Property.termType, Property.datatype, Property.language] := by
  have hkind : ((kind position tm).arrows.map Prod.fst).Sublist [Property.termType] := by
    unfold kind
    split
    · exact List.Sublist.refl _
    · exact List.nil_sublist _
  unfold attributes
  split
  · exact List.nil_sublist _
  · rw [arrows_append, arrows_append, List.map_append, List.map_append]
    exact hkind.append ((fst_arrows_iri _ _).append (fst_arrows_text _ _))

theorem fst_arrows_ofTermMap (s : Setting) (class_ : String) (position : Position)
    (tm : TermMap) :
    ∃ p ∈ Property.values,
      ((ofTermMap s class_ position tm).arrows.map Prod.fst).Sublist (termProperties p) := by
  rcases tm with ⟨_ | v, t, d, l, span⟩
  · refine ⟨Property.constant, by decide, ?_⟩
    rw [ofTermMap, arrows, List.map_cons]
    exact ((fst_arrows_attributes _ _).cons _).cons_cons _
  · obtain ⟨p, hp, hv⟩ := fst_arrows_ofValue s v
    refine ⟨p, hp, ?_⟩
    rw [ofTermMap, arrows, List.map_cons, arrows_append, List.map_append]
    exact (hv.append (fst_arrows_attributes _ _)).cons_cons _

theorem nodup_arrows_ofTermMap (s : Setting) (class_ : String) (position : Position)
    (tm : TermMap) : (ofTermMap s class_ position tm).arrows.Nodup := by
  have hnodup : ∀ p ∈ Property.values, (termProperties p).Nodup := by decide
  obtain ⟨p, hp, h⟩ := fst_arrows_ofTermMap s class_ position tm
  exact nodup_arrows _ h (hnodup p hp)

theorem tidy_attributes (position : Position) (tm : TermMap) :
    (attributes position tm).Tidy used (leafProperties dialect) ks := by
  refine all_attributes position tm fun p hp o ho => ⟨?_, fun l h => absurd h (ho l)⟩
  cases dialect <;> exact (by decide : ∀ p ∈ [Property.termType, _, _], p ∈ leafProperties _) p hp

theorem neat_pair {predicates objects graphs : List Sketch}
    (hp : ∀ t ∈ predicates, t.Neat used dialect) (ho : ∀ t ∈ objects, t.Neat used dialect)
    (hg : ∀ t ∈ graphs, t.Neat used dialect) :
    (pair predicates objects graphs).Neat used dialect := by
  constructor
  · rw [pair, arrows, arrows_append, arrows_append, arrows_links, arrows_links, arrows_links]
    exact List.nodup_singleton _
  · rw [pair, Tidy, All, all_append, all_append]
    refine ⟨⟨?_, fun _ ho => Term.noConfusion ho⟩, tidy_links ?_ hp, tidy_links ?_ ho,
      tidy_links ?_ hg⟩ <;> cases dialect <;> decide

theorem neat_ofIri (class_ value : String) : (ofIri class_ value).Neat used dialect := by
  constructor
  · exact nodup_arrows [rdfType, Property.constant] (List.Sublist.refl _) (by decide)
  · refine ⟨⟨?_, fun _ ho => Term.noConfusion ho⟩, ⟨?_, fun _ ho => Term.noConfusion ho⟩,
      trivial⟩ <;>
      cases dialect <;> decide

/-- The label of a blank constant counts as used. -/
theorem eq_blankNode_of_termOf {term : Constant} {l : String} (h : termOf term = .blank l) :
    l ∈ labelsOfValue (.constant term) := by
  obtain ⟨kind, value, datatype, language⟩ := term
  cases kind with
  | iri => cases h
  | blankNode =>
    cases h
    rw [labelsOfValue]
    exact List.mem_singleton.2 rfl
  | literal =>
    simp only [termOf] at h
    split at h
    · cases h
    · split at h <;> cases h

mutual

/-- **The sketch of a term map is tidy.** -/
theorem tidy_ofTermMap (class_ : String) (position : Position) :
    ∀ {tm : TermMap}, (∀ l ∈ labelsOf tm, l ∈ used) →
      (s.dialect = .r2rml → isFunctionMap tm = false) →
      (ofTermMap s class_ position tm).Tidy used (leafProperties s.dialect)
        (linkProperties s.dialect)
  | ⟨none, _, _, _, _⟩, _, _ => by
    rw [ofTermMap]
    exact ⟨⟨by cases s.dialect <;> decide, fun _ ho => Term.noConfusion ho⟩, tidy_attributes _ _⟩
  | ⟨some v, _, _, _, _⟩, hl, hf => by
    rw [labelsOf] at hl
    rw [ofTermMap, Tidy, All, all_append]
    exact ⟨⟨by cases s.dialect <;> decide, fun _ ho => Term.noConfusion ho⟩,
      tidy_ofValue hl hf, tidy_attributes _ _⟩

/-- The sketch of a value is tidy. -/
theorem tidy_ofValue :
    ∀ {v : Value}, (∀ l ∈ labelsOfValue v, l ∈ used) →
      (s.dialect = .r2rml → v.isFunction = false) →
      (ofValue s v).Tidy used (leafProperties s.dialect) (linkProperties s.dialect)
  | .constant term, hl, _ => by
    rw [ofValue]
    exact ⟨⟨by cases s.dialect <;> decide, fun l ho => hl l (eq_blankNode_of_termOf ho)⟩, trivial⟩
  | .reference _, _, _ => by
    rw [ofValue]
    exact ⟨⟨by cases s.dialect <;> decide, fun _ ho => Term.noConfusion ho⟩, trivial⟩
  | .template _, _, _ => by
    rw [ofValue]
    exact ⟨⟨by cases s.dialect <;> decide, fun _ ho => Term.noConfusion ho⟩, trivial⟩
  | .function name parameters, hl, hf => by
    rw [labelsOfValue] at hl
    rw [ofValue]
    have hd : s.dialect = .rml := by
      cases hd : s.dialect with
      | rml => rfl
      | r2rml => exact absurd (hf hd) (by simp [Value.isFunction])
    have hentry : ∀ t ∈ pair [ofIri Class.predicateMap Property.executes]
          [ofIri Class.objectMap name] [] :: ofParameters s parameters, t.Neat used s.dialect := by
      rw [List.forall_mem_cons]
      refine ⟨neat_pair ?_ ?_ (by simp), neat_ofParameters hl hd⟩
      · simpa using neat_ofIri _ _
      · simpa using neat_ofIri _ _
    refine ⟨⟨by rw [hd]; decide, ?_⟩, tidy_links ?_ hentry, trivial⟩
    · rw [arrows_links]
      exact List.nodup_nil
    · cases s.dialect <;> decide
  | .join parent conditions, _, _ => by
    rw [ofValue]
    refine ⟨⟨by cases s.dialect <;> decide, fun _ ho => Term.noConfusion ho⟩, tidy_links ?_ ?_⟩
    · cases s.dialect <;> decide
    · intro t ht
      obtain ⟨c, -, rfl⟩ := List.mem_map.1 ht
      exact neat_ofCondition c

/-- The sketches of parameters are neat. -/
theorem neat_ofParameters :
    ∀ {ps : List Parameter}, (∀ l ∈ labelsOfParameters ps, l ∈ used) → s.dialect = .rml →
      ∀ t ∈ ofParameters s ps, t.Neat used s.dialect
  | [], _, _ => by
    rw [ofParameters]
    exact fun t ht => absurd ht List.not_mem_nil
  | ⟨name, value⟩ :: rest, hl, hd => by
    rw [labelsOfParameters] at hl
    rw [ofParameters, List.forall_mem_cons]
    have hvalue := tidy_ofTermMap (objectClass value) .parameter
      (fun l h => hl l (List.mem_append_left _ h)) (fun h => absurd (hd.symm.trans h) (by decide))
    refine ⟨neat_pair ?_ ?_ (by simp),
      neat_ofParameters (fun l h => hl l (List.mem_append_right _ h)) hd⟩
    · simpa using neat_ofIri _ _
    · simpa using ⟨nodup_arrows_ofTermMap s _ _ value, hvalue⟩

end

/-! ### Triples maps -/

/-- A term map that a dialect can express, with its labels among those in use. -/
def TermFits (s : Setting) (t : TermMap) : Prop :=
  (s.dialect = .r2rml → isFunctionMap t = false) ∧ ∀ l ∈ labelsOf t, l ∈ s.used

theorem neat_ofTermMap {t : TermMap} (h : TermFits s t) (class_ : String) (position : Position) :
    (ofTermMap s class_ position t).Neat s.used s.dialect :=
  ⟨nodup_arrows_ofTermMap _ _ _ _, tidy_ofTermMap class_ position h.2 h.1⟩

/-- A triples map that a dialect can express, with its labels among those in use. -/
structure TriplesMapFits (s : Setting) (tm : TriplesMap) : Prop where
  source : SourceFits s.dialect tm.source
  terms : ∀ t ∈ tm.termMaps, TermFits s t.2

theorem neat_ofGraphs {graphs : List TermMap} (h : ∀ g ∈ graphs, TermFits s g) :
    ∀ t ∈ ofGraphs s graphs, t.Neat s.used s.dialect := by
  intro t ht
  obtain ⟨g, hmem, rfl⟩ := List.mem_map.1 ht
  exact neat_ofTermMap (h g hmem) _ _

/-- A subject map has no arrow twice. -/
theorem nodup_arrows_ofSubject (h : subject.classes.Nodup) :
    (ofSubject s subject).arrows.Nodup := by
  have hclass : ∀ p ∈ Property.values, Property.classOf ∉ termProperties p := by decide
  rw [ofSubject, arrows_append, arrows_append, arrows_links, List.append_nil, arrows_classes,
    List.nodup_append]
  refine ⟨nodup_arrows_ofTermMap _ _ _ _, ?_, ?_⟩
  · refine List.Nodup.map ?_ h
    intro a b hab
    simpa using hab
  · rintro a ha b hb rfl
    obtain ⟨c, -, rfl⟩ := List.mem_map.1 hb
    obtain ⟨p, hp, hsub⟩ := fst_arrows_ofTermMap s Class.subjectMap .subject subject.term
    exact hclass p hp (hsub.subset (List.mem_map.2 ⟨_, ha, rfl⟩))

theorem neat_ofSubject (hc : subject.classes.Nodup) (ht : TermFits s subject.term)
    (hg : ∀ g ∈ subject.graphs, TermFits s g) : (ofSubject s subject).Neat s.used s.dialect := by
  refine ⟨nodup_arrows_ofSubject hc, ?_⟩
  rw [ofSubject, Tidy, all_append, all_append]
  refine ⟨(neat_ofTermMap ht _ _).2, all_classes fun c => ⟨?_, fun _ ho => Term.noConfusion ho⟩,
    tidy_links ?_ (neat_ofGraphs hg)⟩ <;> cases s.dialect <;> decide

theorem neat_ofPair {pom : PredicateObjectMap} (hp : ∀ t ∈ pom.predicates, TermFits s t)
    (ho : ∀ t ∈ pom.objects, TermFits s t) (hg : ∀ t ∈ pom.graphs, TermFits s t) :
    (ofPair s pom).Neat s.used s.dialect := by
  refine neat_pair ?_ ?_ (neat_ofGraphs hg)
  · intro t ht
    obtain ⟨tm, hmem, rfl⟩ := List.mem_map.1 ht
    exact neat_ofTermMap (hp tm hmem) _ _
  · intro t ht
    obtain ⟨tm, hmem, rfl⟩ := List.mem_map.1 ht
    exact neat_ofTermMap (ho tm hmem) _ _

/-- **The sketch of a triples map is tidy.** -/
theorem tidy_ofTriplesMap (h : TriplesMapFits s tm) (hclasses : tm.subject.classes.Nodup) :
    (ofTriplesMap s tm).arrows.Nodup ∧
      ∃ inner rest, ofTriplesMap s tm = link (sourceProperty s.dialect) inner rest ∧
        inner.Neat s.used s.dialect ∧
        rest.Tidy s.used (leafProperties s.dialect) (linkProperties s.dialect) := by
  obtain ⟨hsubject, hgraphs, hpairs⟩ := forall_termMaps.1 h.terms
  constructor
  · rw [ofTriplesMap, arrows, arrows, arrows, arrows_links]
    exact List.nodup_singleton _
  · have hsubject := neat_ofSubject hclasses hsubject hgraphs
    refine ⟨_, _, rfl, neat_ofSource h.source, ⟨?_, fun _ ho => Term.noConfusion ho⟩,
      ⟨?_, hsubject.1⟩, hsubject.2, tidy_links ?_ ?_⟩
    · cases s.dialect <;> decide
    · cases s.dialect <;> decide
    · cases s.dialect <;> decide
    · intro t ht
      obtain ⟨pom, hpom, rfl⟩ := List.mem_map.1 ht
      obtain ⟨hp, ho, hg⟩ := hpairs pom hpom
      exact neat_ofPair hp ho hg

/-- Apart from the source, the sketch is sorted without the properties of sources. -/
theorem sorted_ofTriplesMap (h : TriplesMapFits s tm) :
    ∃ inner rest, ofTriplesMap s tm = link (sourceProperty s.dialect) inner rest ∧
      inner.Sorted (leafProperties s.dialect) (linkProperties s.dialect) ∧
      rest.Sorted (leafProperties s.dialect) (linkProperties s.dialect) := by
  have hmem (d : Dialect) : rdfType ∈ leafProperties d ∧ Property.classOf ∈ leafProperties d ∧
      Property.subjectMap ∈ linkProperties d ∧ Property.graphMap ∈ linkProperties d ∧
      Property.predicateObjectMap ∈ linkProperties d := by
    cases d <;> decide
  obtain ⟨htype, hclass, hsubject, hgraph, hpair⟩ := hmem s.dialect
  obtain ⟨hterm, hgraphs, hpairs⟩ := forall_termMaps.1 h.terms
  have hsource : (ofSource s.dialect tm.source).Neat s.used s.dialect := neat_ofSource h.source
  have hothers : (links Property.predicateObjectMap (tm.predicateObjects.map (ofPair s))).Tidy
      s.used (leafProperties s.dialect) (linkProperties s.dialect) := by
    refine tidy_links hpair fun t ht => ?_
    obtain ⟨pom, hpom, rfl⟩ := List.mem_map.1 ht
    obtain ⟨hp, ho, hg⟩ := hpairs pom hpom
    exact neat_ofPair hp ho hg
  refine ⟨_, _, rfl, hsource.2.sorted, htype, hsubject, ?_, hothers.sorted⟩
  -- classes may be repeated, so the subject need not be tidy as a whole
  rw [ofSubject, all_append, all_append]
  exact ⟨(neat_ofTermMap hterm _ _).2.sorted, all_classes fun _ => hclass,
    (tidy_links hgraph (neat_ofGraphs hgraphs)).sorted⟩

end Tidy

end RuleGraph

end RdfMapping
