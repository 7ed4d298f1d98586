/-
# Documents read from shorthand

A document that is read from shorthand is made by adding one mapping after the other to a new
document, and is returned only if it obeys the rules.
-/
import RdfMapping.Proofs.Mapping.Rules
import RdfMapping.Proofs.Mapping.Store
import RdfMapping.Shorthand.Document

namespace RdfMapping.Shorthand

open Mapping
open Yaml (Node Entry)

variable {settings : Settings} {root : Option Node} {parsed : Parsed}

section Mappings

variable {scope : Scope} {declared : List NamedSource} {doc : Document} {tm : TriplesMap}

/-- A mapping is entered as the store has it. -/
theorem value_enterMapping (doc : Document) (tm : TriplesMap) (key : Node) (place : Place) :
    (enterMapping doc tm key place).value = ((Document.insert tm).run doc).2 := by
  unfold enterMapping
  split <;> next h => rw [h]; rfl

/-- A mapping with a new identifier is not refused. -/
theorem enterMapping_eq_pure (hdoc : doc.Indexed) (hfrozen : doc.frozen = false)
    (hid : tm.id ∉ doc.ids) (key : Node) (place : Place) :
    enterMapping doc tm key place = pure (doc.extend [tm]) := by
  rw [enterMapping, hdoc.run_insert_eq hfrozen hid]

/-- What is read at a place has the identifier of the mapping there. -/
theorem id_of_value_readMapping {key body : Node} {place : Place}
    (h : (readMapping scope declared key body place).run.value = some tm) :
    tm.id = place.mapping := by
  unfold readMapping at h
  split at h
  · cases h
  · split at h
    · change (if _ then some (readMappingParts scope declared key body place).value
        else none) = _ at h
      split at h <;> cases h
      rfl
    · cases h

/-- Reading one mapping adds at most one map, and the document stays open. -/
theorem built_addMapping (h : doc.Built) (hfrozen : doc.frozen = false) (scope : Scope)
    (declared : List NamedSource) (e : Entry) :
    (addMapping scope declared doc e).value.Built ∧
      (addMapping scope declared doc e).value.frozen = false := by
  unfold addMapping
  dsimp only
  split
  · exact ⟨h, hfrozen⟩
  · split
    · exact ⟨h, hfrozen⟩
    · rw [Logged.value_bind]
      split
      · exact ⟨h, hfrozen⟩
      · next tm _ =>
        rw [value_enterMapping]
        obtain ⟨e, hrun, -⟩ | ⟨-, hrun, hadd⟩ := doc.insert_cases tm
        · rw [hrun]
          exact ⟨h, hfrozen⟩
        · rw [hrun]
          exact ⟨.add h hadd, hfrozen⟩

/-- So does reading any number of mappings. -/
theorem built_foldlM_addMapping (h : doc.Built) (hfrozen : doc.frozen = false) (scope : Scope)
    (declared : List NamedSource) (es : List Entry) :
    (es.foldlM (addMapping scope declared) doc).value.Built ∧
      (es.foldlM (addMapping scope declared) doc).value.frozen = false := by
  induction es generalizing doc with
  | nil => exact ⟨h, hfrozen⟩
  | cons e rest ih =>
    obtain ⟨hnext, hopen⟩ := built_addMapping h hfrozen scope declared e
    rw [List.foldlM_cons, Logged.value_bind]
    exact ih hnext hopen

/-- **No mapping that is read is refused**, whatever mappings were read before it. -/
theorem enterMapping_foldlM (h : doc.Built) (hfrozen : doc.frozen = false) (es : List Entry)
    {e : Entry}
    (hnew : ((es.foldlM (addMapping scope declared) doc).value.lookup? e.key.text).isSome = false)
    (hread : (readMapping scope declared e.key e.value { mapping := e.key.text }).run.value =
      some tm) :
    enterMapping (es.foldlM (addMapping scope declared) doc).value tm e.key
        { mapping := e.key.text } =
      pure ((es.foldlM (addMapping scope declared) doc).value.extend [tm]) := by
  obtain ⟨hbuilt, hopen⟩ := built_foldlM_addMapping h hfrozen scope declared es
  refine enterMapping_eq_pure hbuilt.indexed hopen (fun hmem => ?_) _ _
  rw [id_of_value_readMapping hread, ← hbuilt.indexed.lookup?_isSome_iff, hnew] at hmem
  cases hmem

theorem built_addMappings (h : doc.Built) (hfrozen : doc.frozen = false) (scope : Scope)
    (declared : List NamedSource) (n : Option Node) :
    (addMappings scope declared doc n).value.Built := by
  unfold addMappings
  split
  · exact h
  · split
    · exact h
    · split
      · exact (built_foldlM_addMapping h hfrozen scope declared _).1
      · exact h

end Mappings

theorem built_readDocument (settings : Settings) (body : Option Node) :
    (readDocument settings body).value.document.Built := by
  cases body with
  | none => exact built_addMappings (.declare _ (.create _ _)) rfl _ _ _
  | some n => exact built_addMappings (.declare _ (.create _ _)) rfl _ _ _

/-- What is returned was read from the top-level node of the tree. -/
theorem parseBody_of_parse (h : parse settings root = .ok parsed) :
    parseBody settings (root.bind Node.body?) = .ok parsed := by
  unfold parse at h
  split at h
  · next hbody =>
    rw [hbody]
    exact h
  · next body hbody =>
    split at h
    · rw [hbody]
      exact h
    · cases h

/-- What is returned was read, with no note, and breaks no rule. -/
theorem of_parseBody {body : Option Node} (h : parseBody settings body = .ok parsed) :
    (readDocument settings body).notes = [] ∧
      (readDocument settings body).value.document.isValid = true ∧
      parsed.document = (readDocument settings body).value.document.freeze := by
  unfold parseBody at h
  dsimp only at h
  split at h
  · cases h
  · next hnotes =>
    split at h
    · next hvalid =>
      cases h
      rw [Document.isValid, hvalid]
      exact ⟨by simpa using hnotes, rfl, rfl⟩
    · cases h

/-- **A document that is read can be made by adding maps.** -/
theorem built_of_parse (h : parse settings root = .ok parsed) : parsed.document.Built := by
  obtain ⟨-, -, heq⟩ := of_parseBody (parseBody_of_parse h)
  rw [heq]
  exact .freeze (built_readDocument settings _)

/-- **A document that is read obeys the rules.** -/
theorem isValid_of_parse (h : parse settings root = .ok parsed) :
    parsed.document.isValid = true := by
  obtain ⟨-, hvalid, heq⟩ := of_parseBody (parseBody_of_parse h)
  rw [heq]
  exact Document.isValid_freeze hvalid

end RdfMapping.Shorthand
