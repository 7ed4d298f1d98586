/-
# Merging documents in shorthand

Several documents become one: the entries of their prefixes, sources and mappings are put one
after another, and every other setting must be the same in all documents that have it.
-/
import RdfMapping.Shorthand.Reading

namespace RdfMapping.Shorthand

open Yaml (Node Entry)

/-- The parts of a document whose entries are put together. -/
def isMergedSection (name : String) : Bool :=
  name = "prefixes" || name = "sources" || name = "mappings"

/-- The first occurrence of a section, to which later entries are added. -/
def openSection (n : Node) : Node :=
  match n with
  | .mapping info _ entries => .mapping { span := info.span } false entries
  | n => if n.isNull then .mapping { span := n.span } false [] else n

/-- Adds the entries of a section to those it has already. -/
def extendSection (name : String) (present : Node) (e : Entry) : Except Problem Node :=
  match present, e.value with
  | .mapping info flow entries, .mapping _ _ more => .ok (.mapping info flow (entries ++ more))
  | present, value =>
    if value.isNull then .ok present
    else .error (.wrongForm (.mergedSection name) value.kindName)

/-- Whether two settings are the same text. -/
def sameSetting (a b : Node) : Bool :=
  a.isScalar && b.isScalar && a.text == b.text

/-- What an entry does to the entry with the same name that a merged document has already. -/
def mergeInto (name : String) (present : Node) (e : Entry) : Except Problem Node :=
  if isMergedSection name then extendSection name present e
  else if sameSetting present e.value then .ok present
  else .error (.conflictingSetting name)

/-- Adds an entry to a merged document. -/
def mergeEntry (e : Entry) : List Entry → Noted (List Entry)
  | [] => pure [⟨e.key, if isMergedSection e.key.text then openSection e.value else e.value⟩]
  | present :: rest =>
    if present.key.text = e.key.text then
      match mergeInto e.key.text present.value e with
      | .ok value => pure (⟨present.key, value⟩ :: rest)
      | .error problem => do
        note problem (some e.key) { path := e.key.text }
        return present :: rest
    else return present :: (← mergeEntry e rest)

/-- Adds a document to a merged one. -/
def mergeDocument (merged : List Entry) (root : Option Node) : Noted (List Entry) :=
  match root.bind Node.body? with
  | none => pure merged
  | some body =>
    if body.isNull then pure merged
    else if body.isMapping then
      body.entries.foldlM (fun merged e => mergeEntry e merged) merged
    else do
      note (.wrongForm .document body.kindName) (some body) {}
      return merged

/-- Merges documents. -/
def merge (roots : List (Option Node)) : Except (List Diagnostic) Node :=
  let merged := roots.foldlM mergeDocument []
  if merged.notes.isEmpty then .ok (.document {} [.ofEntries merged.value])
  else .error merged.notes

end RdfMapping.Shorthand
