/-
# Diagnostics

What is wrong with a mapping, and where.  A diagnostic has a kind, which says what sort of
input is at fault, a code that stays the same when wordings change, a message, a place and
names the writer may have meant.
-/
import RdfMapping.Text.Cut
import RdfMapping.Text.Quoted

namespace RdfMapping

/-! ## Places -/

/-- A position in a source text, counted from one; zero when unknown. -/
structure Span where
  line : Nat := 0
  column : Nat := 0
deriving DecidableEq, Repr

/-- Where a diagnostic belongs: a position, a mapping and a path. -/
structure Location where
  span : Span := {}
  mapping : String := ""
  path : String := ""
deriving DecidableEq, Repr

/-! ## Classification -/

/-- How grave a diagnostic is. -/
inductive Severity where
  | info
  | warning
  | error
deriving DecidableEq, Repr

/-- The name of a severity. -/
def Severity.name : Severity → String
  | .info => "info"
  | .warning => "warning"
  | .error => "error"

/-- What sort of input is at fault. -/
inductive Kind where
  /-- Shorthand that is not well formed. -/
  | parse
  /-- A document that breaks a rule of mappings. -/
  | semantic
  /-- A construct the relational dialect cannot express. -/
  | unsupportedInR2rml
  /-- A set of triples that is no mapping. -/
  | decompile
  /-- A prefixed name whose label is not declared. -/
  | unresolvablePrefix
  /-- None of these. -/
  | unclassified
deriving DecidableEq, Repr

namespace Kind

/-- The kinds that have a name of their own. -/
def all : List Kind :=
  [.parse, .semantic, .unsupportedInR2rml, .decompile, .unresolvablePrefix]

/-- The name of a kind. -/
def name : Kind → String
  | parse => "parse"
  | semantic => "semantic"
  | unsupportedInR2rml => "unsupported_in_r2rml"
  | decompile => "decompile"
  | unresolvablePrefix => "unresolvable_prefix"
  | unclassified => "unknown"

/-- A kind in words. -/
def description : Kind → String
  | parse => "parse error"
  | semantic => "semantic error"
  | unsupportedInR2rml => "unsupported in R2RML"
  | decompile => "decompile error"
  | unresolvablePrefix => "unresolvable prefix"
  | unclassified => ""

end Kind

/-! ## Diagnostics -/

/-- One finding. -/
structure Diagnostic where
  severity : Severity := .error
  kind : Kind
  code : String
  message : String
  location : Location := {}
  suggestions : List String := []
deriving DecidableEq, Repr

namespace Diagnostic

/-- The place of a diagnostic in words, as far as it is known. -/
def renderPlace (place : Location) : List String :=
  (if place.span.line = 0 then [] else ["line " ++ toString place.span.line]) ++
    (if place.mapping = "" then [] else ["[" ++ place.mapping ++ "]"]) ++
    (if place.path = "" then [] else [place.path])

/-- The message with its code and the suggestions. -/
def renderBody (d : Diagnostic) : String :=
  (if d.code = "" then d.message else "[" ++ d.code ++ "] " ++ d.message) ++
    (if d.suggestions = [] then ""
      else " (did you mean " ++ Text.join " or " (d.suggestions.map Text.quote) ++ "?)")

/-- The line shown for a diagnostic. -/
def render (d : Diagnostic) : String :=
  match renderPlace d.location with
  | [] => d.renderBody
  | place => Text.join " " place ++ ": " ++ d.renderBody

end Diagnostic

/-! ## Reports -/

/-- The diagnostics of one run. -/
structure Report where
  errors : List Diagnostic := []
  warnings : List Diagnostic := []
  infos : List Diagnostic := []
deriving DecidableEq, Repr

namespace Report

/-- Adds a diagnostic to those of its severity. -/
def add (r : Report) (d : Diagnostic) : Report :=
  match d.severity with
  | .error => { r with errors := r.errors ++ [d] }
  | .warning => { r with warnings := r.warnings ++ [d] }
  | .info => { r with infos := r.infos ++ [d] }

/-- Adds all diagnostics of another report. -/
def merge (r s : Report) : Report :=
  ⟨r.errors ++ s.errors, r.warnings ++ s.warnings, r.infos ++ s.infos⟩

/-- A report is valid when it holds no error. -/
def isValid (r : Report) : Bool :=
  r.errors.isEmpty

end Report

/-! ## Failures -/

/-- Why a run gave no result: a plain text, diagnostics, possibly with the context in which
they arose, or a step that does not come to an end, which has nothing to say. -/
inductive Failure where
  | plain (message : String)
  | diagnosed (context : Option String) (causes : List Diagnostic)
  | endless
deriving DecidableEq, Repr

namespace Failure

/-- The diagnostics behind a failure. -/
def causes : Failure → List Diagnostic
  | plain _ | endless => []
  | diagnosed _ causes => causes

/-- The failure as one text, a line for each diagnostic. -/
def message : Failure → String
  | plain message => message
  | diagnosed context causes =>
    (match context with
      | none => ""
      | some c => c ++ ": ") ++ Text.join "\n" (causes.map Diagnostic.render)
  | endless => ""

/-- The failure inside a wider context. -/
def within (context : String) : Failure → Failure
  | plain message => plain (context ++ ": " ++ message)
  | diagnosed none causes => diagnosed (some context) causes
  | diagnosed (some inner) causes => diagnosed (some (context ++ ": " ++ inner)) causes
  | endless => endless

/-- The diagnostics shown for a failure; in a context only the first is. -/
def shown : Failure → List Diagnostic
  | plain _ | endless => []
  | diagnosed none causes => causes
  | diagnosed (some _) causes => causes.take 1

/-- The lines shown for a failure: those of its diagnostics, or else its text. -/
def lines (f : Failure) : List String :=
  match f.shown with
  | [] => [f.message]
  | shown => shown.map Diagnostic.render

/-- The kinds that occur in a failure, each once and in their own order. -/
def kinds (f : Failure) : List Kind :=
  Kind.all.filter fun k => f.causes.any fun d => d.kind == k

end Failure

/-- The failure of a run that met errors, if it met any. -/
def Report.failure? (r : Report) : Option Failure :=
  if r.errors.isEmpty then none else some (.diagnosed none r.errors)

end RdfMapping
