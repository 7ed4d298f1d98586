/-
# The mapping vocabulary

The IRIs of the two mapping languages and of the functions in them, by their role: classes,
kinds of terms and properties.
-/
import RdfMapping.Iri.PrefixTable

namespace RdfMapping.RuleGraph

open Iri.PrefixTable

/-- The IRI of a name in the relational mapping vocabulary. -/
def rr (name : String) : String := rrNamespace ++ name

/-- The IRI of a name in the vocabulary for mappings of any source. -/
def rml (name : String) : String := rmlNamespace ++ name

/-- The IRI of a name in the vocabulary for functions in mappings. -/
def fnml (name : String) : String := fnmlNamespace ++ name

/-- The property that states the class of a node. -/
def rdfType : String := rdfNamespace ++ "type"

/-- The datatype of plain literals. -/
def xsdString : String := "http://www.w3.org/2001/XMLSchema#string"

namespace Class

/-! ## Classes -/

def triplesMap : String := rr "TriplesMap"
def logicalTable : String := rr "LogicalTable"
def view : String := rr "R2RMLView"
def logicalSource : String := rml "LogicalSource"
def subjectMap : String := rr "SubjectMap"
def predicateObjectMap : String := rr "PredicateObjectMap"
def predicateMap : String := rr "PredicateMap"
def objectMap : String := rr "ObjectMap"
def refObjectMap : String := rr "RefObjectMap"
def graphMap : String := rr "GraphMap"
def termMap : String := rr "TermMap"
def functionTermMap : String := fnml "FunctionTermMap"
def join : String := rr "Join"

/-- The classes a node of a term map may have. -/
def ofTermMaps : List String :=
  [subjectMap, predicateMap, objectMap, refObjectMap, graphMap, termMap, functionTermMap]

/-- The classes a node of a source may have. -/
def ofSources : List String :=
  [logicalSource, logicalTable, view]

end Class

namespace Kind

/-! ## Kinds of terms -/

def iri : String := rr "IRI"
def blankNode : String := rr "BlankNode"
def literal : String := rr "Literal"

end Kind

namespace Property

/-! ## Properties of triples maps and sources -/

def logicalSource : String := rml "logicalSource"
def logicalTable : String := rr "logicalTable"
def source : String := rml "source"
def referenceFormulation : String := rml "referenceFormulation"
def iterator : String := rml "iterator"
def tableName : String := rr "tableName"
def query : String := rml "query"
def sqlQuery : String := rr "sqlQuery"
def sqlVersion : String := rr "sqlVersion"

/-! ## Links between maps, with their shortcuts for constants -/

def subjectMap : String := rr "subjectMap"
def subject : String := rr "subject"
def classOf : String := rr "class"
def graphMap : String := rr "graphMap"
def graph : String := rr "graph"
def predicateObjectMap : String := rr "predicateObjectMap"
def predicateMap : String := rr "predicateMap"
def predicate : String := rr "predicate"
def objectMap : String := rr "objectMap"
def object : String := rr "object"

/-! ## Properties of term maps -/

def constant : String := rr "constant"
def template : String := rr "template"
def column : String := rr "column"
def reference : String := rml "reference"
def functionValue : String := fnml "functionValue"
def executes : String := fnoNamespace ++ "executes"
def termType : String := rr "termType"
def datatype : String := rr "datatype"
def language : String := rr "language"
def parentTriplesMap : String := rr "parentTriplesMap"
def joinCondition : String := rr "joinCondition"
def child : String := rr "child"
def parent : String := rr "parent"

/-- The links from a map to the node of a term map. -/
def termMapLinks : List String :=
  [subjectMap, predicateMap, objectMap, graphMap]

/-- The properties that give a term map its value; it has exactly one of them. -/
def values : List String :=
  [constant, template, reference, column, functionValue, parentTriplesMap]

/-- The properties of triples maps that lead to a source. -/
def sources : List String :=
  [logicalSource, logicalTable]

/-- The properties that no relational mapping uses. -/
def beyondRelational : List String :=
  [logicalSource, source, referenceFormulation, iterator, query, reference, functionValue]

end Property

end RdfMapping.RuleGraph
