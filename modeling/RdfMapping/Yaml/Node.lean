/-
# Document trees

A YAML document as a tree of scalars, sequences and mappings.  An alias stands for a node
that was anchored earlier and carries it along.
-/
import RdfMapping.Diagnostic

namespace RdfMapping.Yaml

/-! ## Nodes -/

/-- What every node has: its position, its anchor and the tag of a scalar that was read. -/
structure Info where
  span : Span := {}
  anchor : Option String := none
  tag : String := ""
deriving DecidableEq, Repr

mutual

/-- A node of a document tree. -/
inductive Node where
  /-- A text, or the null value. -/
  | scalar (info : Info) (text : String) (isNull : Bool)
  /-- A list of nodes, written on one line if it flows. -/
  | sequence (info : Info) (flow : Bool) (items : List Node)
  /-- A list of keys and values, written on one line if it flows. -/
  | mapping (info : Info) (flow : Bool) (entries : List Entry)
  /-- A whole document. -/
  | document (info : Info) (content : List Node)
  /-- Another name for an anchored node. -/
  | aliasTo (info : Info) (name : String) (anchored : Node)
  /-- What an empty text gives. -/
  | blank (info : Info)

/-- A key of a mapping and its value. -/
structure Entry where
  key : Node
  value : Node

end

instance : Inhabited Node := ⟨.blank {}⟩

namespace Node

/-- The position and anchor of a node. -/
def info : Node → Info
  | scalar info _ _ | sequence info _ _ | mapping info _ _ | document info _ | aliasTo info _ _
  | blank info => info

/-- The position of a node. -/
def span (n : Node) : Span := n.info.span

/-- The node behind aliases. -/
def target : Node → Node
  | aliasTo _ _ anchored => anchored.target
  | n => n

/-- The text of a scalar; other nodes have none. -/
def text : Node → String
  | scalar _ text _ => text
  | _ => ""

/-- Whether a node is a scalar, aliases followed. -/
def isScalar (n : Node) : Bool :=
  match n.target with
  | scalar _ _ _ => true
  | _ => false

/-- Whether a node is a mapping, aliases followed. -/
def isMapping (n : Node) : Bool :=
  match n.target with
  | mapping _ _ _ => true
  | _ => false

/-- Whether a node is a sequence, aliases followed. -/
def isSequence (n : Node) : Bool :=
  match n.target with
  | sequence _ _ _ => true
  | _ => false

/-- Whether a node is the null value or comes from an empty text. -/
def isNull (n : Node) : Bool :=
  match n.target with
  | scalar _ _ isNull => isNull
  | blank _ => true
  | _ => false

/-- What sort of node it is, in a word. -/
def kindName (n : Node) : String :=
  match n.target with
  | mapping _ _ _ => "mapping"
  | sequence _ _ _ => "sequence"
  | scalar _ _ _ => "scalar"
  | document _ _ => "document"
  | aliasTo _ _ _ | blank _ => "node"

/-- The entries of a mapping, aliases followed; other nodes have none. -/
def entries (n : Node) : List Entry :=
  match n.target with
  | mapping _ _ entries => entries.map fun e => ⟨e.key.target, e.value.target⟩
  | _ => []

/-- The elements of a sequence, aliases followed; any other node is its only element. -/
def items (n : Node) : List Node :=
  match n.target with
  | sequence _ _ items => items.map target
  | other => [other]

/-- The top-level node of a document; other nodes are their own. -/
def body? (n : Node) : Option Node :=
  match n.target with
  | document _ content => content.head?.map target
  | other => some other

/-! ## Nodes built in memory -/

/-- A scalar without a position. -/
def ofText (text : String) : Node := .scalar {} text false

/-- A block mapping without a position. -/
def ofEntries (entries : List Entry) : Node := .mapping {} false entries

/-- A sequence on one line, without a position. -/
def flowList (items : List Node) : Node := .sequence {} true items

/-- A sequence with a line for each element, without a position. -/
def blockList (items : List Node) : Node := .sequence {} false items

end Node

/-! ## Size -/

mutual

/-- The number of nodes in a tree, those behind aliases included. -/
def Node.size : Node → Nat
  | .scalar _ _ _ => 1
  | .sequence _ _ items => sizeOfNodes items + 1
  | .mapping _ _ entries => sizeOfEntries entries + 1
  | .document _ content => sizeOfNodes content + 1
  | .aliasTo _ _ anchored => anchored.size + 1
  | .blank _ => 1

/-- The number of nodes in a list of trees. -/
def sizeOfNodes : List Node → Nat
  | [] => 0
  | n :: rest => n.size + sizeOfNodes rest

/-- The number of nodes in a list of entries. -/
def sizeOfEntries : List Entry → Nat
  | [] => 0
  | ⟨key, value⟩ :: rest => key.size + value.size + sizeOfEntries rest

end

namespace Node

theorem target_target (n : Node) : n.target.target = n.target := by
  match n with
  | .aliasTo _ _ anchored => exact target_target anchored
  | .scalar _ _ _ | .sequence _ _ _ | .mapping _ _ _ | .document _ _ | .blank _ => rfl

/-- Following aliases never makes a node larger. -/
theorem size_target_le (n : Node) : n.target.size ≤ n.size := by
  match n with
  | .aliasTo _ _ anchored =>
    have := size_target_le anchored
    simp only [target, size]
    omega
  | .scalar _ _ _ | .sequence _ _ _ | .mapping _ _ _ | .document _ _ | .blank _ =>
    simp [target]

end Node

theorem size_le_of_mem {n : Node} {ns : List Node} (h : n ∈ ns) : n.size ≤ sizeOfNodes ns := by
  induction ns with
  | nil => simp at h
  | cons m ms ih =>
    simp only [sizeOfNodes]
    rcases List.mem_cons.1 h with rfl | h
    · omega
    · have := ih h
      omega

theorem size_le_of_mem_entries {e : Entry} {es : List Entry} (h : e ∈ es) :
    e.value.size ≤ sizeOfEntries es := by
  induction es with
  | nil => simp at h
  | cons m ms ih =>
    obtain ⟨k, v⟩ := m
    simp only [sizeOfEntries]
    rcases List.mem_cons.1 h with rfl | h
    · simp only
      omega
    · have := ih h
      omega

namespace Node

/-- A value of a mapping is smaller than the mapping. -/
theorem size_value_lt {n : Node} {e : Entry} (h : e ∈ n.entries) : e.value.size < n.size := by
  have ht := size_target_le n
  unfold entries at h
  split at h
  · next info flow es heq =>
    obtain ⟨f, hf, rfl⟩ := List.mem_map.1 h
    have h1 := size_target_le f.value
    have h2 := size_le_of_mem_entries hf
    rw [heq] at ht
    simp only [size] at ht
    simp only
    omega
  · simp at h

/-- An element of a sequence is smaller than the sequence. -/
theorem size_item_lt {n m : Node} (hs : n.isSequence = true) (h : m ∈ n.items) :
    m.size < n.size := by
  have ht := size_target_le n
  unfold isSequence at hs
  unfold items at h
  split at h
  · next info flow ms heq =>
    obtain ⟨f, hf, rfl⟩ := List.mem_map.1 h
    have h1 := size_target_le f
    have h2 := size_le_of_mem hf
    rw [heq] at ht
    simp only [size] at ht
    omega
  · next hne =>
    split at hs
    · next heq => exact absurd heq (hne _ _ _)
    · simp at hs

end Node

end RdfMapping.Yaml
