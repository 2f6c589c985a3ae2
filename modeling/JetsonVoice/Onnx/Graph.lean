import JetsonVoice.Foundation.SingleAssignment
import JetsonVoice.Onnx.Tensor

/-!
# ONNX graphs

A graph has inputs, stored initializers, nodes in topological order and outputs.
Values are named by strings; the empty string stands for an operand left out.

## Implementation notes

A graph input that has an initializer counts as an initializer only: the runs
considered keep the stored value. The bodies of a node's subgraphs are given by
the names they read from outside and the names bound inside them; they go when
the node's attributes are deleted.
-/

namespace JetsonVoice.Onnx

open Foundation.SingleAssignment

/-- An attribute: an integer, or anything else by its serialised text. -/
inductive Attr where
  | int (i : Int)
  | other (text : String)
  deriving DecidableEq

structure Node where
  name : String
  opType : String
  domain : String
  inputs : List String
  outputs : List String
  attributes : List (String × Attr)
  /-- The names that subgraph bodies read from outside. -/
  captures : List String
  /-- The names bound inside subgraph bodies. -/
  inner : List String
  deriving DecidableEq

/-- The operators of ONNX itself. -/
def Node.isStandard (n : Node) : Bool := n.domain = "" || n.domain = "ai.onnx"

/-- `_attr_int`. -/
def Node.attrInt (n : Node) (name : String) (default : Int) : Int :=
  match n.attributes.lookup name with
  | some (.int i) => i
  | some (.other _) => 0
  | none => default

structure Graph where
  inputs : List String
  initializers : List (String × Tensor)
  nodes : List Node
  outputs : List String

/-- The operands a node names and the names its bodies read. -/
def shape : Shape Node String where
  reads n := n.inputs.filter (· ≠ "") ++ n.captures
  binds n := n.outputs.filter (· ≠ "")
  hides n := n.inner

namespace Graph

def initializerNames (g : Graph) : List String := g.initializers.map Prod.fst

/-- The names known before the first node. -/
def known (g : Graph) : List String := g.inputs ++ g.initializerNames

/-- Initializer and value names are unique, every operand has a producer, bodies
shadow nothing, and `MatMul` has one output, in whichever domain, and the operands of
its schema in the standard one. -/
structure Valid (g : Graph) : Prop where
  names : (g.known ++ shape.bound g.nodes).Nodup
  named : "" ∉ g.known
  inScope : shape.Scoped g.known g.nodes
  unshadowed : shape.Unshadowed g.known g.nodes
  outputs : ∀ x ∈ g.outputs, x ∈ g.known ++ shape.bound g.nodes
  matMul : ∀ n ∈ g.nodes, n.opType = "MatMul" → ∃ y, n.outputs = [y] ∧ y ≠ "" ∧
    (n.isStandard = true → ∃ a w, n.inputs = [a, w] ∧ a ≠ "" ∧ w ≠ "" ∧
      n.captures = [] ∧ n.inner = [])

/-- The stored value of an initializer. -/
def initializer? (g : Graph) (x : String) : Option Tensor := g.initializers.lookup x

/-- The values before the first node. -/
def start (g : Graph) (feed : String → Option Tensor) : String → Option Tensor := fun x =>
  (g.initializer? x).or (if x ∈ g.inputs then feed x else none)

end Graph

section Lemmas
variable {g : Graph} {n : Node} {x : String}

theorem mem_reads : x ∈ shape.reads n ↔ (x ∈ n.inputs ∧ x ≠ "") ∨ x ∈ n.captures := by
  simp [shape]

theorem mem_binds : x ∈ shape.binds n ↔ x ∈ n.outputs ∧ x ≠ "" := by
  simp [shape]

theorem lookup_isSome {α : Type} {xs : List (String × α)} :
    (xs.lookup x).isSome = true ↔ x ∈ xs.map Prod.fst := by
  simp only [List.lookup_isSome_iff, List.mem_map, beq_iff_eq]
  exact ⟨fun ⟨p, hp, hx⟩ => ⟨p, hp, hx.symm⟩, fun ⟨p, hp, hx⟩ => ⟨p, hp, hx.symm⟩⟩

theorem lookup_eq_none {α : Type} {xs : List (String × α)} :
    xs.lookup x = none ↔ x ∉ xs.map Prod.fst := by
  rw [← lookup_isSome]
  cases xs.lookup x <;> simp

theorem mem_of_lookup {α : Type} {xs : List (String × α)} {v : α} (h : xs.lookup x = some v) :
    (x, v) ∈ xs := by
  obtain ⟨before, behind, rfl, -⟩ := List.lookup_eq_some_iff.mp h
  simp

/-- Under unique names a pair of the list is what its name looks up. -/
theorem lookup_of_mem {α : Type} {xs : List (String × α)} {v : α}
    (hn : (xs.map Prod.fst).Nodup) (h : (x, v) ∈ xs) : xs.lookup x = some v := by
  induction xs with
  | nil => cases h
  | cons p xs ih =>
      obtain ⟨y, w⟩ := p
      rw [List.map_cons, List.nodup_cons] at hn
      rcases List.mem_cons.mp h with heq | hmem
      · cases heq
        simp
      · have hne : x ≠ y := by
          rintro rfl
          exact hn.1 (List.mem_map.mpr ⟨_, hmem, rfl⟩)
        rw [List.lookup_cons, beq_false_of_ne hne]
        exact ih hn.2 hmem

/-- Looking up among the pairs whose names are kept. -/
theorem lookup_filter {α : Type} (keeps : String → Bool) (xs : List (String × α))
    (x : String) :
    (xs.filter fun p => keeps p.1).lookup x = if keeps x then xs.lookup x else none := by
  induction xs with
  | nil => simp
  | cons p xs ih =>
      obtain ⟨y, v⟩ := p
      by_cases hxy : x = y
      · subst hxy
        by_cases hk : keeps x = true
        · simp [hk]
        · rw [List.filter_cons_of_neg (by simpa using hk), ih, if_neg hk, if_neg hk]
      · rw [List.lookup_cons, beq_false_of_ne hxy, ← ih, List.filter_cons]
        split
        · rw [List.lookup_cons, beq_false_of_ne hxy]
        · rfl

theorem Graph.mem_initializerNames : x ∈ g.initializerNames ↔ ∃ t, g.initializer? x = some t := by
  rw [Graph.initializerNames, ← lookup_isSome, Option.isSome_iff_exists]
  rfl

end Lemmas

end JetsonVoice.Onnx
