import JetsonVoice.Foundation.NeededNames
import JetsonVoice.Onnx.Graph
import Mathlib.Algebra.Order.BigOperators.Group.List
import Mathlib.SetTheory.Cardinal.Arithmetic

/-!
# ONNX models over any values

A model with the meaning of its operators left open: what a node computes from its
operands and from what its bodies read is a parameter. A graph input may have an
initializer, which it takes when nothing else is fed.
-/

namespace JetsonVoice.Onnx

open Foundation.SingleAssignment

/-- What a node computes, whatever its name and its operands. -/
structure Operation where
  opType : String
  domain : String
  attributes : List (String × Attr)
  captures : List String
  inner : List String
  deriving DecidableEq

def Node.operation (n : Node) : Operation :=
  ⟨n.opType, n.domain, n.attributes, n.captures, n.inner⟩

/-- The operators: the results for the operands and for what the bodies read. -/
abbrev Ops (V : Type) := Operation → List (Option V) → List (Option V) → List (Option V)

structure Model (V : Type) where
  inputs : List String
  initializers : List (String × V)
  nodes : List Node
  outputs : List String

section Meaning
variable {V : Type}

/-- The value of an operand; the empty name has none. -/
def operandOf (e : String → Option V) (x : String) : Option V := if x = "" then none else e x

theorem operandOf_congr {e e' : String → Option V} {xs : List String}
    (h : ∀ x ∈ xs, x ≠ "" → e x = e' x) : xs.map (operandOf e) = xs.map (operandOf e') := by
  refine List.map_congr_left fun x hx => ?_
  by_cases hne : x = ""
  · rw [operandOf, operandOf, if_pos hne, if_pos hne]
  · rw [operandOf, operandOf, if_neg hne, if_neg hne]
    exact h x hx hne

def Ops.meaning (ops : Ops V) : shape.Meaning V where
  exec n e x :=
    let results := ops n.operation (n.inputs.map (operandOf e)) (n.captures.map e)
    ((n.outputs.zip results).lookup x).join
  exec_congr n e e' h := by
    have hin : n.inputs.map (operandOf e) = n.inputs.map (operandOf e') :=
      operandOf_congr fun x hx hne => h x (mem_reads.mpr (.inl ⟨hx, hne⟩))
    have hcap : n.captures.map e = n.captures.map e' :=
      List.map_congr_left fun x hx => h x (mem_reads.mpr (.inr hx))
    rw [hin, hcap]

/-- The value of a node's only output is the first one its operator gives. -/
theorem exec_single {n : Node} {y : String} (hy : n.outputs = [y]) (ops : Ops V)
    (e : String → Option V) : ops.meaning.exec n e y =
      (ops n.operation (n.inputs.map (operandOf e)) (n.captures.map e)).head?.join := by
  change ((n.outputs.zip _).lookup y).join = _
  rw [hy]
  cases ops n.operation (n.inputs.map (operandOf e)) (n.captures.map e) with
  | nil => rfl
  | cons v values => simp

namespace Model

variable (g : Model V)

def initializerNames : List String := g.initializers.map Prod.fst

/-- The names known before the first node. -/
def known : List String := g.inputs ++ g.initializerNames

def initializer? (x : String) : Option V := g.initializers.lookup x

/-- Names are unique, save that an input may have an initializer; every operand and every
name a body reads is known before; bodies shadow nothing. -/
structure Valid : Prop where
  inputs : g.inputs.Nodup
  initializers : g.initializerNames.Nodup
  bound : (shape.bound g.nodes).Nodup
  new : ∀ x ∈ shape.bound g.nodes, x ∉ g.known
  named : "" ∉ g.known
  inScope : shape.Scoped g.known g.nodes
  unshadowed : shape.Unshadowed g.known g.nodes
  outputs : ∀ x ∈ g.outputs, x ∈ g.known ++ shape.bound g.nodes

/-- The values before the first node. -/
def start (feed : String → Option V) : String → Option V := fun x =>
  (if x ∈ g.inputs then feed x else none).or (g.initializer? x)

/-- All values of a run. -/
def evaluate (ops : Ops V) (feed : String → Option V) : String → Option V :=
  ops.meaning.run (g.start feed) g.nodes

variable {g}

theorem Valid.ordered (hg : g.Valid) : shape.Ordered g.nodes :=
  Shape.ordered_of_scoped hg.bound hg.new hg.inScope

/-- The values of a run are those their nodes give them from each other. -/
theorem Valid.solves (hg : g.Valid) (ops : Ops V) (feed : String → Option V) :
    ops.meaning.Solves (g.evaluate ops feed) g.nodes :=
  Shape.Meaning.run_solves hg.ordered hg.bound

theorem Valid.evaluate_output (hg : g.Valid) {n : Node} {y : String} (hn : n ∈ g.nodes)
    (hy : n.outputs = [y]) (hne : y ≠ "") (ops : Ops V) (feed : String → Option V) :
    g.evaluate ops feed y =
      (ops n.operation (n.inputs.map (operandOf (g.evaluate ops feed)))
        (n.captures.map (g.evaluate ops feed))).head?.join := by
  rw [hg.solves ops feed n hn y (mem_binds.mpr ⟨by simp [hy], hne⟩), exec_single hy]

/-- A stored value that nothing can be fed for stays. -/
theorem Valid.evaluate_initializer (hg : g.Valid) {x : String} {v : V}
    (hx : g.initializer? x = some v) (hin : x ∉ g.inputs) (ops : Ops V) (feed : String → Option V) :
    g.evaluate ops feed x = some v := by
  have hname : x ∈ g.initializerNames := lookup_isSome.mp (by rw [← initializer?, hx]; rfl)
  have hnot : x ∉ shape.bound g.nodes := fun hb => hg.new x hb (List.mem_append_right _ hname)
  rw [evaluate, Shape.Meaning.run_of_not_bound hnot, start, if_neg hin, Option.none_or, hx]

/-- A name that is no initializer has the value fed. -/
theorem start_of_not_initializer {x : String} (hx : x ∉ g.initializerNames)
    (feed : String → Option V) : g.start feed x = if x ∈ g.inputs then feed x else none := by
  rw [start, initializer?, lookup_eq_none.mpr hx, Option.or_none]

/-- A name that is no input has its initializer's value. -/
theorem start_of_not_input {x : String} (hx : x ∉ g.inputs) (feed : String → Option V) :
    g.start feed x = g.initializer? x := by
  rw [start, if_neg hx, Option.none_or]

end Model

end Meaning

section Separation
variable {V : Type}

theorem lookup_zip_replicate {ys : List String} {y : String} {k : Nat} {v : Option V}
    (hy : y ∈ ys) (hk : ys.length ≤ k) : (ys.zip (List.replicate k v)).lookup y = some v := by
  induction ys generalizing k with
  | nil => cases hy
  | cons z ys ih =>
      obtain ⟨k, rfl⟩ : ∃ j, k = j + 1 := ⟨k - 1, by rw [List.length_cons] at hk; omega⟩
      rw [List.replicate_succ, List.zip_cons_cons, List.lookup_cons]
      by_cases hyz : y = z
      · simp [hyz]
      · rw [beq_false_of_ne hyz]
        exact ih ((List.mem_cons.mp hy).resolve_left hyz) (Nat.le_of_succ_le_succ hk)

/-- There are enough values to keep all operands of an operator apart. -/
theorem exists_code [Infinite V] : Nonempty (List (Option V) × List (Option V) ↪ V) := by
  have hlist : Cardinal.mk (List (Option V)) = Cardinal.mk V := by
    rw [Cardinal.mk_list_eq_mk, Cardinal.mk_option, Cardinal.add_one_eq (Cardinal.aleph0_le_mk V)]
  have hpair : Cardinal.mk (List (Option V) × List (Option V)) = Cardinal.mk V := by
    rw [Cardinal.mk_prod, Cardinal.lift_id, hlist, Cardinal.mul_eq_self (Cardinal.aleph0_le_mk V)]
  exact Cardinal.le_def _ _ |>.mp hpair.le

/-- Operators under which the nodes of a list keep all values apart and always give one. -/
theorem exists_separating [Infinite V] (ns : List Node) :
    ∃ ops : Ops V, ops.meaning.Separates ns ∧
      ∀ n ∈ ns, ∀ e, ∀ x ∈ shape.binds n, (ops.meaning.exec n e x).isSome = true := by
  obtain ⟨code⟩ := exists_code (V := V)
  let width := (ns.map fun n => n.outputs.length).sum
  let ops : Ops V := fun _ args caps => List.replicate width (some (code (args, caps)))
  have hexec (n : Node) (hn : n ∈ ns) (e : String → Option V) (x : String)
      (hx : x ∈ shape.binds n) : ops.meaning.exec n e x =
        some (code (n.inputs.map (operandOf e), n.captures.map e)) := by
    have hwidth : n.outputs.length ≤ width :=
      List.single_le_sum (fun _ _ => Nat.zero_le _) _ (List.mem_map_of_mem hn)
    change ((n.outputs.zip (List.replicate width _)).lookup x).join = _
    rw [lookup_zip_replicate (mem_binds.mp hx).1 hwidth]
    rfl
  refine ⟨ops, fun n hn e e' x y hx hy hne heq => ?_, fun n hn e x hx => ?_⟩
  · rw [hexec n hn e y hy, hexec n hn e' y hy, Option.some_inj] at heq
    obtain ⟨hin, hcap⟩ := Prod.mk.inj (code.injective heq)
    rcases mem_reads.mp hx with ⟨hxin, hx0⟩ | hxcap
    · have := List.map_inj_left.mp hin x hxin
      rw [operandOf, operandOf, if_neg hx0, if_neg hx0] at this
      exact hne this
    · exact hne (List.map_inj_left.mp hcap x hxcap)
  · rw [hexec n hn e x hx]
    rfl

end Separation

end JetsonVoice.Onnx
