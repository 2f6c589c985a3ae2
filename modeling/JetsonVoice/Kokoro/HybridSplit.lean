import JetsonVoice.Onnx.Model
import Mathlib.Data.List.Sort

/-!
# Splitting a model into a prefix and a suffix

One split cuts the node list at a position, the other one takes the nodes a tensor
depends on as the prefix. Both give the suffix the tensors of the prefix and the
graph inputs that its nodes name as operands.

## Implementation notes

Files, graph names, opset imports and types of values are left out, and `none` stands
for an exception. `onnx.utils.extract_model` and `onnx.checker.check_model` are
parameters.
-/

namespace JetsonVoice.Kokoro

open Onnx Foundation.SingleAssignment

variable {V : Type}

section Splits

/-- `onnx.utils.extract_model` and `onnx.checker.check_model`. -/
structure OnnxTools (V : Type) where
  extractModel : Model V → List String → List String → Option (Model V)
  checkModel : Model V → Bool

/-- The extracted model computes the outputs it is asked for; a model passes the check
only when the bodies of its nodes read names of the graph. -/
structure OnnxTools.Documented (tools : OnnxTools V) : Prop where
  extracts : ∀ g outs p, tools.extractModel g g.inputs outs = some p → ∀ ops feed, ∀ x ∈ outs,
    p.evaluate ops feed x = g.evaluate ops feed x
  checks : ∀ g, tools.checkModel g = true → ∀ n ∈ g.nodes, ∀ x ∈ n.captures,
    x ∈ g.known ++ shape.bound g.nodes

structure Split (V : Type) where
  prefixModel : Model V
  suffixModel : Model V
  boundary : List String

/-- The operands that nodes name. -/
def operands (ns : List Node) : List String := ns.flatMap fun n => n.inputs.filter (· ≠ "")

/-- `sorted(a & b)`. -/
def sortedCommon (a b : List String) : List String :=
  ((a.filter (· ∈ b)).dedup).insertionSort (· ≤ ·)

/-- The suffix as both splits build it. -/
def suffixModel (g : Model V) (suffixNodes : List Node) (boundary : List String) : Model V where
  inputs := g.inputs.filter (fun x => x ∈ boundary ∨ x ∈ operands suffixNodes) ++ boundary
  initializers := g.initializers
  nodes := suffixNodes
  outputs := g.outputs

/-- The end of both splits: extract the prefix, build the suffix and check it. -/
def finish (tools : OnnxTools V) (g : Model V) (suffixNodes : List Node) (boundary : List String) :
    Option (Split V) := do
  let extracted ← tools.extractModel g g.inputs boundary
  let suffix := suffixModel g suffixNodes boundary
  if tools.checkModel suffix then some ⟨extracted, suffix, boundary⟩ else none

/-- `split_model`. -/
def splitModel (tools : OnnxTools V) (g : Model V) (cutIndex : Int) : Option (Split V) :=
  if cutIndex ≤ 0 ∨ g.nodes.length ≤ cutIndex then none
  else
    let prefixNodes := g.nodes.take cutIndex.toNat
    let suffixNodes := g.nodes.drop cutIndex.toNat
    let boundary := sortedCommon (shape.bound prefixNodes) (operands suffixNodes)
    if boundary = [] then none else finish tools g suffixNodes boundary

/-- `producers`: the last node that names an output. -/
def producer? (nodes : List Node) (name : String) : Option Nat :=
  (nodes.zipIdx.flatMap fun p => (shape.binds p.1).map fun out => (out, p.2)).reverse.lookup name

def operandsAt (nodes : List Node) (idx : Nat) : List String :=
  (nodes[idx]?.map fun n => n.inputs.filter (· ≠ "")).getD []

/-- `visit_tensor`, with a bound on the depth of the recursion. -/
def visitTensor (nodes : List Node) : Nat → String → List Nat → List Nat
  | 0, _, ancestors => ancestors
  | depth + 1, name, ancestors =>
      match producer? nodes name with
      | none => ancestors
      | some idx =>
          if idx ∈ ancestors then ancestors
          else (operandsAt nodes idx).foldl (fun acc inp => visitTensor nodes depth inp acc)
            (idx :: ancestors)

/-- The nodes a tensor depends on. -/
def ancestors (nodes : List Node) (cutOutput : String) : List Nat :=
  visitTensor nodes (nodes.length + 1) cutOutput []

/-- The nodes that are no ancestors of a tensor. -/
def nodesBehind (nodes : List Node) (cutOutput : String) : List Node :=
  (nodes.zipIdx.filter fun p => p.2 ∉ ancestors nodes cutOutput).map Prod.fst

/-- `ancestor_outputs`. -/
def ancestorOutputs (nodes : List Node) (cutOutput : String) : List String :=
  (ancestors nodes cutOutput).flatMap fun idx => (nodes[idx]?.map shape.binds).getD []

/-- `split_model_by_output`. -/
def splitModelByOutput (tools : OnnxTools V) (g : Model V) (cutOutput : String) :
    Option (Split V) :=
  if producer? g.nodes cutOutput = none then none
  else
    let suffixNodes := nodesBehind g.nodes cutOutput
    let common := sortedCommon (ancestorOutputs g.nodes cutOutput) (operands suffixNodes)
    let boundary := if cutOutput ∈ common then common else common ++ [cutOutput]
    finish tools g suffixNodes boundary

end Splits

section Statements

/-- Every value a suffix node needs is known to the suffix, and the suffix on the boundary
tensors and the original inputs gives the outputs of the original model. -/
structure Composes (g : Model V) (s : Split V) : Prop where
  supplied : ∀ n ∈ s.suffixModel.nodes, ∀ x ∈ shape.reads n,
    x ∈ s.suffixModel.known ++ shape.bound s.suffixModel.nodes
  outputs : s.suffixModel.outputs = g.outputs
  agrees : ∀ ops feed, ∀ y ∈ g.outputs,
    s.suffixModel.evaluate ops
      (fun x => if x ∈ s.boundary then s.prefixModel.evaluate ops feed x else feed x) y =
        g.evaluate ops feed y

/-- The graph inputs and the values of other nodes that the outputs need behind a cut are
operands of nodes behind it, or the tensor cut at. -/
def Declared (g : Model V) (suffixNodes : List Node) (cut : List String) : Prop :=
  ∀ x ∈ shape.needs suffixNodes g.outputs, x ∈ g.inputs ++ shape.bound g.nodes →
    x ∈ operands suffixNodes ++ cut

end Statements

section Parts
variable {g : Model V} {s : Split V} {tools : OnnxTools V} {suffixNodes : List Node}
  {boundary cut : List String} {x : String}

theorem mem_operands : x ∈ operands suffixNodes ↔ ∃ n ∈ suffixNodes, x ∈ n.inputs ∧ x ≠ "" := by
  simp [operands]

theorem mem_sortedCommon {a b : List String} : x ∈ sortedCommon a b ↔ x ∈ a ∧ x ∈ b := by
  simp [sortedCommon]

/-- A suffix and what the nodes left out of it produce; the boundary is what of this the
suffix names as an operand, with the tensor cut at. -/
structure Parts (g : Model V) (suffixNodes : List Node) (boundary cut : List String) : Prop where
  sublist : suffixNodes.Sublist g.nodes
  boundary : ∀ x, x ∈ boundary ↔ (x ∈ shape.bound g.nodes ∧ x ∉ shape.bound suffixNodes) ∧
    x ∈ operands suffixNodes ++ cut
  cut : ∀ x ∈ cut, x ∈ shape.bound g.nodes

theorem finish_spec (h : finish tools g suffixNodes boundary = some s) :
    tools.extractModel g g.inputs boundary = some s.prefixModel ∧
      tools.checkModel s.suffixModel = true ∧ s.suffixModel = suffixModel g suffixNodes boundary ∧
      s.boundary = boundary := by
  rw [finish] at h
  obtain ⟨extracted, hextracted, h⟩ := Option.bind_eq_some_iff.mp h
  dsimp only at h
  split at h
  · rename_i hcheck
    cases h
    exact ⟨hextracted, hcheck, rfl, rfl⟩
  · cases h

theorem mem_suffix_inputs : x ∈ (suffixModel g suffixNodes boundary).inputs ↔
    x ∈ boundary ∨ x ∈ g.inputs ∧ x ∈ operands suffixNodes := by
  simp only [suffixModel, List.mem_append, List.mem_filter, decide_eq_true_eq]
  tauto

/-- Every operand of a suffix node is known to the suffix. -/
theorem Parts.supplied (hp : Parts g suffixNodes boundary cut) (hg : g.Valid)
    (hx : x ∈ operands suffixNodes) :
    x ∈ (suffixModel g suffixNodes boundary).known ++ shape.bound suffixNodes := by
  obtain ⟨n, hn, hin, hne⟩ := mem_operands.mp hx
  obtain ⟨before, behind, hnodes⟩ := List.append_of_mem (hp.sublist.subset hn)
  have hknown := Shape.atEach_iff.mp hg.inScope before n behind hnodes x
    (mem_reads.mpr (.inl ⟨hin, hne⟩))
  have hscope : x ∈ g.known ∨ x ∈ shape.bound g.nodes := by
    rcases List.mem_append.mp hknown with hk | hb
    · exact .inl hk
    · refine .inr ?_
      rw [hnodes, Shape.bound_append]
      exact List.mem_append_left _ hb
  by_cases hsuffix : x ∈ shape.bound suffixNodes
  · exact List.mem_append_right _ hsuffix
  · refine List.mem_append_left _ ?_
    rcases hscope with hk | hb
    · rcases List.mem_append.mp hk with hin | hinit
      · exact List.mem_append_left _ (mem_suffix_inputs.mpr (.inr ⟨hin, hx⟩))
      · exact List.mem_append_right _ hinit
    · refine List.mem_append_left _ (mem_suffix_inputs.mpr (.inl ?_))
      exact (hp.boundary x).mpr ⟨⟨hb, hsuffix⟩, List.mem_append_left _ hx⟩

/-- A needed name is an input of the graph, an initializer or a value of another node. -/
theorem Parts.needed_known (hp : Parts g suffixNodes boundary cut) (hg : g.Valid)
    (hx : x ∈ shape.needs suffixNodes g.outputs) :
    x ∈ g.known ++ shape.bound g.nodes ∧ x ∉ shape.bound suffixNodes := by
  obtain ⟨hfrom, hnot⟩ := Shape.needs_spec (hg.ordered.sublist hp.sublist) hx
  refine ⟨?_, hnot⟩
  rcases hfrom with ⟨n, hn, hread⟩ | hout
  · obtain ⟨before, behind, hnodes⟩ := List.append_of_mem (hp.sublist.subset hn)
    have hknown := Shape.atEach_iff.mp hg.inScope before n behind hnodes x hread
    rw [hnodes, Shape.bound_append, ← List.append_assoc]
    exact List.mem_append_left _ hknown
  · exact hg.outputs x hout

/-- A needed name the suffix declares, or need not, starts with its value in the model. -/
theorem Parts.start_declared (hp : Parts g suffixNodes boundary cut) (hg : g.Valid) {ops : Ops V}
    {feed values : String → Option V} (hvalues : ∀ x ∈ boundary, values x = g.evaluate ops feed x)
    (hx : x ∈ shape.needs suffixNodes g.outputs)
    (hdeclared : x ∈ g.inputs ++ shape.bound g.nodes → x ∈ operands suffixNodes ++ cut) :
    (suffixModel g suffixNodes boundary).start
      (fun x => if x ∈ boundary then values x else feed x) x = g.evaluate ops feed x := by
  obtain ⟨hknown, hnot⟩ := hp.needed_known hg hx
  by_cases hb : x ∈ shape.bound g.nodes
  · have hboundary : x ∈ boundary :=
      (hp.boundary x).mpr ⟨⟨hb, hnot⟩, hdeclared (List.mem_append_right _ hb)⟩
    have hinit : x ∉ (suffixModel g suffixNodes boundary).initializerNames := fun h =>
      hg.new x hb (List.mem_append_right _ h)
    rw [Model.start_of_not_initializer hinit, if_pos (mem_suffix_inputs.mpr (.inl hboundary)),
      if_pos hboundary, hvalues x hboundary]
  · have hboundary : x ∉ boundary := fun h => hb ((hp.boundary x).mp h).1.1
    have hwhole : g.evaluate ops feed x = g.start feed x := Shape.Meaning.run_of_not_bound hb
    rw [hwhole]
    by_cases hin : x ∈ g.inputs
    · have hoperand : x ∈ operands suffixNodes := by
        rcases List.mem_append.mp (hdeclared (List.mem_append_left _ hin)) with h | h
        · exact h
        · exact absurd (hp.cut x h) hb
      rw [Model.start, Model.start, if_pos (mem_suffix_inputs.mpr (.inr ⟨hin, hoperand⟩)),
        if_neg hboundary, if_pos hin]
      rfl
    · have hinput : x ∉ (suffixModel g suffixNodes boundary).inputs := by
        rw [mem_suffix_inputs, not_or]
        exact ⟨hboundary, fun h => hin h.1⟩
      rw [Model.start_of_not_input hinput, Model.start_of_not_input hin]
      rfl

/-- A name the suffix does not declare starts with its initializer at most. -/
theorem Parts.start_undeclared (hp : Parts g suffixNodes boundary cut) {feed : String → Option V}
    (hx : x ∉ operands suffixNodes ++ cut) :
    (suffixModel g suffixNodes boundary).start feed x = g.initializer? x := by
  have hinput : x ∉ (suffixModel g suffixNodes boundary).inputs := by
    rw [mem_suffix_inputs, not_or]
    exact ⟨fun h => hx ((hp.boundary x).mp h).2, fun h => hx (List.mem_append_left _ h.2)⟩
  rw [Model.start_of_not_input hinput]
  rfl

/-- Where every operator gives a value, an undeclared name starts without its own. -/
theorem Parts.start_ne (hp : Parts g suffixNodes boundary cut) (hg : g.Valid) {ops : Ops V}
    (hops : ∀ n ∈ g.nodes, ∀ e, ∀ x ∈ shape.binds n, (ops.meaning.exec n e x).isSome = true)
    (hmem : x ∈ g.inputs ++ shape.bound g.nodes) (hx : x ∉ operands suffixNodes ++ cut) {v : V}
    (hv : g.initializer? x ≠ some v) (feed : String → Option V) :
    (suffixModel g suffixNodes boundary).start feed x ≠ g.evaluate ops (fun _ => some v) x := by
  rw [hp.start_undeclared hx]
  by_cases hb : x ∈ shape.bound g.nodes
  · have hnone : g.initializer? x = none :=
      lookup_eq_none.mpr fun h => hg.new x hb (List.mem_append_right _ h)
    obtain ⟨n, hn, hbinds⟩ := List.mem_flatMap.mp hb
    have hvalue : g.evaluate ops (fun _ => some v) x =
        ops.meaning.exec n (g.evaluate ops fun _ => some v) x :=
      Shape.Meaning.run_solves hg.ordered hg.bound n hn x hbinds
    have hsome := hops n hn (g.evaluate ops fun _ => some v) x hbinds
    rw [hnone]
    intro heq
    rw [← hvalue, ← heq] at hsome
    cases hsome
  · have hin : x ∈ g.inputs := (List.mem_append.mp hmem).resolve_right hb
    have hwhole : g.evaluate ops (fun _ => some v) x = g.start (fun _ => some v) x :=
      Shape.Meaning.run_of_not_bound hb
    rw [hwhole, Model.start, if_pos hin]
    exact hv

/-- A split composes just when the suffix declares what the outputs need. -/
theorem Parts.composes_iff [Infinite V] (hp : Parts g suffixNodes boundary cut)
    (htools : tools.Documented) (hg : g.Valid) (hs : finish tools g suffixNodes boundary = some s) :
    Composes g s ↔ Declared g suffixNodes cut := by
  obtain ⟨hextract, hcheck, hsuffix, hboundary⟩ := finish_spec hs
  have hvalues (ops : Ops V) (feed : String → Option V) :
      ∀ x ∈ boundary, s.prefixModel.evaluate ops feed x = g.evaluate ops feed x :=
    htools.extracts g boundary _ hextract ops feed
  constructor
  · intro h x hx hmem
    by_contra hnot
    obtain ⟨ops, hseparates, hops⟩ := exists_separating (V := V) g.nodes
    obtain ⟨v, hv⟩ : ∃ v : V, g.initializer? x ≠ some v := by
      obtain ⟨v, hv⟩ := Infinite.exists_notMem_finset (g.initializer? x).toFinset
      exact ⟨v, fun h => hv (by simp [h])⟩
    obtain ⟨y, hy, hne⟩ := Shape.Meaning.exists_run_part_ne hg.ordered hg.bound hp.sublist
      (fun n hn => hseparates n (hp.sublist.subset hn)) hx
      (hp.start_ne hg hops hmem hnot hv _)
    have hagrees := h.agrees ops (fun _ => some v) y hy
    rw [hsuffix, hboundary] at hagrees
    exact hne hagrees
  · intro h
    refine ⟨fun n hn x hx => ?_, by rw [hsuffix]; rfl, fun ops feed y hy => ?_⟩
    · rcases mem_reads.mp hx with ⟨hin, hne⟩ | hcapture
      · rw [hsuffix] at hn ⊢
        exact hp.supplied hg (mem_operands.mpr ⟨n, hn, hin, hne⟩)
      · exact htools.checks s.suffixModel hcheck n hn x hcapture
    · rw [hsuffix, hboundary]
      exact Shape.Meaning.run_part hg.ordered hg.bound hp.sublist
        (fun x hx => hp.start_declared hg (hvalues ops feed) hx (h x hx)) y hy

end Parts

section Ancestors
variable {nodes : List Node} {name cutOutput inp x : String} {names : List String} {i j idx : Nat}
  {n : Node} {acc : List Nat} {depth : Nat}

/-- A node a tensor depends on: its producer, or a producer of an operand of such a node. -/
inductive DependsOn (nodes : List Node) (name : String) : Nat → Prop where
  | producer {idx : Nat} : producer? nodes name = some idx → DependsOn nodes name idx
  | operand {idx j : Nat} {inp : String} : DependsOn nodes name idx → inp ∈ operandsAt nodes idx →
      producer? nodes inp = some j → DependsOn nodes name j

theorem producer?_spec (h : producer? nodes x = some i) :
    ∃ n, nodes[i]? = some n ∧ x ∈ shape.binds n := by
  have hmem := List.mem_reverse.mp (mem_of_lookup h)
  obtain ⟨⟨n, k⟩, hp, hout⟩ := List.mem_flatMap.mp hmem
  obtain ⟨out, hbinds, heq⟩ := List.mem_map.mp hout
  cases heq
  exact ⟨n, List.mem_zipIdx_iff_getElem?.mp hp, hbinds⟩

theorem DependsOn.through (h : DependsOn nodes inp j) (hidx : DependsOn nodes name idx)
    (hin : inp ∈ operandsAt nodes idx) : DependsOn nodes name j := by
  induction h with
  | producer hp => exact .operand hidx hin hp
  | operand _ hmem hp ih => exact .operand ih hmem hp

theorem foldl_sound (hidx : DependsOn nodes name idx)
    (hvisit : ∀ inp acc, i ∈ visitTensor nodes depth inp acc → i ∈ acc ∨ DependsOn nodes inp i)
    (hnames : ∀ inp ∈ names, inp ∈ operandsAt nodes idx)
    (h : i ∈ names.foldl (fun acc inp => visitTensor nodes depth inp acc) acc) :
    i ∈ acc ∨ DependsOn nodes name i := by
  induction names generalizing acc with
  | nil => exact .inl h
  | cons inp names ih =>
      rcases ih (fun z hz => hnames z (List.mem_cons_of_mem _ hz)) h with hi | hi
      · rcases hvisit inp acc hi with hi | hi
        · exact .inl hi
        · exact .inr (hi.through hidx (hnames inp List.mem_cons_self))
      · exact .inr hi

/-- Only nodes the tensor depends on are added. -/
theorem visitTensor_sound (h : i ∈ visitTensor nodes depth name acc) :
    i ∈ acc ∨ DependsOn nodes name i := by
  induction depth generalizing name acc with
  | zero => exact .inl h
  | succ depth ih =>
      rw [visitTensor] at h
      split at h
      · exact .inl h
      · rename_i idx hidx
        split at h
        · exact .inl h
        · rcases foldl_sound (.producer hidx) (fun _ _ => ih) (fun _ h => h) h with hi | hi
          · rcases List.mem_cons.mp hi with rfl | hi
            · exact .inr (.producer hidx)
            · exact .inl hi
          · exact .inr hi

/-- The nodes not visited yet. -/
def unvisited (nodes : List Node) (acc : List Nat) : Finset Nat :=
  Finset.range nodes.length \ acc.toFinset

/-- A visit of some tensors adds their producers, and with every node those of its operands. -/
structure Explores (nodes : List Node) (names : List String) (acc r : List Nat) : Prop where
  keeps : acc ⊆ r
  producers : ∀ name ∈ names, ∀ idx, producer? nodes name = some idx → idx ∈ r
  closed : ∀ i ∈ r, i ∈ acc ∨ ∀ inp ∈ operandsAt nodes i, ∀ j, producer? nodes inp = some j → j ∈ r

theorem card_unvisited_le {acc r : List Nat} (h : acc ⊆ r) :
    (unvisited nodes r).card ≤ (unvisited nodes acc).card := by
  refine Finset.card_le_card (Finset.sdiff_subset_sdiff subset_rfl fun i hi => ?_)
  exact List.mem_toFinset.mpr (h (List.mem_toFinset.mp hi))

theorem card_unvisited_cons_lt (hidx : idx < nodes.length) (hnew : idx ∉ acc) :
    (unvisited nodes (idx :: acc)).card < (unvisited nodes acc).card := by
  refine Finset.card_lt_card (Finset.ssubset_iff_of_subset ?_ |>.mpr ⟨idx, ?_, ?_⟩)
  · refine Finset.sdiff_subset_sdiff subset_rfl fun i hi => ?_
    exact List.mem_toFinset.mpr (List.mem_cons_of_mem idx (List.mem_toFinset.mp hi))
  · simp [unvisited, hidx, hnew]
  · simp [unvisited]

theorem explores_foldl (names : List String)
    (hvisit : ∀ name acc, (unvisited nodes acc).card < depth →
      Explores nodes [name] acc (visitTensor nodes depth name acc))
    (hacc : (unvisited nodes acc).card < depth) :
    Explores nodes names acc
      (names.foldl (fun acc inp => visitTensor nodes depth inp acc) acc) := by
  induction names generalizing acc with
  | nil => exact ⟨fun _ h => h, fun _ h => (List.not_mem_nil h).elim, fun _ h => .inl h⟩
  | cons name names ih =>
      have hfirst := hvisit name acc hacc
      have hrest := ih ((card_unvisited_le hfirst.keeps).trans_lt hacc)
      refine ⟨fun i hi => hrest.keeps (hfirst.keeps hi), fun z hz idx hidx => ?_, fun i hi => ?_⟩
      · rcases List.mem_cons.mp hz with rfl | hz
        · exact hrest.keeps (hfirst.producers z (List.mem_singleton_self z) idx hidx)
        · exact hrest.producers z hz idx hidx
      · rcases hrest.closed i hi with hi | hclosed
        · rcases hfirst.closed i hi with hi | hclosed
          · exact .inl hi
          · exact .inr fun inp hinp j hj => hrest.keeps (hclosed inp hinp j hj)
        · exact .inr hclosed

/-- The depth allowed is enough when it exceeds the number of nodes not visited. -/
theorem explores_visitTensor (name : String) (hacc : (unvisited nodes acc).card < depth) :
    Explores nodes [name] acc (visitTensor nodes depth name acc) := by
  induction depth generalizing name acc with
  | zero => exact absurd hacc (Nat.not_lt_zero _)
  | succ depth ih =>
      rw [visitTensor]
      split
      · rename_i hnone
        refine ⟨fun _ h => h, fun z hz idx hidx => ?_, fun _ h => .inl h⟩
        rw [List.mem_singleton.mp hz, hnone] at hidx
        cases hidx
      · rename_i idx hidx
        split
        · rename_i hmem
          refine ⟨fun _ h => h, fun z hz k hk => ?_, fun _ h => .inl h⟩
          rw [List.mem_singleton.mp hz, hidx] at hk
          cases hk
          exact hmem
        · rename_i hnew
          obtain ⟨n, hn, -⟩ := producer?_spec hidx
          have hlt := card_unvisited_cons_lt (List.getElem?_eq_some_iff.mp hn).1 hnew
          have hfold := explores_foldl (operandsAt nodes idx) (fun name acc h => ih name h)
            (show (unvisited nodes (idx :: acc)).card < depth by omega)
          refine ⟨fun i hi => hfold.keeps (List.mem_cons_of_mem _ hi), fun z hz k hk => ?_,
            fun i hi => ?_⟩
          · rw [List.mem_singleton.mp hz, hidx] at hk
            cases hk
            exact hfold.keeps List.mem_cons_self
          · rcases hfold.closed i hi with hi | hclosed
            · rcases List.mem_cons.mp hi with rfl | hi
              · exact .inr fun inp hinp j hj => hfold.producers inp hinp j hj
              · exact .inl hi
            · exact .inr hclosed

/-- The prefix takes the nodes the tensor depends on, all of them and no others. -/
theorem mem_ancestors : i ∈ ancestors nodes cutOutput ↔ DependsOn nodes cutOutput i := by
  constructor
  · intro h
    exact (visitTensor_sound h).resolve_left List.not_mem_nil
  · intro h
    have hcard : (unvisited nodes []).card < nodes.length + 1 := by simp [unvisited]
    have hvisit := explores_visitTensor cutOutput hcard
    induction h with
    | producer hp => exact hvisit.producers cutOutput (List.mem_singleton_self _) _ hp
    | operand _ hin hp ih =>
        exact (hvisit.closed _ ih).resolve_left List.not_mem_nil _ hin _ hp

/-- A name is bound by one node. -/
theorem index_unique {m : Node} (hb : (shape.bound nodes).Nodup) (hi : nodes[i]? = some n)
    (hj : nodes[j]? = some m) (hx : x ∈ shape.binds n) (hx' : x ∈ shape.binds m) : i = j := by
  obtain ⟨-, hdisjoint⟩ := List.nodup_flatMap.mp hb
  obtain ⟨hilt, rfl⟩ := List.getElem?_eq_some_iff.mp hi
  obtain ⟨hjlt, rfl⟩ := List.getElem?_eq_some_iff.mp hj
  rcases Nat.lt_trichotomy i j with hlt | heq | hgt
  · exact (List.pairwise_iff_getElem.mp hdisjoint i j hilt hjlt hlt hx hx').elim
  · exact heq
  · exact (List.pairwise_iff_getElem.mp hdisjoint j i hjlt hilt hgt hx' hx).elim

theorem mem_bound_nodesBehind : x ∈ shape.bound (nodesBehind nodes cutOutput) ↔
    ∃ i n, nodes[i]? = some n ∧ i ∉ ancestors nodes cutOutput ∧ x ∈ shape.binds n := by
  simp only [Shape.bound, nodesBehind, List.mem_flatMap, List.mem_map, List.mem_filter,
    decide_eq_true_eq, Prod.exists, List.mem_zipIdx_iff_getElem?]
  constructor
  · rintro ⟨n, ⟨m, i, ⟨hi, hnot⟩, rfl⟩, hx⟩
    exact ⟨i, m, hi, hnot, hx⟩
  · rintro ⟨i, n, hi, hnot, hx⟩
    exact ⟨n, ⟨n, i, ⟨hi, hnot⟩, rfl⟩, hx⟩

end Ancestors

section Cuts
variable {g : Model V} {s : Split V} {tools : OnnxTools V} {cutIndex : Int} {cutOutput : String}

theorem parts_position (hg : g.Valid) (k : Nat) :
    Parts g (g.nodes.drop k)
      (sortedCommon (shape.bound (g.nodes.take k)) (operands (g.nodes.drop k))) [] where
  sublist := List.drop_sublist k g.nodes
  boundary x := by
    have hall : shape.bound g.nodes =
        shape.bound (g.nodes.take k) ++ shape.bound (g.nodes.drop k) := by
      rw [← Shape.bound_append, List.take_append_drop]
    have hdisjoint := (List.nodup_append.mp (hall ▸ hg.bound)).2.2
    rw [mem_sortedCommon, hall, List.mem_append, List.append_nil]
    constructor
    · rintro ⟨htake, hoperand⟩
      exact ⟨⟨.inl htake, fun hdrop => hdisjoint x htake x hdrop rfl⟩, hoperand⟩
    · rintro ⟨⟨hbound, hnot⟩, hoperand⟩
      exact ⟨hbound.resolve_right hnot, hoperand⟩
  cut x hx := (List.not_mem_nil hx).elim

/-- The values of the ancestors are those the nodes behind the tensor do not produce. -/
theorem mem_ancestorOutputs (hg : g.Valid) {x : String} :
    x ∈ ancestorOutputs g.nodes cutOutput ↔
      x ∈ shape.bound g.nodes ∧ x ∉ shape.bound (nodesBehind g.nodes cutOutput) := by
  rw [ancestorOutputs, List.mem_flatMap, mem_bound_nodesBehind]
  constructor
  · rintro ⟨idx, hidx, hx⟩
    cases hn : g.nodes[idx]? with
    | none =>
        rw [hn] at hx
        cases hx
    | some n =>
        rw [hn] at hx
        refine ⟨List.mem_flatMap.mpr ⟨n, List.mem_of_getElem? hn, hx⟩, ?_⟩
        rintro ⟨j, m, hm, hnot, hx'⟩
        exact hnot (index_unique hg.bound hn hm hx hx' ▸ hidx)
  · rintro ⟨hb, hnot⟩
    obtain ⟨n, hn, hx⟩ := List.mem_flatMap.mp hb
    obtain ⟨i, hi⟩ := List.mem_iff_getElem?.mp hn
    refine ⟨i, ?_, by rw [hi]; exact hx⟩
    by_contra hidx
    exact hnot ⟨i, n, hi, hidx, hx⟩

theorem parts_tensor (hg : g.Valid) {idx : Nat} (hcut : producer? g.nodes cutOutput = some idx) :
    let common := sortedCommon (ancestorOutputs g.nodes cutOutput)
      (operands (nodesBehind g.nodes cutOutput))
    Parts g (nodesBehind g.nodes cutOutput)
      (if cutOutput ∈ common then common else common ++ [cutOutput]) [cutOutput] where
  sublist := by
    rw [nodesBehind]
    have hall : g.nodes = g.nodes.zipIdx.map Prod.fst := by simp
    conv_rhs => rw [hall]
    exact List.filter_sublist.map Prod.fst
  boundary x := by
    obtain ⟨n, hn, hx⟩ := producer?_spec hcut
    have hproduced : cutOutput ∈ ancestorOutputs g.nodes cutOutput :=
      List.mem_flatMap.mpr ⟨idx, mem_ancestors.mpr (.producer hcut), by rw [hn]; exact hx⟩
    have hadded (common : List String) :
        x ∈ (if cutOutput ∈ common then common else common ++ [cutOutput]) ↔
          x ∈ common ∨ x = cutOutput := by
      split
      · rename_i hmem
        exact ⟨.inl, fun h => h.elim id fun heq => heq ▸ hmem⟩
      · rw [List.mem_append, List.mem_singleton]
    rw [hadded, mem_sortedCommon, ← mem_ancestorOutputs hg, List.mem_append, List.mem_singleton]
    constructor
    · rintro (⟨hx, hoperand⟩ | rfl)
      · exact ⟨hx, .inl hoperand⟩
      · exact ⟨hproduced, .inr rfl⟩
    · rintro ⟨hx, hoperand | rfl⟩
      · exact .inl ⟨hx, hoperand⟩
      · exact .inr rfl
  cut x hx := by
    obtain ⟨n, hn, hbinds⟩ := producer?_spec hcut
    rw [List.mem_singleton.mp hx]
    exact List.mem_flatMap.mpr ⟨n, List.mem_of_getElem? hn, hbinds⟩

/-- A node with one operand and one output. -/
def unary (opType input output : String) : Node :=
  ⟨output, opType, "", [input], [output], [], [], []⟩

/-- Extraction that keeps the whole model, and the check of the bodies. -/
def wholeTools : OnnxTools Nat where
  extractModel g _ outs := some { g with outputs := outs }
  checkModel g := g.nodes.all fun n => n.captures.all (· ∈ g.known ++ shape.bound g.nodes)

theorem documented_wholeTools : wholeTools.Documented where
  extracts g outs p h ops feed x _ := by
    cases h
    rfl
  checks g h n hn x hx := by
    have hn := List.all_eq_true.mp h n hn
    simpa using List.all_eq_true.mp hn x hx

/-- Three nodes one behind the other. -/
def chainModel (outputs : List String) : Model Nat where
  inputs := ["x"]
  initializers := []
  nodes := [unary "Relu" "x" "p", unary "Neg" "p" "q", unary "Abs" "q" "r"]
  outputs := outputs

theorem valid_chainModel {outputs : List String} (h : ∀ y ∈ outputs, y = "p" ∨ y = "r") :
    (chainModel outputs).Valid where
  inputs := List.nodup_singleton "x"
  initializers := List.nodup_nil
  bound := show ["p", "q", "r"].Nodup by decide
  new := show ∀ x ∈ ["p", "q", "r"], x ∉ ["x"] by decide
  named := show "" ∉ ["x"] by decide
  inScope := by simp [Shape.Scoped, Shape.AtEach, shape, chainModel, unary, Model.known]
  unshadowed := by simp [Shape.Unshadowed, Shape.AtEach, shape, chainModel, unary]
  outputs y hy := by
    change y ∈ ["x", "p", "q", "r"]
    rcases h y hy with rfl | rfl <;> decide

end Cuts

end JetsonVoice.Kokoro
