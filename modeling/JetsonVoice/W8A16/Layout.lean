import JetsonVoice.W8A16.Evaluation
import Mathlib.Algebra.Group.Nat.Even
import Mathlib.Logic.Function.Iterate

/-!
# Converting the layout and rolling nodes back

One script transposes the quantised weight of every plugin node and declares the
layout `[N, K]`; another turns chosen nodes back into `MatMul` with the dequantised
weight. Both read initializers that several nodes may share.

## Implementation notes

`none` stands for a script that raises. A dictionary of initializers is looked up
from the front, which is the same where initializer names are unique.
`onnx.checker.check_model` and the choice of nodes by their labels are parameters.
-/

namespace JetsonVoice.W8A16

open Onnx Onnx.Tensor Foundation.SingleAssignment

section Scripts

def isPlugin (n : Node) : Bool := n.opType = "W8A16LinearPlugin"

/-- Overwrite the first attribute of a name, or append one. -/
def setAttr (attributes : List (String × Attr)) (name : String) (i : Int) : List (String × Attr) :=
  match attributes with
  | [] => [(name, .int i)]
  | (key, v) :: rest =>
      if key = name then (key, .int i) :: rest else (key, v) :: setAttr rest name i

/-- Transpose a stored tensor in place. -/
def transposeStored (initializers : List (String × Tensor)) (name : String) :
    List (String × Tensor) :=
  initializers.map fun p => if p.1 = name then (p.1, p.2.transposed) else p

/-- The transpose loop of the converter. -/
def transposeLoop? (initializers : List (String × Tensor)) :
    List Node → Option (List (String × Tensor) × List Node)
  | [] => some (initializers, [])
  | n :: ns =>
      if isPlugin n then do
        let qweightName ← n.inputs[1]?
        let qweight ← initializers.lookup qweightName
        if qweight.dims.length ≠ 2 then none
        else do
          let (initializers', ns') ← transposeLoop? (transposeStored initializers qweightName) ns
          some (initializers',
            { n with attributes := setAttr n.attributes "weight_layout" 1 } :: ns')
      else do
        let (initializers', ns') ← transposeLoop? initializers ns
        some (initializers', n :: ns')

/-- `transpose_w8a16_onnx_layout.py`. -/
def transposeLayout? (g : Graph) : Option Graph := do
  let (initializers, nodes) ← transposeLoop? g.initializers g.nodes
  some { g with initializers := initializers, nodes := nodes }

/-- The text the regular expressions are matched against. -/
def nodeLabel (n : Node) : String := " ".intercalate (n.name :: n.inputs ++ n.outputs)

/-- What the names of a rolled-back node are made from. -/
def rollbackBase (n : Node) : String := if n.name = "" then n.outputs.headD "" else n.name

def fp16WeightName (n : Node) : String := rollbackBase n ++ "_fp16_weight"

/-- The dequantised weight of a plugin node, from the stored tensors. -/
def storedWeight? (initializers : List (String × Tensor)) (n : Node) : Option Tensor := do
  let qweight ← n.inputs[1]?.bind fun x => initializers.lookup x
  let scales ← n.inputs[2]?.bind fun x => initializers.lookup x
  dequantWeight? qweight scales (n.attrInt "weight_layout" 0)

/-- The nodes that are rolled back. -/
def isRolled (chosen : String → Bool) (n : Node) : Bool := isPlugin n && chosen (nodeLabel n)

/-- The rollback loop: the weights added and the nodes after it. -/
def rollbackLoop? (chosen : String → Bool) (initializers : List (String × Tensor)) :
    List Node → Option (List (String × Tensor) × List Node)
  | [] => some ([], [])
  | n :: ns =>
      if isRolled chosen n then do
        let weight ← storedWeight? initializers n
        let activationName ← n.inputs[0]?
        let outputName ← n.outputs[0]?
        let (added, ns') ← rollbackLoop? chosen initializers ns
        some ((fp16WeightName n, weight) :: added,
          { name := rollbackBase n ++ "_fp16_matmul"
            opType := "MatMul"
            domain := ""
            inputs := [activationName, fp16WeightName n]
            outputs := [outputName]
            attributes := []
            captures := []
            inner := [] } :: ns')
      else do
        let (added, ns') ← rollbackLoop? chosen initializers ns
        some (added, n :: ns')

/-- `selective_w8a16_onnx.py`. -/
def rollback? (checkModel : Graph → Bool) (chosen : String → Bool) (g : Graph) :
    Option Graph := do
  let (added, nodes) ← rollbackLoop? chosen g.initializers g.nodes
  let rolled := { g with initializers := g.initializers ++ added, nodes := nodes }
  if checkModel rolled then some rolled else none

end Scripts

section Specification

/-- The weight `[K, N]` that a plugin node reads in the layout it declares. -/
def declaredWeight? (g : Graph) (n : Node) : Option Tensor := do
  let q ← n.inputs[1]?.bind g.initializer?
  let p := pluginAttrs n
  if p.weightLayout = 1 then if intDims q = [p.gemmN, p.gemmK] then some q.transposed else none
  else if intDims q = [p.gemmK, p.gemmN] then some q else none

/-- The operands of a plugin node, apart from the layout of its weight. -/
structure PluginNode (g : Graph) (n : Node) (activation qweight scales output : String)
    (q s : Tensor) (cols rows : Nat) : Prop where
  inputs : n.inputs = [activation, qweight, scales]
  outputs : n.outputs = [output]
  activation_ne : activation ≠ ""
  output_ne : output ≠ ""
  stored : g.initializer? qweight = some q
  storedScales : g.initializer? scales = some s
  gemmN : (pluginAttrs n).gemmN = cols
  gemmK : (pluginAttrs n).gemmK = rows
  scaleMode : (pluginAttrs n).scaleMode = 0
  groupSize : (pluginAttrs n).groupSize = 0 ∨ (pluginAttrs n).groupSize = 1 ∨
    (pluginAttrs n).groupSize = rows
  pos : 0 < cols ∧ 0 < rows
  scales_dims : s.dims = [cols]
  captures : n.captures = []
  inner : n.inner = []

/-- A plugin node that the plugin accepts, in layout 0 or 1. -/
def PluginOk (g : Graph) (n : Node) : Prop :=
  ∃ activation qweight scales output q s cols rows,
    PluginNode g n activation qweight scales output q s cols rows ∧
    ((pluginAttrs n).weightLayout = 0 ∧ q.dims = [rows, cols] ∨
      (pluginAttrs n).weightLayout = 1 ∧ q.dims = [cols, rows])

/-- A valid graph whose plugin nodes the plugin accepts. -/
structure PluginGraph (g : Graph) : Prop where
  valid : g.Valid
  plugins : ∀ n ∈ g.nodes, isPlugin n = true → PluginOk g n

/-- Every plugin node reads the same weight and computes the same products before
and after the conversion. -/
def ConversionKeeps (g g' : Graph) : Prop :=
  ∀ (i : Nat) n, g.nodes[i]? = some n → isPlugin n = true →
    ∃ n', g'.nodes[i]? = some n' ∧ declaredWeight? g' n' = declaredWeight? g n ∧
      ∀ I a, nodeProduct I g' n' a = nodeProduct I g n a

/-- Every chosen node of a graph is a `MatMul` in the other and computes the same. -/
def RollbackKeeps (chosen : String → Bool) (g r : Graph) : Prop :=
  ∀ (i : Nat) n, g.nodes[i]? = some n → isRolled chosen n = true →
    ∃ m, r.nodes[i]? = some m ∧ m.opType = "MatMul" ∧
      ∀ I a, nodeProduct I r m a = nodeProduct I g n a

/-- Conversion and rollback agree with the kernels and with each other. -/
structure LayoutAgrees (checkModel : Graph → Bool) (chosen : String → Bool) (g : Graph) :
    Prop where
  keeps : ∃ g', transposeLayout? g = some g' ∧ ConversionKeeps g g'
  idempotent : ∃ g', transposeLayout? g = some g' ∧ transposeLayout? g' = some g'
  rollback : ∃ r, rollback? checkModel chosen g = some r ∧ r.Valid ∧ RollbackKeeps chosen g r
  rollbackLast : ∃ g' r, transposeLayout? g = some g' ∧
    rollback? checkModel chosen g' = some r ∧ r.Valid ∧ RollbackKeeps chosen g r
  rollbackFirst : ∃ r g', rollback? checkModel chosen g = some r ∧
    transposeLayout? r = some g' ∧ RollbackKeeps chosen g g'

/-- How many plugin nodes have the initializer as their weight. -/
def readers (ns : List Node) (x : String) : Nat :=
  ns.countP fun n => isPlugin n && n.inputs[1]? = some x

/-- The weight is its own transpose, or an even number of nodes reads it and this one
in layout 1. -/
def Settled (g : Graph) (n : Node) : Prop :=
  ∀ x q, n.inputs[1]? = some x → g.initializer? x = some q →
    q.transposed = q ∨ (pluginAttrs n).weightLayout = 1 ∧ Even (readers g.nodes x)

def rolledNodes (chosen : String → Bool) (g : Graph) : List Node :=
  g.nodes.filter (isRolled chosen)

/-- The rolled-back nodes have different names, and their weights' names are new. -/
structure FreshWeights (chosen : String → Bool) (g : Graph) : Prop where
  distinct : ((rolledNodes chosen g).map rollbackBase).Nodup
  unused : ∀ n ∈ rolledNodes chosen g, fp16WeightName n ∉ g.known ++ shape.bound g.nodes
  unshadowed : ∀ n ∈ rolledNodes chosen g, ∀ m ∈ g.nodes, fp16WeightName n ∉ m.inner

end Specification

section Conversion
variable {g : Graph} {n : Node} {x : String} {q : Tensor}

/-- A plugin node after the conversion. -/
def convertedNode (n : Node) : Node :=
  if isPlugin n then { n with attributes := setAttr n.attributes "weight_layout" 1 } else n

/-- Every stored tensor transposed once for each node that has it as its weight. -/
def convertedInitializers (ns : List Node) (xs : List (String × Tensor)) :
    List (String × Tensor) :=
  xs.map fun p => (p.1, transposed^[readers ns p.1] p.2)

def converted (g : Graph) : Graph :=
  { g with
    initializers := convertedInitializers g.nodes g.initializers
    nodes := g.nodes.map convertedNode }

/-- The weight of every plugin node is a stored matrix. -/
def StoredWeights (xs : List (String × Tensor)) (ns : List Node) : Prop :=
  ∀ n ∈ ns, isPlugin n = true →
    ∃ x q, n.inputs[1]? = some x ∧ xs.lookup x = some q ∧ q.dims.length = 2

theorem lookup_map {xs : List (String × Tensor)} (f : String → Tensor → Tensor) :
    (xs.map fun p => (p.1, f p.1 p.2)).lookup x = (xs.lookup x).map (f x) := by
  induction xs with
  | nil => rfl
  | cons p xs ih =>
      obtain ⟨y, t⟩ := p
      by_cases hy : x = y
      · simp [hy]
      · simp only [List.map_cons, List.lookup_cons, beq_false_of_ne hy, ih]

theorem transposeStored_eq (xs : List (String × Tensor)) :
    transposeStored xs x = xs.map fun p => (p.1, if p.1 = x then p.2.transposed else p.2) := by
  refine List.map_congr_left fun p _ => ?_
  split <;> rfl

/-- A matrix stays one when it is transposed. -/
theorem length_dims_transposed (h : q.dims.length = 2) : q.transposed.dims.length = 2 := by
  obtain ⟨r, c, hd⟩ := List.length_eq_two.mp h
  rw [dims_transposed hd]
  rfl

theorem StoredWeights.transposeStored {xs : List (String × Tensor)} {ns : List Node}
    (h : StoredWeights xs ns) (x : String) : StoredWeights (transposeStored xs x) ns := by
  intro n hn hp
  obtain ⟨y, q, hy, hq, hd⟩ := h n hn hp
  refine ⟨y, if y = x then q.transposed else q, hy, ?_, ?_⟩
  · rw [transposeStored_eq, lookup_map (fun y t => if y = x then t.transposed else t), hq]
    rfl
  · split
    · exact length_dims_transposed hd
    · exact hd

/-- The loop transposes a tensor once for each plugin node that reads it. -/
theorem transposeLoop?_eq {ns : List Node} {xs : List (String × Tensor)}
    (h : StoredWeights xs ns) :
    transposeLoop? xs ns = some (convertedInitializers ns xs, ns.map convertedNode) := by
  induction ns generalizing xs with
  | nil => simp [transposeLoop?, convertedInitializers, readers]
  | cons n ns ih =>
      have hns : StoredWeights xs ns := fun m hm => h m (List.mem_cons_of_mem n hm)
      rw [transposeLoop?, List.map_cons, convertedNode]
      by_cases hp : isPlugin n = true
      · obtain ⟨y, q, hy, hq, hd⟩ := h n List.mem_cons_self hp
        have hinits : convertedInitializers ns (transposeStored xs y) =
            convertedInitializers (n :: ns) xs := by
          rw [transposeStored_eq, convertedInitializers, convertedInitializers, List.map_map]
          refine List.map_congr_left fun p _ => ?_
          simp only [Function.comp_apply, readers, List.countP_cons, hp, hy, Bool.true_and]
          by_cases hpy : p.1 = y
          · simp [hpy, Function.iterate_succ_apply]
          · simp [hpy, Ne.symm hpy]
        simp [hp, hy, hq, hd, ih (hns.transposeStored y), hinits]
      · have hinits : convertedInitializers ns xs = convertedInitializers (n :: ns) xs := by
          refine List.map_congr_left fun p _ => ?_
          simp [readers, hp]
        simp [hp, ih hns, hinits]

theorem transposeLayout?_eq (h : StoredWeights g.initializers g.nodes) :
    transposeLayout? g = some (converted g) := by
  rw [transposeLayout?, transposeLoop?_eq h]
  rfl

theorem initializer?_converted (x : String) :
    (converted g).initializer? x = (g.initializer? x).map (transposed^[readers g.nodes x]) :=
  lookup_map fun y t => transposed^[readers g.nodes y] t

/-- Transposing a matrix several times transposes it or gives it back. -/
theorem iterate_transposed {r c : Nat} (hd : q.dims = [r, c]) (count : Nat) :
    transposed^[count] q = if Even count then q else q.transposed := by
  induction count with
  | zero => rfl
  | succ count ih =>
      rw [Function.iterate_succ_apply', ih]
      by_cases he : Even count
      · rw [if_pos he, if_neg (by simpa [Nat.even_add_one] using he)]
      · rw [if_neg he, if_pos (by simpa [Nat.even_add_one] using he), transposed_transposed hd]

theorem lookup_setAttr_self (attributes : List (String × Attr)) (name : String) (i : Int) :
    (setAttr attributes name i).lookup name = some (.int i) := by
  induction attributes with
  | nil => simp [setAttr]
  | cons p rest ih =>
      obtain ⟨key, v⟩ := p
      rw [setAttr]
      by_cases hk : key = name
      · simp [hk]
      · rw [if_neg hk, List.lookup_cons, beq_false_of_ne (Ne.symm hk)]
        exact ih

theorem lookup_setAttr_ne (attributes : List (String × Attr)) {name name' : String} (i : Int)
    (h : name' ≠ name) : (setAttr attributes name i).lookup name' = attributes.lookup name' := by
  induction attributes with
  | nil => simp [setAttr, h]
  | cons p rest ih =>
      obtain ⟨key, v⟩ := p
      rw [setAttr]
      by_cases hk : key = name
      · rw [if_pos hk, List.lookup_cons, List.lookup_cons, hk, beq_false_of_ne h]
      · rw [if_neg hk, List.lookup_cons, List.lookup_cons, ih]

theorem setAttr_setAttr (attributes : List (String × Attr)) (name : String) (i : Int) :
    setAttr (setAttr attributes name i) name i = setAttr attributes name i := by
  induction attributes with
  | nil => simp [setAttr]
  | cons p rest ih =>
      obtain ⟨key, v⟩ := p
      by_cases hk : key = name
      · simp [setAttr, hk]
      · simp [setAttr, hk, ih]

/-- The conversion declares layout 1 and leaves the other attributes alone. -/
theorem pluginAttrs_convertedNode (hp : isPlugin n = true) :
    pluginAttrs (convertedNode n) = { pluginAttrs n with weightLayout := 1 } := by
  rw [convertedNode, if_pos hp]
  have hother (name : String) (h : name ≠ "weight_layout") :
      Node.attrInt { n with attributes := setAttr n.attributes "weight_layout" 1 } name 0 =
        n.attrInt name 0 := by
    rw [Node.attrInt, Node.attrInt, lookup_setAttr_ne _ _ h]
  have hlayout :
      Node.attrInt { n with attributes := setAttr n.attributes "weight_layout" 1 }
        "weight_layout" 0 = 1 := by
    rw [Node.attrInt, lookup_setAttr_self]
  simp only [pluginAttrs, hlayout, hother "gemm_n" (by simp), hother "gemm_k" (by simp),
    hother "scale_mode" (by simp), hother "group_size" (by simp)]

@[simp] theorem isPlugin_convertedNode (n : Node) : isPlugin (convertedNode n) = isPlugin n := by
  rw [convertedNode]
  split <;> rfl

@[simp] theorem inputs_convertedNode (n : Node) : (convertedNode n).inputs = n.inputs := by
  rw [convertedNode]
  split <;> rfl

@[simp] theorem outputs_convertedNode (n : Node) : (convertedNode n).outputs = n.outputs := by
  rw [convertedNode]
  split <;> rfl

@[simp] theorem name_convertedNode (n : Node) : (convertedNode n).name = n.name := by
  rw [convertedNode]
  split <;> rfl

@[simp] theorem captures_convertedNode (n : Node) : (convertedNode n).captures = n.captures := by
  rw [convertedNode]
  split <;> rfl

@[simp] theorem inner_convertedNode (n : Node) : (convertedNode n).inner = n.inner := by
  rw [convertedNode]
  split <;> rfl

theorem convertedNode_of_not_plugin (hp : isPlugin n = false) : convertedNode n = n := by
  rw [convertedNode, hp]
  rfl

@[simp] theorem readers_map_convertedNode (ns : List Node) (x : String) :
    readers (ns.map convertedNode) x = readers ns x := by
  rw [readers, readers, List.countP_map]
  refine List.countP_congr fun n _ => ?_
  simp

end Conversion

section Products
variable {g : Graph} {n : Node} {activation qweight scales output : String} {q s w : Tensor}
  {cols rows : Nat}

/-- A matrix with its columns scaled. -/
def scaledColumns (w s : Tensor) (cols : Nat) : Tensor :=
  ofFn w.dims fun i => w.flat i * s.flat (i % cols)

theorem declaredWeight?_eq_some
    (h : PluginNode g n activation qweight scales output q s cols rows) :
    declaredWeight? g n = some w ↔
      (pluginAttrs n).weightLayout = 1 ∧ q.dims = [cols, rows] ∧ w = q.transposed ∨
      (pluginAttrs n).weightLayout ≠ 1 ∧ q.dims = [rows, cols] ∧ w = q := by
  have hdims (a b : Nat) : intDims q = [(a : Int), b] ↔ q.dims = [a, b] := by
    rw [intDims]
    constructor
    · intro hd
      refine List.map_injective_iff.mpr (fun _ _ => Int.ofNat.inj) (hd.trans rfl)
    · intro hd
      rw [hd]
      rfl
  have hq : (n.inputs[1]?.bind g.initializer?) = some q := by
    rw [h.inputs]
    exact h.stored
  rw [declaredWeight?, hq]
  simp only [Option.bind_eq_bind, Option.bind_some, h.gemmN, h.gemmK, hdims]
  by_cases hl : (pluginAttrs n).weightLayout = 1
  · by_cases hd : q.dims = [cols, rows] <;> simp [hl, hd, eq_comm]
  · by_cases hd : q.dims = [rows, cols] <;> simp [hl, hd, eq_comm]

/-- In either layout the dequantised weight is the declared one with scaled columns. -/
theorem dequant_of_declared
    (h : PluginNode g n activation qweight scales output q s cols rows)
    (hl : (pluginAttrs n).weightLayout = 0 ∨ (pluginAttrs n).weightLayout = 1)
    (hw : declaredWeight? g n = some w) :
    dequantWeight? q s (pluginAttrs n).weightLayout = some (scaledColumns w s cols) ∧
      w.dims = [rows, cols] := by
  have hs : s.data.length = cols := by simpa [h.scales_dims] using s.size_eq
  rcases (declaredWeight?_eq_some h).mp hw with ⟨hone, hd, rfl⟩ | ⟨hne, hd, rfl⟩
  · have hwd := dims_transposed hd
    refine ⟨?_, hwd⟩
    rw [hone]
    obtain ⟨w', hw'⟩ : ∃ w', dequantWeight? q s 1 = some w' := by
      simp [dequantWeight?, hd, hs]
    obtain ⟨hd', hflat⟩ := flat_dequant_one hw' hd
    rw [hw']
    congr 1
    refine ext_flat (by rw [hd', scaledColumns, dims_ofFn, hwd]) fun i hi => ?_
    rw [hd'] at hi
    obtain ⟨hrow, hcol, hi'⟩ := index_eq hi
    rw [scaledColumns, hwd, flat_ofFn hi, ← hi', hflat _ hrow _ hcol, flat_transposed hd hrow hcol,
      Nat.mul_add_mod_self_right, Nat.mod_eq_of_lt hcol]
  · refine ⟨?_, hd⟩
    rw [hl.resolve_right hne, dequantWeight?, hd]
    simp [hs, scaledColumns, hd]

theorem nodeProduct_plugin (hp : isPlugin n = true)
    (h : PluginNode g n activation qweight scales output q s cols rows) (I : Interp) (a : Tensor) :
    nodeProduct I g n a = w8a16Linear? I.env (pluginAttrs n) a q s := by
  have hop : n.opType = "W8A16LinearPlugin" := by simpa [isPlugin] using hp
  rw [nodeProduct, h.inputs]
  simp [applyNode, hop, h.stored, h.storedScales, linearOf]

/-- A plugin node multiplies with its declared weight, its columns scaled. -/
theorem nodeProduct_of_declared (hp : isPlugin n = true)
    (h : PluginNode g n activation qweight scales output q s cols rows)
    (hl : (pluginAttrs n).weightLayout = 0 ∨ (pluginAttrs n).weightLayout = 1)
    (hw : declaredWeight? g n = some w) (I : Interp) (a : Tensor) :
    nodeProduct I g n a = matmul? a (scaledColumns w s cols) := by
  rw [nodeProduct_plugin hp h]
  refine w8a16Linear?_eq_matmul? h.gemmN h.gemmK h.scaleMode h.groupSize (Or.inl h.pos.2) ?_
    h.scales_dims (dequant_of_declared h hl hw).1
  rcases (declaredWeight?_eq_some h).mp hw with ⟨hone, hd, -⟩ | ⟨hne, hd, -⟩
  · rw [if_pos hone, hd]
  · rw [if_neg hne, hd]

end Products

section Keeping
variable {g : Graph} {n : Node} {activation qweight scales output : String} {q s w : Tensor}
  {cols rows : Nat}

/-- What the conversion leaves as it was: a weight that is its own transpose, one of
layout 0 that is transposed, or one of layout 1 that is not. -/
def Kept (g : Graph) (n : Node) : Prop :=
  ∀ x q, n.inputs[1]? = some x → g.initializer? x = some q →
    q.transposed = q ∨ (pluginAttrs n).weightLayout = 0 ∧ ¬ Even (readers g.nodes x) ∨
      (pluginAttrs n).weightLayout = 1 ∧ Even (readers g.nodes x)

theorem PluginOk.dims_length (h : PluginOk g n) :
    ∃ x q, n.inputs[1]? = some x ∧ g.initializer? x = some q ∧ q.dims.length = 2 := by
  obtain ⟨activation, x, scales, output, q, s, cols, rows, h, hd⟩ := h
  refine ⟨x, q, by simp [h.inputs], h.stored, ?_⟩
  rcases hd with ⟨-, hd⟩ | ⟨-, hd⟩ <;> simp [hd]

theorem PluginGraph.storedWeights (hg : PluginGraph g) : StoredWeights g.initializers g.nodes :=
  fun n hn hp => (hg.plugins n hn hp).dims_length

/-- No plugin node has the scales of another as its weight. -/
theorem PluginGraph.readers_scales (hg : PluginGraph g)
    (h : PluginNode g n activation qweight scales output q s cols rows) :
    readers g.nodes scales = 0 := by
  refine List.countP_eq_zero.mpr fun m hm hread => ?_
  obtain ⟨hp, hx⟩ : isPlugin m = true ∧ m.inputs[1]? = some scales := by simpa using hread
  obtain ⟨y, t, hy, ht, hd⟩ := (hg.plugins m hm hp).dims_length
  obtain rfl : scales = y := Option.some.inj (hx.symm.trans hy)
  obtain rfl : s = t := Option.some.inj (h.storedScales.symm.trans ht)
  simp [h.scales_dims] at hd

/-- A plugin node after the conversion; its weight has been transposed by each reader. -/
theorem PluginNode.converted (hg : PluginGraph g) (hp : isPlugin n = true)
    (h : PluginNode g n activation qweight scales output q s cols rows) :
    PluginNode (converted g) (convertedNode n) activation qweight scales output
      (transposed^[readers g.nodes qweight] q) s cols rows where
  inputs := by rw [inputs_convertedNode, h.inputs]
  outputs := by rw [outputs_convertedNode, h.outputs]
  activation_ne := h.activation_ne
  output_ne := h.output_ne
  stored := by rw [initializer?_converted, h.stored, Option.map_some]
  storedScales := by
    rw [initializer?_converted, h.storedScales, hg.readers_scales h]
    rfl
  gemmN := by rw [pluginAttrs_convertedNode hp, h.gemmN]
  gemmK := by rw [pluginAttrs_convertedNode hp, h.gemmK]
  scaleMode := by rw [pluginAttrs_convertedNode hp, h.scaleMode]
  groupSize := by
    rw [pluginAttrs_convertedNode hp]
    exact h.groupSize
  pos := h.pos
  scales_dims := h.scales_dims
  captures := by rw [captures_convertedNode, h.captures]
  inner := by rw [inner_convertedNode, h.inner]

/-- A plugin node of either layout declares a weight. -/
theorem exists_declaredWeight?
    (h : PluginNode g n activation qweight scales output q s cols rows)
    (hd : (pluginAttrs n).weightLayout = 0 ∧ q.dims = [rows, cols] ∨
      (pluginAttrs n).weightLayout = 1 ∧ q.dims = [cols, rows]) :
    declaredWeight? g n = some (if (pluginAttrs n).weightLayout = 1 then q.transposed else q) := by
  rw [declaredWeight?_eq_some h]
  rcases hd with ⟨hl, hd⟩ | ⟨hl, hd⟩
  · exact Or.inr ⟨by simp [hl], hd, by simp [hl]⟩
  · exact Or.inl ⟨hl, hd, by simp [hl]⟩

/-- The declared weight survives the conversion exactly when it is kept. -/
theorem declaredWeight?_converted_iff (hg : PluginGraph g) (hp : isPlugin n = true)
    (hok : PluginOk g n) :
    declaredWeight? (converted g) (convertedNode n) = declaredWeight? g n ↔ Kept g n := by
  obtain ⟨activation, x, scales, output, q, s, cols, rows, h, hd⟩ := hok
  have hx : n.inputs[1]? = some x := by simp [h.inputs]
  have hkept : Kept g n ↔ q.transposed = q ∨
      (pluginAttrs n).weightLayout = 0 ∧ ¬ Even (readers g.nodes x) ∨
      (pluginAttrs n).weightLayout = 1 ∧ Even (readers g.nodes x) := by
    constructor
    · intro hk
      exact hk x q hx h.stored
    · intro hk y t hy ht
      obtain rfl : x = y := Option.some.inj (hx.symm.trans hy)
      obtain rfl : q = t := Option.some.inj (h.stored.symm.trans ht)
      exact hk
  rw [hkept, exists_declaredWeight? h hd, declaredWeight?_eq_some (h.converted hg hp),
    pluginAttrs_convertedNode hp]
  simp only [ne_eq, not_true_eq_false, false_and, or_false, true_and]
  rcases hd with ⟨hl, hd⟩ | ⟨hl, hd⟩
  · rw [iterate_transposed hd, hl]
    by_cases he : Even (readers g.nodes x)
    · simp only [if_pos he, zero_ne_one, if_false]
      constructor
      · rintro ⟨-, heq⟩
        exact Or.inl heq.symm
      · rintro (heq | ⟨-, hne⟩ | ⟨hl', -⟩)
        · exact ⟨by rw [← heq, dims_transposed hd], heq.symm⟩
        · exact absurd he hne
        · exact absurd hl' (by decide)
    · simp only [if_neg he, zero_ne_one, if_false]
      exact iff_of_true ⟨dims_transposed hd, (transposed_transposed hd).symm⟩
        (Or.inr (Or.inl ⟨trivial, he⟩))
  · rw [iterate_transposed hd, hl]
    by_cases he : Even (readers g.nodes x)
    · simp only [if_pos he, if_true]
      exact iff_of_true ⟨hd, trivial⟩ (Or.inr (Or.inr ⟨trivial, he⟩))
    · simp only [if_neg he, if_true, transposed_transposed hd]
      constructor
      · rintro ⟨-, heq⟩
        exact Or.inl heq
      · rintro (heq | ⟨hl', -⟩ | ⟨-, he'⟩)
        · exact ⟨by rw [heq, hd], heq⟩
        · exact absurd hl' (by decide)
        · exact absurd he' he

theorem getElem?_converted (g : Graph) (i : Nat) :
    (converted g).nodes[i]? = g.nodes[i]?.map convertedNode := by
  simp [converted]

/-- The conversion keeps every plugin node exactly when it keeps every weight. -/
theorem conversionKeeps_iff (hg : PluginGraph g) :
    ConversionKeeps g (converted g) ↔ ∀ n ∈ g.nodes, isPlugin n = true → Kept g n := by
  constructor
  · intro h n hn hp
    obtain ⟨i, hi⟩ := List.getElem?_of_mem hn
    obtain ⟨n', hn', hw, -⟩ := h i n hi hp
    rw [getElem?_converted, hi] at hn'
    cases hn'
    exact (declaredWeight?_converted_iff hg hp (hg.plugins n hn hp)).mp hw
  · intro h i n hi hp
    have hn := List.mem_of_getElem? hi
    have hw := (declaredWeight?_converted_iff hg hp (hg.plugins n hn hp)).mpr (h n hn hp)
    refine ⟨convertedNode n, by rw [getElem?_converted, hi, Option.map_some], hw, fun I a => ?_⟩
    obtain ⟨activation, x, scales, output, q, s, cols, rows, hpl, hd⟩ := hg.plugins n hn hp
    have hdecl := exists_declaredWeight? hpl hd
    rw [nodeProduct_of_declared hp hpl (hd.imp And.left And.left) hdecl,
      nodeProduct_of_declared (by simpa using hp) (hpl.converted hg hp)
        (Or.inr (by rw [pluginAttrs_convertedNode hp])) (hw.trans hdecl)]

theorem convertedNode_convertedNode (n : Node) :
    convertedNode (convertedNode n) = convertedNode n := by
  by_cases hp : isPlugin n = true
  · rw [convertedNode, if_pos (by simpa using hp), convertedNode, if_pos hp, setAttr_setAttr]
  · have hp' : isPlugin n = false := by simpa using hp
    rw [convertedNode_of_not_plugin hp', convertedNode_of_not_plugin hp']

theorem storedWeights_converted (hg : PluginGraph g) :
    StoredWeights (converted g).initializers (converted g).nodes := by
  intro m hm hp
  obtain ⟨n, hn, rfl⟩ := List.mem_map.mp hm
  obtain ⟨x, q, hx, hq, hd⟩ := hg.storedWeights n hn (by simpa using hp)
  refine ⟨x, transposed^[readers g.nodes x] q, by simpa using hx, ?_, ?_⟩
  · exact (initializer?_converted x).trans (by rw [Graph.initializer?, hq, Option.map_some])
  · obtain ⟨r, c, hd'⟩ := List.length_eq_two.mp hd
    rw [iterate_transposed hd']
    split
    · exact hd
    · exact length_dims_transposed hd

/-- What a reader of a stored tensor knows of it. -/
theorem PluginGraph.stored_of_reader (hg : PluginGraph g) {p : String × Tensor}
    (hmem : p ∈ g.initializers) (hr : 0 < readers g.nodes p.1) :
    ∃ n ∈ g.nodes, isPlugin n = true ∧ n.inputs[1]? = some p.1 ∧
      g.initializer? p.1 = some p.2 ∧ p.2.dims.length = 2 := by
  obtain ⟨n, hn, hread⟩ := List.countP_pos_iff.mp hr
  obtain ⟨hp, hx⟩ : isPlugin n = true ∧ n.inputs[1]? = some p.1 := by simpa using hread
  obtain ⟨y, t, hy, ht, hd⟩ := hg.storedWeights n hn hp
  obtain rfl : p.1 = y := Option.some.inj (hx.symm.trans hy)
  have hnames : (g.initializers.map Prod.fst).Nodup :=
    (List.nodup_append.mp (List.nodup_append.mp hg.valid.names).1).2.1
  have hstored : g.initializer? p.1 = some p.2 := lookup_of_mem hnames hmem
  obtain rfl : p.2 = t := Option.some.inj (hstored.symm.trans ht)
  exact ⟨n, hn, hp, hx, hstored, hd⟩

/-- Converting twice is converting once exactly when every weight with an odd number
of readers is its own transpose. -/
theorem idempotent_iff (hg : PluginGraph g) :
    transposeLayout? (converted g) = some (converted g) ↔
      ∀ n ∈ g.nodes, isPlugin n = true → ∀ x q, n.inputs[1]? = some x →
        g.initializer? x = some q → ¬ Even (readers g.nodes x) → q.transposed = q := by
  have hnodes : (converted (converted g)).nodes = (converted g).nodes := by
    change (g.nodes.map convertedNode).map convertedNode = g.nodes.map convertedNode
    rw [List.map_map]
    exact List.map_congr_left fun n _ => convertedNode_convertedNode n
  have hinits : (converted (converted g)).initializers = (converted g).initializers ↔
      ∀ p ∈ g.initializers,
        transposed^[readers g.nodes p.1] (transposed^[readers g.nodes p.1] p.2) =
          transposed^[readers g.nodes p.1] p.2 := by
    change convertedInitializers (g.nodes.map convertedNode)
      (convertedInitializers g.nodes g.initializers) =
        convertedInitializers g.nodes g.initializers ↔ _
    rw [convertedInitializers, convertedInitializers, List.map_map, List.map_inj_left]
    simp
  have hgraph : converted (converted g) = converted g ↔
      (converted (converted g)).initializers = (converted g).initializers := by
    constructor
    · intro h
      rw [h]
    · intro h
      change Onnx.Graph.mk _ _ _ _ = Onnx.Graph.mk _ _ _ _
      rw [Onnx.Graph.mk.injEq]
      exact ⟨rfl, h, hnodes, rfl⟩
  rw [transposeLayout?_eq (storedWeights_converted hg), Option.some.injEq, hgraph, hinits]
  constructor
  · intro h n hn hp x q hx hq hodd
    have := h (x, q) (mem_of_lookup hq)
    obtain ⟨y, t, hy, ht, hd⟩ := hg.storedWeights n hn hp
    obtain rfl : x = y := Option.some.inj (hx.symm.trans hy)
    obtain rfl : q = t := Option.some.inj (hq.symm.trans ht)
    obtain ⟨r, c, hd'⟩ := List.length_eq_two.mp hd
    rw [← Function.iterate_add_apply, iterate_transposed hd', iterate_transposed hd',
      if_pos (Even.add_self _), if_neg hodd] at this
    exact this.symm
  · intro h p hp
    rcases Nat.eq_zero_or_pos (readers g.nodes p.1) with hzero | hpos
    · rw [hzero]
      rfl
    · obtain ⟨n, hn, hpl, hx, hstored, hd⟩ := hg.stored_of_reader hp hpos
      obtain ⟨r, c, hd'⟩ := List.length_eq_two.mp hd
      rw [← Function.iterate_add_apply, iterate_transposed hd', iterate_transposed hd',
        if_pos (Even.add_self _)]
      split
      · rfl
      · rename_i hodd
        exact (h n hn hpl p.1 p.2 hx hstored hodd).symm

/-- Both halves of the conversion's promise together. -/
theorem settled_iff (hg : PluginGraph g) :
    ConversionKeeps g (converted g) ∧ transposeLayout? (converted g) = some (converted g) ↔
      ∀ n ∈ g.nodes, isPlugin n = true → Settled g n := by
  rw [conversionKeeps_iff hg, idempotent_iff hg]
  constructor
  · rintro ⟨hkept, hodd⟩ n hn hp x q hx hq
    by_cases he : Even (readers g.nodes x)
    · rcases hkept n hn hp x q hx hq with hsymm | ⟨-, hne⟩ | hone
      · exact Or.inl hsymm
      · exact absurd he hne
      · exact Or.inr hone
    · exact Or.inl (hodd n hn hp x q hx hq he)
  · intro h
    refine ⟨fun n hn hp x q hx hq => ?_, fun n hn hp x q hx hq hodd => ?_⟩
    · rcases h n hn hp x q hx hq with hsymm | hone
      · exact Or.inl hsymm
      · exact Or.inr (Or.inr hone)
    · exact (h n hn hp x q hx hq).resolve_right fun hone => hodd hone.2

end Keeping

section Rollback
variable {g : Graph} {chosen : String → Bool} {n : Node} {x : String}

/-- A node after it was rolled back. -/
def matMulNode (n : Node) : Node where
  name := rollbackBase n ++ "_fp16_matmul"
  opType := "MatMul"
  domain := ""
  inputs := [n.inputs.headD "", fp16WeightName n]
  outputs := [n.outputs.headD ""]
  attributes := []
  captures := []
  inner := []

def rolledNode (chosen : String → Bool) (n : Node) : Node :=
  if isRolled chosen n then matMulNode n else n

/-- The weight a rolled-back node gets. -/
def rolledWeight (xs : List (String × Tensor)) (n : Node) : Tensor :=
  (storedWeight? xs n).getD (ofFn [] fun _ => 0)

/-- The initializers a rollback adds. -/
def addedWeights (chosen : String → Bool) (xs : List (String × Tensor)) (ns : List Node) :
    List (String × Tensor) :=
  (ns.filter (isRolled chosen)).map fun n => (fp16WeightName n, rolledWeight xs n)

def rolled (chosen : String → Bool) (g : Graph) : Graph :=
  { g with
    initializers := g.initializers ++ addedWeights chosen g.initializers g.nodes
    nodes := g.nodes.map (rolledNode chosen) }

/-- What the rollback needs of the nodes it is for. -/
structure Rollable (chosen : String → Bool) (g : Graph) : Prop where
  weights : ∀ n ∈ g.nodes, isRolled chosen n = true →
    ∃ w, storedWeight? g.initializers n = some w
  operands : ∀ n ∈ g.nodes, isRolled chosen n = true → ∃ a q s y, n.inputs = [a, q, s] ∧
    n.outputs = [y] ∧ a ≠ "" ∧ y ≠ "" ∧ n.captures = [] ∧ n.inner = []

theorem rollbackLoop?_eq {xs : List (String × Tensor)} {ns : List Node}
    (hw : ∀ n ∈ ns, isRolled chosen n = true → ∃ w, storedWeight? xs n = some w)
    (ho : ∀ n ∈ ns, isRolled chosen n = true → ∃ a q s y, n.inputs = [a, q, s] ∧
      n.outputs = [y] ∧ a ≠ "" ∧ y ≠ "" ∧ n.captures = [] ∧ n.inner = []) :
    rollbackLoop? chosen xs ns =
      some (addedWeights chosen xs ns, ns.map (rolledNode chosen)) := by
  induction ns with
  | nil => rfl
  | cons n ns ih =>
      have ih' := ih (fun m hm => hw m (List.mem_cons_of_mem n hm))
        fun m hm => ho m (List.mem_cons_of_mem n hm)
      rw [rollbackLoop?, List.map_cons, rolledNode, addedWeights, ih']
      by_cases hr : isRolled chosen n = true
      · obtain ⟨w, hweight⟩ := hw n List.mem_cons_self hr
        obtain ⟨a, q, s, y, hin, hout, -⟩ := ho n List.mem_cons_self hr
        rw [if_pos hr, if_pos hr, List.filter_cons_of_pos hr, hweight, matMulNode, hin, hout]
        simp [rolledWeight, hweight, addedWeights]
      · rw [if_neg hr, if_neg hr, List.filter_cons_of_neg hr]
        rfl

theorem rollback?_eq (h : Rollable chosen g) (checkModel : Graph → Bool) :
    rollback? checkModel chosen g =
      if checkModel (rolled chosen g) then some (rolled chosen g) else none := by
  rw [rollback?, rollbackLoop?_eq h.weights h.operands]
  rfl

theorem fp16WeightName_ne (n : Node) : fp16WeightName n ≠ "" := by
  intro h
  have := congrArg String.length h
  simp [fp16WeightName] at this

theorem binds_rolledNode (h : Rollable chosen g) (hn : n ∈ g.nodes) :
    shape.binds (rolledNode chosen n) = shape.binds n := by
  rw [rolledNode]
  split
  · rename_i hr
    obtain ⟨a, q, s, y, -, hout, -⟩ := h.operands n hn hr
    simp [shape, matMulNode, hout]
  · rfl

theorem known_rolled (chosen : String → Bool) (g : Graph) :
    (rolled chosen g).known = g.known ++ (rolledNodes chosen g).map fp16WeightName := by
  simp [rolled, Graph.known, Graph.initializerNames, addedWeights, rolledNodes,
    List.append_assoc, Function.comp_def]

theorem bound_rolled (h : Rollable chosen g) :
    shape.bound (rolled chosen g).nodes = shape.bound g.nodes :=
  Shape.bound_map fun _ hn => binds_rolledNode h hn

/-- The weights' names are different exactly when what they are made from is. -/
theorem nodup_weightNames (ns : List Node) :
    (ns.map fp16WeightName).Nodup ↔ (ns.map rollbackBase).Nodup := by
  have hinj : Function.Injective fun base : String => base ++ "_fp16_weight" :=
    fun _ _ h => String.append_left_inj _ |>.mp h
  have hmap : ns.map fp16WeightName = (ns.map rollbackBase).map (· ++ "_fp16_weight") := by
    rw [List.map_map]
    rfl
  rw [hmap, List.nodup_map_iff hinj]

/-- Names put between two lists of different names. -/
theorem nodup_between {a b c : List String} (h : (a ++ c).Nodup) :
    (a ++ b ++ c).Nodup ↔ b.Nodup ∧ ∀ x ∈ b, x ∉ a ++ c := by
  rw [List.nodup_append] at h
  simp only [List.nodup_append, List.mem_append, not_or]
  grind

theorem mem_rolledNodes : n ∈ rolledNodes chosen g ↔ n ∈ g.nodes ∧ isRolled chosen n = true :=
  List.mem_filter

theorem hides_rolledNode (h : Rollable chosen g) (hn : n ∈ g.nodes) :
    shape.hides (rolledNode chosen n) = n.inner := by
  rw [rolledNode]
  split
  · rename_i hr
    obtain ⟨a, q, s, y, -, -, -, -, -, hinner⟩ := h.operands n hn hr
    rw [hinner]
    rfl
  · rfl

/-- The names known in the rolled-back graph: those known before and the new weights. -/
theorem mem_known_rolled {known : List String} :
    x ∈ (rolled chosen g).known ++ known ↔
      x ∈ g.known ++ known ∨ ∃ n ∈ rolledNodes chosen g, fp16WeightName n = x := by
  rw [known_rolled]
  simp only [List.mem_append, List.mem_map]
  exact or_right_comm

theorem inScope_rolled (hv : g.Valid) (h : Rollable chosen g) :
    shape.Scoped (rolled chosen g).known (rolled chosen g).nodes := by
  change shape.Scoped _ (g.nodes.map (rolledNode chosen))
  rw [Shape.Scoped, Shape.atEach_map fun _ hn => binds_rolledNode h hn, Shape.atEach_iff]
  intro before n behind hnodes x hx
  have hn : n ∈ g.nodes := by simp [hnodes]
  have hscope := Shape.atEach_iff.mp hv.inScope before n behind hnodes
  rw [mem_known_rolled]
  by_cases hr : isRolled chosen n = true
  · obtain ⟨a, q, s, y, hin, -, -⟩ := h.operands n hn hr
    rw [rolledNode, if_pos hr, mem_reads] at hx
    rcases hx with ⟨hx, hne⟩ | hx
    · rw [matMulNode, hin] at hx
      rcases List.mem_cons.mp hx with rfl | hx
      · exact Or.inl (hscope _ (mem_reads.mpr (Or.inl ⟨by simp [hin], hne⟩)))
      · exact Or.inr ⟨n, mem_rolledNodes.mpr ⟨hn, hr⟩, (List.mem_singleton.mp hx).symm⟩
    · cases hx
  · rw [rolledNode, if_neg hr] at hx
    exact Or.inl (hscope x hx)

theorem unshadowed_rolled_iff (hv : g.Valid) (h : Rollable chosen g) :
    shape.Unshadowed (rolled chosen g).known (rolled chosen g).nodes ↔
      ∀ n ∈ rolledNodes chosen g, ∀ m ∈ g.nodes, fp16WeightName n ∉ m.inner := by
  change shape.Unshadowed _ (g.nodes.map (rolledNode chosen)) ↔ _
  rw [Shape.Unshadowed, Shape.atEach_map fun _ hn => binds_rolledNode h hn, Shape.atEach_iff]
  constructor
  · intro hu n hn m hm hmem
    obtain ⟨before, behind, hnodes⟩ := List.append_of_mem hm
    refine hu before m behind hnodes _ ?_ (mem_known_rolled.mpr (Or.inr ⟨n, hn, rfl⟩))
    rwa [hides_rolledNode h hm]
  · intro hfresh before m behind hnodes x hx hmem
    have hm : m ∈ g.nodes := by simp [hnodes]
    rw [hides_rolledNode h hm] at hx
    rcases mem_known_rolled.mp hmem with hold | ⟨n, hn, rfl⟩
    · exact Shape.atEach_iff.mp hv.unshadowed before m behind hnodes x hx hold
    · exact hfresh n hn m hm hx

/-- A rollback gives a valid graph exactly when the names it makes up are new. -/
theorem valid_rolled_iff (hv : g.Valid) (h : Rollable chosen g) :
    (rolled chosen g).Valid ↔ FreshWeights chosen g := by
  have hnames : ((rolled chosen g).known ++ shape.bound (rolled chosen g).nodes).Nodup ↔
      ((rolledNodes chosen g).map rollbackBase).Nodup ∧
        ∀ n ∈ rolledNodes chosen g, fp16WeightName n ∉ g.known ++ shape.bound g.nodes := by
    rw [known_rolled, bound_rolled h, nodup_between hv.names, nodup_weightNames,
      List.forall_mem_map]
  constructor
  · intro hr
    obtain ⟨hdistinct, hunused⟩ := hnames.mp hr.names
    exact ⟨hdistinct, hunused, (unshadowed_rolled_iff hv h).mp hr.unshadowed⟩
  · intro hfresh
    refine ⟨hnames.mpr ⟨hfresh.distinct, hfresh.unused⟩, ?_, inScope_rolled hv h,
      (unshadowed_rolled_iff hv h).mpr hfresh.unshadowed, ?_, ?_⟩
    · rw [known_rolled, List.mem_append, not_or]
      refine ⟨hv.named, fun hmem => ?_⟩
      obtain ⟨n, -, hn⟩ := List.mem_map.mp hmem
      exact fp16WeightName_ne n hn
    · intro x hx
      rw [bound_rolled h]
      exact mem_known_rolled.mpr (Or.inl (hv.outputs x hx))
    · intro m hm hop
      obtain ⟨n, hn, rfl⟩ := List.mem_map.mp hm
      by_cases hr : isRolled chosen n = true
      · obtain ⟨a, q, s, y, hin, hout, ha, hy, -⟩ := h.operands n hn hr
        rw [rolledNode, if_pos hr]
        exact ⟨y, by simp [matMulNode, hout], hy, fun _ => ⟨a, fp16WeightName n,
          by simp [matMulNode, hin], ha, fp16WeightName_ne n, rfl, rfl⟩⟩
      · rw [rolledNode, if_neg hr] at hop ⊢
        exact hv.matMul n hn hop

/-- A rolled-back node multiplies with the weight it was given. -/
theorem nodeProduct_matMulNode {w : Tensor} {h : Graph}
    (hw : h.initializer? (fp16WeightName n) = some w) (hd : w.dims.length = 2) (I : Interp)
    (t : Tensor) :
    nodeProduct I h (matMulNode n) t = matmul? t w := by
  simp [nodeProduct, matMulNode, applyNode, Node.isStandard, hw, hd]

/-- The weight a rolled-back node finds under its name. -/
theorem initializer?_rolled (hr : (rolled chosen g).Valid) (hn : n ∈ rolledNodes chosen g) :
    (rolled chosen g).initializer? (fp16WeightName n) = some (rolledWeight g.initializers n) := by
  refine lookup_of_mem (List.nodup_append.mp (List.nodup_append.mp hr.names).1).2.1 ?_
  exact List.mem_append_right _ (List.mem_map.mpr ⟨n, hn, rfl⟩)

/-- The stored weight of a plugin node is its declared one with scaled columns. -/
theorem storedWeight?_eq {activation qweight scales output : String} {q s w : Tensor}
    {cols rows : Nat} (h : PluginNode g n activation qweight scales output q s cols rows)
    (hl : (pluginAttrs n).weightLayout = 0 ∨ (pluginAttrs n).weightLayout = 1)
    (hw : declaredWeight? g n = some w) :
    storedWeight? g.initializers n = some (scaledColumns w s cols) := by
  have hq : g.initializers.lookup qweight = some q := h.stored
  have hs : g.initializers.lookup scales = some s := h.storedScales
  rw [← (dequant_of_declared h hl hw).1]
  simp [storedWeight?, h.inputs, hq, hs, pluginAttrs]

/-- A graph whose plugin nodes all declare a weight can be rolled back. -/
theorem PluginGraph.rollable (hg : PluginGraph g) (chosen : String → Bool) :
    Rollable chosen g where
  weights n hn hr := by
    have hp : isPlugin n = true := (Bool.and_eq_true_iff.mp hr).1
    obtain ⟨activation, x, scales, output, q, s, cols, rows, h, hd⟩ := hg.plugins n hn hp
    exact ⟨_, storedWeight?_eq h (hd.imp And.left And.left) (exists_declaredWeight? h hd)⟩
  operands n hn hr := by
    have hp : isPlugin n = true := (Bool.and_eq_true_iff.mp hr).1
    obtain ⟨activation, x, scales, output, q, s, cols, rows, h, -⟩ := hg.plugins n hn hp
    exact ⟨activation, x, scales, output, h.inputs, h.outputs, h.activation_ne, h.output_ne,
      h.captures, h.inner⟩

theorem getElem?_rolled (i : Nat) :
    (rolled chosen g).nodes[i]? = g.nodes[i]?.map (rolledNode chosen) := by
  simp [rolled]

/-- Rolled-back nodes compute what the plugin computed. -/
theorem rollbackKeeps_rolled (hg : PluginGraph g) (hr : (rolled chosen g).Valid) :
    RollbackKeeps chosen g (rolled chosen g) := by
  intro i n hi hrn
  have hn := List.mem_of_getElem? hi
  have hp : isPlugin n = true := (Bool.and_eq_true_iff.mp hrn).1
  obtain ⟨activation, x, scales, output, q, s, cols, rows, h, hd⟩ := hg.plugins n hn hp
  have hl := hd.imp And.left And.left
  have hw := exists_declaredWeight? h hd
  have hstored := storedWeight?_eq h hl hw
  refine ⟨matMulNode n, ?_, rfl, fun I a => ?_⟩
  · rw [getElem?_rolled, hi, Option.map_some, rolledNode, if_pos hrn]
  · have hinit := initializer?_rolled hr (mem_rolledNodes.mpr ⟨hn, hrn⟩)
    rw [rolledWeight, hstored, Option.getD_some] at hinit
    rw [nodeProduct_matMulNode hinit, nodeProduct_of_declared hp h hl hw]
    rw [scaledColumns, dims_ofFn, (dequant_of_declared h hl hw).2]
    rfl

end Rollback

section Orders
variable {g : Graph} {chosen : String → Bool} {n : Node}

@[simp] theorem nodeLabel_convertedNode (n : Node) : nodeLabel (convertedNode n) = nodeLabel n := by
  simp [nodeLabel]

@[simp] theorem rollbackBase_convertedNode (n : Node) :
    rollbackBase (convertedNode n) = rollbackBase n := by
  simp [rollbackBase]

@[simp] theorem fp16WeightName_convertedNode (n : Node) :
    fp16WeightName (convertedNode n) = fp16WeightName n := by
  simp [fp16WeightName]

@[simp] theorem isRolled_convertedNode (chosen : String → Bool) (n : Node) :
    isRolled chosen (convertedNode n) = isRolled chosen n := by
  simp [isRolled]

theorem known_converted (g : Graph) : (converted g).known = g.known := by
  simp [Graph.known, Graph.initializerNames, converted, convertedInitializers, Function.comp_def]

theorem bound_converted (g : Graph) :
    shape.bound (converted g).nodes = shape.bound g.nodes :=
  Shape.bound_map fun n _ => by simp [shape]

/-- The conversion leaves names and operands alone. -/
theorem valid_converted (hv : g.Valid) : (converted g).Valid := by
  have hb : ∀ n ∈ g.nodes, shape.binds (convertedNode n) = shape.binds n :=
    fun n _ => by simp [shape]
  refine ⟨?_, ?_, ?_, ?_, ?_, ?_⟩
  · rw [known_converted, bound_converted]
    exact hv.names
  · rw [known_converted]
    exact hv.named
  · rw [known_converted]
    refine (Shape.atEach_map hb).mpr (Shape.atEach_iff.mpr fun before n behind hnodes => ?_)
    simpa [shape] using Shape.atEach_iff.mp hv.inScope before n behind hnodes
  · rw [known_converted]
    refine (Shape.atEach_map hb).mpr (Shape.atEach_iff.mpr fun before n behind hnodes => ?_)
    simpa [shape] using Shape.atEach_iff.mp hv.unshadowed before n behind hnodes
  · rw [known_converted, bound_converted]
    exact hv.outputs
  · intro m hm hop
    obtain ⟨n, hn, rfl⟩ := List.mem_map.mp hm
    have hp : isPlugin n = false := by
      rw [← isPlugin_convertedNode, isPlugin, hop]
      decide
    rw [convertedNode_of_not_plugin hp] at hop ⊢
    exact hv.matMul n hn hop

theorem rolledNodes_converted (chosen : String → Bool) (g : Graph) :
    rolledNodes chosen (converted g) = (rolledNodes chosen g).map convertedNode := by
  rw [rolledNodes, rolledNodes]
  change (g.nodes.map convertedNode).filter _ = _
  rw [List.filter_map]
  congr 1
  exact List.filter_congr fun n _ => isRolled_convertedNode chosen n

/-- The names a rollback makes up do not depend on the conversion. -/
theorem freshWeights_converted (h : FreshWeights chosen g) :
    FreshWeights chosen (converted g) := by
  refine ⟨?_, ?_, ?_⟩
  · rw [rolledNodes_converted, List.map_map]
    simpa [Function.comp_def] using h.distinct
  · rw [rolledNodes_converted, known_converted, bound_converted]
    simpa using h.unused
  · rw [rolledNodes_converted]
    change ∀ n ∈ _, ∀ m ∈ g.nodes.map convertedNode, _
    simpa using h.unshadowed

/-- The weight stored for a plugin node, dequantised, is the same after a conversion
that keeps what the node declares. -/
theorem storedWeight?_converted (hg : PluginGraph g) (hn : n ∈ g.nodes)
    (hp : isPlugin n = true) (hkept : Kept g n) :
    ∃ w, w.dims.length = 2 ∧ storedWeight? g.initializers n = some w ∧
      storedWeight? (converted g).initializers (convertedNode n) = some w ∧
      ∀ I a, nodeProduct I g n a = matmul? a w := by
  have hsame := (declaredWeight?_converted_iff hg hp (hg.plugins n hn hp)).mpr hkept
  obtain ⟨activation, x, scales, output, q, s, cols, rows, h, hd⟩ := hg.plugins n hn hp
  have hl := hd.imp And.left And.left
  have hw := exists_declaredWeight? h hd
  refine ⟨_, ?_, storedWeight?_eq h hl hw, ?_, nodeProduct_of_declared hp h hl hw⟩
  · rw [scaledColumns, dims_ofFn, (dequant_of_declared h hl hw).2]
    rfl
  · exact storedWeight?_eq (h.converted hg hp) (Or.inr (by rw [pluginAttrs_convertedNode hp]))
      (hsame.trans hw)

theorem rollable_converted (hg : PluginGraph g)
    (hkept : ∀ n ∈ g.nodes, isPlugin n = true → Kept g n) (chosen : String → Bool) :
    Rollable chosen (converted g) where
  weights m hm hr := by
    obtain ⟨n, hn, rfl⟩ := List.mem_map.mp hm
    have hp : isPlugin n = true := by simpa using (Bool.and_eq_true_iff.mp hr).1
    obtain ⟨w, -, -, hw, -⟩ := storedWeight?_converted hg hn hp (hkept n hn hp)
    exact ⟨w, hw⟩
  operands m hm hr := by
    obtain ⟨n, hn, rfl⟩ := List.mem_map.mp hm
    obtain ⟨a, q, s, y, hin, hout, hrest⟩ :=
      (hg.rollable chosen).operands n hn (by simpa using hr)
    exact ⟨a, q, s, y, by simpa using hin, by simpa using hout, by simpa using hrest⟩

/-- Rolling back after a conversion that keeps every weight. -/
theorem rollbackKeeps_last (hg : PluginGraph g)
    (hkept : ∀ n ∈ g.nodes, isPlugin n = true → Kept g n)
    (hr : (rolled chosen (converted g)).Valid) :
    RollbackKeeps chosen g (rolled chosen (converted g)) := by
  intro i n hi hrn
  have hn := List.mem_of_getElem? hi
  have hp : isPlugin n = true := (Bool.and_eq_true_iff.mp hrn).1
  obtain ⟨w, hd, -, hw, hprod⟩ := storedWeight?_converted hg hn hp (hkept n hn hp)
  have hrn' : isRolled chosen (convertedNode n) = true := by simpa using hrn
  have hn' : convertedNode n ∈ rolledNodes chosen (converted g) :=
    mem_rolledNodes.mpr ⟨List.mem_map_of_mem hn, hrn'⟩
  refine ⟨matMulNode (convertedNode n), ?_, rfl, fun I a => ?_⟩
  · rw [getElem?_rolled, getElem?_converted, hi, Option.map_some, Option.map_some, rolledNode,
      if_pos hrn']
  · have hinit := initializer?_rolled hr hn'
    rw [rolledWeight, hw, Option.getD_some] at hinit
    rw [nodeProduct_matMulNode hinit hd, hprod]

/-- The plugin nodes a rollback leaves still have stored weights. -/
theorem storedWeights_rolled (hg : PluginGraph g) (chosen : String → Bool) :
    StoredWeights (rolled chosen g).initializers (rolled chosen g).nodes := by
  intro m hm hp
  obtain ⟨n, hn, rfl⟩ := List.mem_map.mp hm
  by_cases hr : isRolled chosen n = true
  · rw [rolledNode, if_pos hr] at hp
    exact absurd hp (by simp [isPlugin, matMulNode])
  · rw [rolledNode, if_neg hr] at hp ⊢
    obtain ⟨x, q, hx, hq, hd⟩ := hg.storedWeights n hn hp
    refine ⟨x, q, hx, ?_, hd⟩
    change (g.initializers ++ _).lookup x = some q
    rw [List.lookup_append, hq]
    rfl

/-- No plugin node left by a rollback has a rolled-back weight as its own. -/
theorem readers_fp16WeightName (hg : PluginGraph g) (hfresh : FreshWeights chosen g)
    (hn : n ∈ rolledNodes chosen g) :
    readers (rolled chosen g).nodes (fp16WeightName n) = 0 := by
  refine List.countP_eq_zero.mpr fun m hm hread => ?_
  obtain ⟨hp, hx⟩ : isPlugin m = true ∧ m.inputs[1]? = some (fp16WeightName n) := by
    simpa using hread
  obtain ⟨k, hk, rfl⟩ := List.mem_map.mp hm
  by_cases hr : isRolled chosen k = true
  · rw [rolledNode, if_pos hr] at hp
    exact absurd hp (by simp [isPlugin, matMulNode])
  · rw [rolledNode, if_neg hr] at hp hx
    obtain ⟨x, q, hx', hq, -⟩ := hg.storedWeights k hk hp
    obtain rfl : fp16WeightName n = x := Option.some.inj (hx.symm.trans hx')
    refine hfresh.unused n hn (List.mem_append_left _ (List.mem_append_right _ ?_))
    exact Graph.mem_initializerNames.mpr ⟨q, hq⟩

/-- Converting after a rollback leaves the rolled-back nodes alone. -/
theorem rollbackKeeps_first (hg : PluginGraph g) (hr : (rolled chosen g).Valid)
    (hfresh : FreshWeights chosen g) :
    RollbackKeeps chosen g (converted (rolled chosen g)) := by
  intro i n hi hrn
  have hmem := mem_rolledNodes.mpr ⟨List.mem_of_getElem? hi, hrn⟩
  obtain ⟨m, hm, -, hprod⟩ := rollbackKeeps_rolled hg hr i n hi hrn
  rw [getElem?_rolled, hi, Option.map_some, rolledNode, if_pos hrn] at hm
  cases hm
  refine ⟨matMulNode n, ?_, rfl, fun I a => ?_⟩
  · rw [getElem?_converted, getElem?_rolled, hi, Option.map_some, Option.map_some, rolledNode,
      if_pos hrn, convertedNode_of_not_plugin (by simp [isPlugin, matMulNode])]
  · have hinit : (converted (rolled chosen g)).initializer? (fp16WeightName n) =
        (rolled chosen g).initializer? (fp16WeightName n) := by
      rw [initializer?_converted, readers_fp16WeightName hg hfresh hmem]
      simp
    have hsame : nodeProduct I (converted (rolled chosen g)) (matMulNode n) a =
        nodeProduct I (rolled chosen g) (matMulNode n) a := by
      simp only [nodeProduct, matMulNode, List.map_cons, List.map_nil, hinit]
    rw [hsame, hprod]

end Orders

section Results
variable {checkModel : Graph → Bool} {chosen : String → Bool} {g : Graph}

/-- Conversion and rollback agree with the kernels and with each other exactly when
every weight is its own transpose or read an even number of times in layout 1 only,
and the names of the rolled-back weights are new. -/
theorem layout_agrees_iff (hcheck : ∀ m : Graph, m.Valid → checkModel m = true)
    (hg : PluginGraph g) :
    LayoutAgrees checkModel chosen g ↔
      (∀ n ∈ g.nodes, isPlugin n = true → Settled g n) ∧ FreshWeights chosen g := by
  have hconv := transposeLayout?_eq hg.storedWeights
  have hroll := rollback?_eq (hg.rollable chosen) checkModel
  rw [← settled_iff hg, ← valid_rolled_iff hg.valid (hg.rollable chosen)]
  constructor
  · intro h
    obtain ⟨g', hg', hkeeps⟩ := h.keeps
    obtain ⟨g'', hg'', hidem⟩ := h.idempotent
    obtain ⟨r, hr, hvalid, -⟩ := h.rollback
    cases hconv.symm.trans hg'
    cases hconv.symm.trans hg''
    rw [hroll] at hr
    split at hr
    · cases hr
      exact ⟨⟨hkeeps, hidem⟩, hvalid⟩
    · cases hr
  · rintro ⟨⟨hkeeps, hidem⟩, hvalid⟩
    have hkept := (conversionKeeps_iff hg).mp hkeeps
    have hfresh := (valid_rolled_iff hg.valid (hg.rollable chosen)).mp hvalid
    have hrollable := rollable_converted hg hkept chosen
    have hvalid' := (valid_rolled_iff (valid_converted hg.valid) hrollable).mpr
      (freshWeights_converted hfresh)
    rw [if_pos (hcheck _ hvalid)] at hroll
    have hroll' := rollback?_eq hrollable checkModel
    rw [if_pos (hcheck _ hvalid')] at hroll'
    exact {
      keeps := ⟨_, hconv, hkeeps⟩
      idempotent := ⟨_, hconv, hidem⟩
      rollback := ⟨_, hroll, hvalid, rollbackKeeps_rolled hg hvalid⟩
      rollbackLast := ⟨_, _, hconv, hroll', hvalid', rollbackKeeps_last hg hkept hvalid'⟩
      rollbackFirst := ⟨_, _, hroll, transposeLayout?_eq (storedWeights_rolled hg chosen),
        rollbackKeeps_first hg hvalid hfresh⟩ }

/-- A two by two matrix. -/
def square (a b c d : ℚ) : Tensor := ⟨[2, 2], [a, b, c, d], rfl⟩

/-- One plugin node of layout 1 on a square weight. -/
def linearNode : Node where
  name := "linear"
  opType := "W8A16LinearPlugin"
  domain := "trt"
  inputs := ["x", "w", "s"]
  outputs := ["y"]
  attributes := [("gemm_n", .int 2), ("gemm_k", .int 2), ("scale_mode", .int 0),
    ("group_size", .int 0), ("weight_layout", .int 1)]
  captures := []
  inner := []

def linearGraph (w : Tensor) : Graph where
  inputs := ["x"]
  initializers := [("w", w), ("s", ⟨[2], [1, 1], rfl⟩)]
  nodes := [linearNode]
  outputs := ["y"]

theorem pluginGraph_linearGraph (a b c d : ℚ) : PluginGraph (linearGraph (square a b c d)) where
  valid := {
    names := by simp [linearGraph, Graph.known, Graph.initializerNames, shape, linearNode]
    named := by simp [linearGraph, Graph.known, Graph.initializerNames]
    inScope := by
      simp [linearGraph, Graph.known, Graph.initializerNames, shape, linearNode, Shape.Scoped,
        Shape.AtEach]
    unshadowed := by
      simp [linearGraph, shape, linearNode, Shape.Unshadowed, Shape.AtEach]
    outputs := by simp [linearGraph, shape, linearNode]
    matMul := by simp [linearGraph, linearNode] }
  plugins := by
    intro n hn _
    obtain rfl : n = linearNode := by simpa [linearGraph] using hn
    refine ⟨"x", "w", "s", "y", square a b c d, ⟨[2], [1, 1], rfl⟩, 2, 2, ?_, Or.inr ⟨?_, rfl⟩⟩
    · exact {
        inputs := rfl
        outputs := rfl
        activation_ne := by simp
        output_ne := by simp
        stored := by simp [linearGraph, Graph.initializer?]
        storedScales := by simp [linearGraph, Graph.initializer?, List.lookup_cons]
        gemmN := by simp [pluginAttrs, Node.attrInt, linearNode]
        gemmK := by simp [pluginAttrs, Node.attrInt, linearNode, List.lookup_cons]
        scaleMode := by simp [pluginAttrs, Node.attrInt, linearNode, List.lookup_cons]
        groupSize := by simp [pluginAttrs, Node.attrInt, linearNode, List.lookup_cons]
        pos := by decide
        scales_dims := rfl
        captures := rfl
        inner := rfl }
    · simp [pluginAttrs, Node.attrInt, linearNode, List.lookup_cons]

theorem readers_linearGraph (w : Tensor) : readers (linearGraph w).nodes "w" = 1 := by
  simp [readers, linearGraph, linearNode, isPlugin]

/-- A weight that is its own transpose, and nothing rolled back. -/
theorem layout_agrees_iff_symmetric :
    LayoutAgrees (fun _ => true) (fun _ => false) (linearGraph (square 1 2 2 3)) := by
  refine (layout_agrees_iff (fun _ _ => rfl) (pluginGraph_linearGraph 1 2 2 3)).mpr ⟨?_, ?_⟩
  · intro n hn _ x q hx hq
    obtain rfl : n = linearNode := by simpa [linearGraph] using hn
    obtain rfl : "w" = x := by simpa [linearNode] using hx
    obtain rfl : square 1 2 2 3 = q := by simpa [linearGraph, Graph.initializer?] using hq
    exact Or.inl (by decide)
  · have hnone : rolledNodes (fun _ => false) (linearGraph (square 1 2 2 3)) = [] := by
      simp [rolledNodes, linearGraph, isRolled]
    exact ⟨by simp [hnone], by simp [hnone], by simp [hnone]⟩

/-- Converting a node that has layout 1 already transposes its weight back: with a
square weight it computes something else, and no shape tells. -/
theorem second_conversion_transposes :
    ¬ LayoutAgrees (fun _ => true) (fun _ => false) (linearGraph (square 1 2 3 4)) := by
  intro h
  obtain ⟨g', hg', hkeeps⟩ := h.keeps
  have hg := pluginGraph_linearGraph 1 2 3 4
  cases (transposeLayout?_eq hg.storedWeights).symm.trans hg'
  have hkept := (conversionKeeps_iff hg).mp hkeeps linearNode (by simp [linearGraph])
    (by simp [isPlugin, linearNode]) "w" (square 1 2 3 4) (by simp [linearNode])
    (by simp [linearGraph, Graph.initializer?])
  rw [readers_linearGraph] at hkept
  rcases hkept with hsymm | ⟨hzero, -⟩ | ⟨-, heven⟩
  · exact absurd hsymm (by decide)
  · exact absurd hzero (by simp [pluginAttrs, Node.attrInt, linearNode, List.lookup_cons])
  · exact absurd heven (by decide)

end Results

end JetsonVoice.W8A16
