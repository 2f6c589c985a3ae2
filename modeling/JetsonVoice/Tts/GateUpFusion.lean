import JetsonVoice.Onnx.Replacing
import Mathlib.Data.List.Sort

/-!
# Fusing the gate and up projections of the code predictor

Two products of one activation with stored matrices of one shape become a product with
both matrices side by side and two slices of it. The fused product stands where the
gate projection stood; the up projection goes.

## Implementation notes

A product that misses an operand or its output raises in the source and is left alone
here. Initializers are looked up by their first entry, which is the only one in a valid
model.
-/

namespace JetsonVoice.Tts.GateUp

open Onnx Onnx.Tensor Foundation.SingleAssignment Foundation.DerivedNames

section Tensors

/-- `np.concatenate` of two matrices along the columns. -/
def concatColumns (k n m : Nat) (t u : Tensor) : Tensor :=
  ofFn [k, n + m] fun i =>
    let row := i / (n + m)
    let col := i % (n + m)
    if col < n then t.flat (row * n + col) else u.flat (row * m + (col - n))

/-- An end of a slice of an axis: negative ones count from behind, and all are cut off at
the ends of the axis. -/
def sliceEnd (d : Nat) (i : Int) : Nat := (min (max (if i < 0 then i + d else i) 0) d).toNat

/-- `Slice` along the last axis. -/
def sliceLast? (t : Tensor) (first stop : Int) : Option Tensor :=
  t.dims.getLast?.map fun d =>
    let width := sliceEnd d stop - sliceEnd d first
    ofFn (t.dims.dropLast ++ [width]) fun i =>
      t.flat (i / width * d + (sliceEnd d first + i % width))

variable {t u : Tensor} {k n m i j : Nat}

theorem flat_concatColumns_left (hi : i < k) (hj : j < n) :
    (concatColumns k n m t u).flat (i * (n + m) + j) = t.flat (i * n + j) := by
  have hcol : j < n + m := by omega
  rw [concatColumns, flat_ofFn (index_lt hi hcol)]
  simp only [Nat.mul_add_mod_self_right, Nat.mod_eq_of_lt hcol, if_pos hj]
  rw [Nat.mul_comm i, Nat.mul_add_div (by omega), Nat.div_eq_of_lt hcol, Nat.add_zero]

theorem flat_concatColumns_right (hi : i < k) (hj : j < m) :
    (concatColumns k n m t u).flat (i * (n + m) + (n + j)) = u.flat (i * m + j) := by
  have hcol : n + j < n + m := by omega
  rw [concatColumns, flat_ofFn (index_lt hi hcol)]
  simp only [Nat.mul_add_mod_self_right, Nat.mod_eq_of_lt hcol, if_neg (by omega : ¬ n + j < n)]
  rw [Nat.mul_comm i, Nat.mul_add_div (by omega), Nat.div_eq_of_lt hcol, Nat.add_zero,
    Nat.add_sub_cancel_left]

theorem sliceEnd_natCast (h : i ≤ n) : sliceEnd n (i : Int) = i := by
  rw [sliceEnd, if_neg (by omega)]
  omega

/-- Columns of a product that are the product with a matrix of its own. -/
theorem slice_matmul? {w : Tensor} (lo : Nat) (hlo : lo + m ≤ n) (hd : t.dims = [k, n])
    (hw : w.dims = [k, m])
    (hflat : ∀ i < k, ∀ j < m, t.flat (i * n + (lo + j)) = w.flat (i * m + j)) (a : Tensor) :
    (matmul? a t).bind (sliceLast? · lo (lo + m : Nat)) = matmul? a w := by
  rw [matmul?_eq hd, matmul?_eq hw]
  by_cases hlast : a.dims.getLast? = some k
  · rw [if_pos hlast, if_pos hlast, Option.bind_some, sliceLast?]
    simp only [dims_ofFn, List.getLast?_concat, Option.map_some, List.dropLast_concat,
      sliceEnd_natCast hlo, sliceEnd_natCast (Nat.le_of_add_right_le hlo), Nat.add_sub_cancel_left]
    congr 1
    refine ofFn_congr fun i hi => ?_
    rw [List.prod_append, List.prod_singleton] at hi
    have hm : 0 < m := Nat.pos_of_ne_zero fun h => by simp [h] at hi
    have hrow : i / m < a.dims.dropLast.prod := (Nat.div_lt_iff_lt_mul hm).mpr hi
    have hmod : i % m < m := Nat.mod_lt i hm
    have hcol : lo + i % m < n := by omega
    have hindex : i / m * n + (lo + i % m) < (a.dims.dropLast ++ [n]).prod := by
      rw [List.prod_append]
      have := index_lt hrow hcol
      simpa using this
    rw [flat_ofFn hindex, Nat.mul_comm (i / m) n, Nat.mul_add_div (by omega),
      Nat.div_eq_of_lt hcol, Nat.add_zero, Nat.mul_add_mod, Nat.mod_eq_of_lt hcol]
    exact Finset.sum_congr rfl fun kk hkk => by rw [hflat kk (Finset.mem_range.mp hkk) _ hmod]
  · rw [if_neg hlast, if_neg hlast, Option.bind_none]

/-- The first columns of the product with both matrices are the product with the first. -/
theorem slice_concat_left (ht : t.dims = [k, n]) (a : Tensor) :
    (matmul? a (concatColumns k n n t u)).bind (sliceLast? · 0 n) = matmul? a t := by
  have h := slice_matmul? (t := concatColumns k n n t u) (w := t) (m := n) 0
    (by omega) rfl ht (fun i hi j hj => by rw [Nat.zero_add, flat_concatColumns_left hi hj]) a
  simpa using h

/-- The last columns of the product with both matrices are the product with the second. -/
theorem slice_concat_right (hu : u.dims = [k, n]) (a : Tensor) :
    (matmul? a (concatColumns k n n t u)).bind (sliceLast? · n (2 * n : Nat)) = matmul? a u := by
  have h := slice_matmul? (t := concatColumns k n n t u) (w := u) (m := n) n
    (by omega) rfl hu (fun i hi j hj => flat_concatColumns_right hi hj) a
  rwa [← Nat.two_mul] at h

end Tensors

section Rewriting

def gateMark : String := "/mlp/gate_proj/MatMul"

def upMark : String := "/mlp/up_proj/MatMul"

/-- `name.split(mark, 1)[0]`, when the mark is in the name. -/
def before? (mark name : String) : Option String :=
  let text := name.toList
  ((List.range (text.length + 1)).find? fun i => mark.toList.isPrefixOf (text.drop i)).map
    fun i => String.ofList (text.take i)

/-- The layer a gate projection belongs to. -/
def gateLayer? (n : Node) : Option String :=
  if n.opType = "MatMul" then before? gateMark n.name else none

/-- The layer an up projection belongs to; a name with both marks is a gate projection's. -/
def upLayer? (n : Node) : Option String :=
  if n.opType = "MatMul" ∧ before? gateMark n.name = none then before? upMark n.name else none

/-- The node a dict keeps for a layer, the last one, with its index. -/
def lastOf (key : Node → Option String) (nodes : List Node) (layer : String) :
    Option (Node × Nat) :=
  nodes.zipIdx.reverse.find? fun p => key p.1 = some layer

/-- The keys of `gate_by_layer`, sorted. -/
def gateLayers (nodes : List Node) : List String :=
  (nodes.filterMap gateLayer?).dedup.insertionSort (· ≤ ·)

/-- `layer.strip("/").replace("/", "_").replace(".", "_")`. -/
def safeLayer (layer : String) : String :=
  let slash (c : Char) : Bool := c = '/'
  let stripped := ((layer.toList.dropWhile slash).reverse.dropWhile slash).reverse
  String.ofList (stripped.map fun c => if c = '/' ∨ c = '.' then '_' else c)

/-- A gate and an up projection of a layer that are fused, of a depth and a hidden width. -/
structure Fusion where
  layer : String
  gate : Node
  gateIdx : Nat
  up : Node
  upIdx : Nat
  gateW : Tensor
  upW : Tensor
  depth : Nat
  hidden : Nat

/-- What becomes of a layer with a gate projection. -/
def fusion? (g : Model Tensor) (layer : String) : Option Fusion := do
  let (gate, gateIdx) ← lastOf gateLayer? g.nodes layer
  let (up, upIdx) ← lastOf upLayer? g.nodes layer
  if gate.inputs.head? = up.inputs.head? then
    let gateW ← gate.inputs[1]?.bind g.initializer?
    let upW ← up.inputs[1]?.bind g.initializer?
    match gateW.dims, upW.dims with
    | [k, n], [k', n'] =>
        if k = k' ∧ n = n' then some ⟨layer, gate, gateIdx, up, upIdx, gateW, upW, k, n⟩ else none
    | _, _ => none
  else none

/-- The fused pairs, by their layers. -/
def fusions (g : Model Tensor) : List Fusion := (gateLayers g.nodes).filterMap (fusion? g)

namespace Fusion

variable (f : Fusion)

def activation : String := f.gate.inputs.headD ""

def gateOut : String := f.gate.outputs.headD ""

def upOut : String := f.up.outputs.headD ""

/-- The name of an initializer made for the layer. -/
def named (ending : String) : String := safeLayer f.layer ++ ending

/-- `weight_name`. -/
def weightName : String := f.named "_mlp_gate_up_fused_weight"

/-- `fused_out`. -/
def fusedOut : String := f.layer ++ "/mlp/gate_up_fused/MatMul_output_0"

/-- `_const_i64` of one value. -/
def constI64 (value : Int) : Tensor := ⟨[1], [value], rfl⟩

/-- `new_initializers` of the layer. -/
def consts : List (String × Tensor) :=
  [(f.weightName, concatColumns f.depth f.hidden f.hidden f.gateW f.upW),
    (f.named "_gate_slice_starts", constI64 0),
    (f.named "_gate_slice_ends", constI64 f.hidden),
    (f.named "_up_slice_starts", constI64 f.hidden),
    (f.named "_up_slice_ends", constI64 (2 * f.hidden)),
    (f.named "_gate_up_slice_axes", constI64 (-1))]

/-- A node of `helper.make_node`. -/
def makeNode (opType : String) (inputs : List String) (output name : String) : Node :=
  ⟨name, opType, "", inputs, [output], [], [], []⟩

def product : Node :=
  makeNode "MatMul" [f.activation, f.weightName] f.fusedOut (f.layer ++ "/mlp/gate_up_fused/MatMul")

def gateSlice : Node :=
  makeNode "Slice" [f.fusedOut, f.named "_gate_slice_starts", f.named "_gate_slice_ends",
    f.named "_gate_up_slice_axes"] f.gateOut (f.layer ++ "/mlp/gate_proj/SliceFromFused")

def upSlice : Node :=
  makeNode "Slice" [f.fusedOut, f.named "_up_slice_starts", f.named "_up_slice_ends",
    f.named "_gate_up_slice_axes"] f.upOut (f.layer ++ "/mlp/up_proj/SliceFromFused")

/-- `fused[layer]`. -/
def block : List Node := [f.product, f.gateSlice, f.upSlice]

end Fusion

/-- What stands in the place of a node with its index. -/
def replaced (fs : List Fusion) (p : Node × Nat) : List Node :=
  if fs.any fun f => f.upIdx = p.2 then []
  else
    match (before? gateMark p.1.name).bind fun layer =>
        fs.find? fun f => f.layer = layer ∧ f.gateIdx = p.2 with
    | some f => f.block
    | none => [p.1]

/-- A model with some pairs fused. -/
def assemble (g : Model Tensor) (fs : List Fusion) : Model Tensor :=
  { g with
    initializers := g.initializers ++ fs.flatMap Fusion.consts
    nodes := g.nodes.zipIdx.flatMap (replaced fs) }

/-- `fuse_mlp_gate_up`: the model with its fused pairs, and how many there are. -/
def fuseMlpGateUp (g : Model Tensor) : Model Tensor × Nat :=
  let fs := fusions g
  if fs.isEmpty then (g, 0) else (assemble g fs, fs.length)

/-- `MatMul` with a matrix and `Slice` of the last axis; every other operator is left open. -/
def standardOps (ops : Ops Tensor) : Ops Tensor := fun o args caps =>
  if o.domain ≠ "" ∧ o.domain ≠ "ai.onnx" then ops o args caps
  else if o.opType = "MatMul" then
    match args with
    | [a, some w] => if w.dims.length = 2 then [a.bind (matmul? · w)] else ops o args caps
    | _ => ops o args caps
  else if o.opType = "Slice" then
    match args with
    | [t, some first, some stop, some axes] =>
        if first.dims = [1] ∧ stop.dims = [1] ∧ axes.dims = [1] ∧ axes.flat 0 = -1 then
          [t.bind (sliceLast? · (first.flat 0).floor (stop.flat 0).floor)]
        else ops o args caps
    | _ => ops o args caps
  else ops o args caps

end Rewriting

section Statements

/-- A `MatMul` of ONNX itself, with both operands and its output. -/
structure IsProduct (n : Node) : Prop where
  standard : n.domain = "" ∨ n.domain = "ai.onnx"
  operands : ∃ a w, n.inputs = [a, w] ∧ a ≠ "" ∧ w ≠ ""
  output : ∃ y, n.outputs = [y] ∧ y ≠ ""

/-- A valid model whose products fit their schema and whose initializers nothing can be fed
over. -/
structure Checked (g : Model Tensor) : Prop where
  valid : g.Valid
  fixed : ∀ x ∈ g.inputs, x ∉ g.initializerNames
  products : ∀ n ∈ g.nodes, n.opType = "MatMul" → IsProduct n

/-- The names of the initializers and of the value made for a layer. -/
def Fusion.made (f : Fusion) : List String := f.consts.map Prod.fst ++ [f.fusedOut]

/-- The layers keep different names, those made are no others of the model, and no body binds
one or an output of an up projection. -/
structure Fresh (g : Model Tensor) : Prop where
  distinct : ((fusions g).map fun f => safeLayer f.layer).Nodup
  unused : ∀ x ∈ (fusions g).flatMap Fusion.made, x ∉ g.known ++ shape.bound g.nodes
  unshadowed : ∀ n ∈ g.nodes, ∀ x ∈ n.inner,
    x ∉ (fusions g).flatMap Fusion.made ++ (fusions g).map Fusion.upOut

end Statements

section Fusions
variable {g : Model Tensor} {f f' : Fusion} {n : Node} {p : Node × Nat} {layer : String}

theorem lastOf_spec {key : Node → Option String} {nodes : List Node}
    (h : lastOf key nodes layer = some p) : nodes[p.2]? = some p.1 ∧ key p.1 = some layer :=
  ⟨List.mem_zipIdx_iff_getElem?.mp (List.mem_reverse.mp (List.mem_of_find?_eq_some h)),
    by simpa using List.find?_some h⟩

/-- What a fused pair is made of. -/
structure Fusion.Of (f : Fusion) (g : Model Tensor) : Prop where
  gate_at : g.nodes[f.gateIdx]? = some f.gate
  up_at : g.nodes[f.upIdx]? = some f.up
  gate_layer : gateLayer? f.gate = some f.layer
  up_layer : upLayer? f.up = some f.layer
  input : f.gate.inputs.head? = f.up.inputs.head?
  gateW : f.gate.inputs[1]?.bind g.initializer? = some f.gateW
  upW : f.up.inputs[1]?.bind g.initializer? = some f.upW
  gateW_dims : f.gateW.dims = [f.depth, f.hidden]
  upW_dims : f.upW.dims = [f.depth, f.hidden]

theorem fusion?_spec (h : fusion? g layer = some f) : f.Of g ∧ f.layer = layer := by
  rw [fusion?] at h
  obtain ⟨⟨gate, gateIdx⟩, hgate, h⟩ := Option.bind_eq_some_iff.mp h
  obtain ⟨⟨up, upIdx⟩, hup, h⟩ := Option.bind_eq_some_iff.mp h
  dsimp only at h
  split at h
  · rename_i hinput
    obtain ⟨gateW, hgateW, h⟩ := Option.bind_eq_some_iff.mp h
    obtain ⟨upW, hupW, h⟩ := Option.bind_eq_some_iff.mp h
    split at h
    · rename_i hgd hud
      split at h
      · rename_i heq
        cases h
        obtain ⟨rfl, rfl⟩ := heq
        obtain ⟨hgate_at, hgate_layer⟩ := lastOf_spec hgate
        obtain ⟨hup_at, hup_layer⟩ := lastOf_spec hup
        exact ⟨⟨hgate_at, hup_at, hgate_layer, hup_layer, hinput, hgateW, hupW, hgd, hud⟩, rfl⟩
      · cases h
    · cases h
  · cases h

theorem of_mem (hf : f ∈ fusions g) : f.Of g := by
  obtain ⟨layer, -, h⟩ := List.mem_filterMap.mp hf
  exact (fusion?_spec h).1

/-- A layer has one fused pair. -/
theorem eq_of_layer (hf : f ∈ fusions g) (hf' : f' ∈ fusions g) (h : f.layer = f'.layer) :
    f = f' := by
  obtain ⟨layer, -, hlayer⟩ := List.mem_filterMap.mp hf
  obtain ⟨layer', -, hlayer'⟩ := List.mem_filterMap.mp hf'
  obtain rfl : layer = layer' := by rw [← (fusion?_spec hlayer).2, ← (fusion?_spec hlayer').2, h]
  exact Option.some.inj (hlayer.symm.trans hlayer')

theorem gateLayer?_spec (h : gateLayer? n = some layer) :
    n.opType = "MatMul" ∧ before? gateMark n.name = some layer := by
  rw [gateLayer?] at h
  split at h
  · exact ⟨‹_›, h⟩
  · cases h

theorem upLayer?_spec (h : upLayer? n = some layer) :
    n.opType = "MatMul" ∧ before? gateMark n.name = none := by
  rw [upLayer?] at h
  split at h
  · assumption
  · cases h

theorem eq_of_upIdx (hf : f ∈ fusions g) (hf' : f' ∈ fusions g) (h : f.upIdx = f'.upIdx) :
    f = f' := by
  have hup := (of_mem hf).up_at
  rw [h, (of_mem hf').up_at] at hup
  refine eq_of_layer hf hf' (Option.some.inj ?_)
  rw [← (of_mem hf).up_layer, ← Option.some.inj hup, (of_mem hf').up_layer]

/-- No node is the gate projection of one pair and the up projection of another. -/
theorem gateIdx_ne_upIdx (hf : f ∈ fusions g) (hf' : f' ∈ fusions g) : f.gateIdx ≠ f'.upIdx := by
  intro h
  have hgate := (of_mem hf).gate_at
  rw [h, (of_mem hf').up_at] at hgate
  have hnone := (upLayer?_spec (of_mem hf').up_layer).2
  rw [Option.some.inj hgate, (gateLayer?_spec (of_mem hf).gate_layer).2] at hnone
  cases hnone

theorem replaced_gate (hf : f ∈ fusions g) :
    replaced (fusions g) (f.gate, f.gateIdx) = f.block := by
  have hnot : ¬ ((fusions g).any fun f' => f'.upIdx = f.gateIdx) = true := by
    rw [List.any_eq_true]
    rintro ⟨f', hf', h⟩
    exact gateIdx_ne_upIdx hf hf' (by simpa using (of_decide_eq_true h).symm)
  have hfind : ((fusions g).find? fun f' => f'.layer = f.layer ∧ f'.gateIdx = f.gateIdx) =
      some f := by
    obtain ⟨f', hf'⟩ : ∃ f', ((fusions g).find? fun f' =>
        f'.layer = f.layer ∧ f'.gateIdx = f.gateIdx) = some f' :=
      Option.isSome_iff_exists.mp (List.find?_isSome.mpr ⟨f, hf, by simp⟩)
    have hsame : f'.layer = f.layer ∧ f'.gateIdx = f.gateIdx := by
      simpa using List.find?_some hf'
    rw [hf', eq_of_layer (List.mem_of_find?_eq_some hf') hf hsame.1]
  rw [replaced, if_neg hnot]
  simp only [(gateLayer?_spec (of_mem hf).gate_layer).2, Option.bind_some, hfind]

theorem replaced_up (hf : f ∈ fusions g) : replaced (fusions g) (f.up, f.upIdx) = [] :=
  if_pos (List.any_eq_true.mpr ⟨f, hf, by simp⟩)

theorem replaced_kept (h : ∀ f ∈ fusions g, f.gateIdx ≠ p.2 ∧ f.upIdx ≠ p.2) :
    replaced (fusions g) p = [p.1] := by
  have hnot : ¬ ((fusions g).any fun f => f.upIdx = p.2) = true := by
    rw [List.any_eq_true]
    rintro ⟨f, hf, hidx⟩
    exact (h f hf).2 (of_decide_eq_true hidx)
  rw [replaced, if_neg hnot]
  split
  · rename_i f hfind
    obtain ⟨layer, -, hfind⟩ := Option.bind_eq_some_iff.mp hfind
    have hidx : f.layer = layer ∧ f.gateIdx = p.2 := by simpa using List.find?_some hfind
    exact absurd hidx.2 (h f (List.mem_of_find?_eq_some hfind)).1
  · rfl

/-- A node of the model is the gate or the up projection of a pair, or stays. -/
theorem node_cases {i : Nat} (hn : g.nodes[i]? = some n) :
    (∃ f ∈ fusions g, i = f.gateIdx ∧ n = f.gate) ∨ (∃ f ∈ fusions g, i = f.upIdx ∧ n = f.up) ∨
      ∀ f ∈ fusions g, f.gateIdx ≠ i ∧ f.upIdx ≠ i := by
  by_cases hgate : ∃ f ∈ fusions g, i = f.gateIdx
  · obtain ⟨f, hf, rfl⟩ := hgate
    exact .inl ⟨f, hf, rfl, Option.some.inj (hn.symm.trans (of_mem hf).gate_at)⟩
  · by_cases hup : ∃ f ∈ fusions g, i = f.upIdx
    · obtain ⟨f, hf, rfl⟩ := hup
      exact .inr (.inl ⟨f, hf, rfl, Option.some.inj (hn.symm.trans (of_mem hf).up_at)⟩)
    · refine .inr (.inr fun f hf => ⟨fun h => hgate ⟨f, hf, h.symm⟩, fun h => hup ⟨f, hf, h.symm⟩⟩)

end Fusions

section Values
variable {g : Model Tensor} {f : Fusion} {n : Node} {x : String}

theorem fuseMlpGateUp_eq (g : Model Tensor) : (fuseMlpGateUp g).1 = assemble g (fusions g) := by
  rw [fuseMlpGateUp]
  split
  · rename_i h
    have hkept : replaced [] = fun p : Node × Nat => [p.1] := by
      funext p
      simp [replaced]
    rw [List.isEmpty_iff.mp h, assemble, hkept, ← List.map_eq_flatMap, List.zipIdx_map_fst,
      List.flatMap_nil, List.append_nil]
  · rfl

/-- The operands and the outputs of a fused pair. -/
structure Fusion.Typed (f : Fusion) (g : Model Tensor) : Prop where
  gate_inputs : ∃ w, f.gate.inputs = [f.activation, w] ∧ w ≠ "" ∧ g.initializer? w = some f.gateW
  up_inputs : ∃ w, f.up.inputs = [f.activation, w] ∧ w ≠ "" ∧ g.initializer? w = some f.upW
  activation : f.activation ≠ ""
  gate_outputs : f.gate.outputs = [f.gateOut] ∧ f.gateOut ≠ ""
  up_outputs : f.up.outputs = [f.upOut] ∧ f.upOut ≠ ""

theorem product_gate (hg : Checked g) (hf : f ∈ fusions g) : IsProduct f.gate :=
  hg.products f.gate (List.mem_of_getElem? (of_mem hf).gate_at)
    (gateLayer?_spec (of_mem hf).gate_layer).1

theorem product_up (hg : Checked g) (hf : f ∈ fusions g) : IsProduct f.up :=
  hg.products f.up (List.mem_of_getElem? (of_mem hf).up_at) (upLayer?_spec (of_mem hf).up_layer).1

theorem typed (hg : Checked g) (hf : f ∈ fusions g) : f.Typed g := by
  have hof := of_mem hf
  obtain ⟨a, w, hgate, ha, hw⟩ := (product_gate hg hf).operands
  obtain ⟨b, w', hup, -, hw'⟩ := (product_up hg hf).operands
  obtain ⟨y, hy, hyne⟩ := (product_gate hg hf).output
  obtain ⟨y', hy', hyne'⟩ := (product_up hg hf).output
  have hactivation : f.activation = a := by rw [Fusion.activation, hgate]; rfl
  have hgateOut : f.gateOut = y := by rw [Fusion.gateOut, hy]; rfl
  have hupOut : f.upOut = y' := by rw [Fusion.upOut, hy']; rfl
  have hinput := hof.input
  have hgateW := hof.gateW
  have hupW := hof.upW
  rw [hgate, hup] at hinput
  rw [hgate] at hgateW
  rw [hup] at hupW
  obtain rfl : a = b := Option.some.inj hinput
  exact ⟨⟨w, by rw [hgate, hactivation], hw, hgateW⟩, ⟨w', by rw [hup, hactivation], hw', hupW⟩,
    hactivation ▸ ha, ⟨by rw [hy, hgateOut], hgateOut ▸ hyne⟩, by rw [hy', hupOut], hupOut ▸ hyne'⟩

section Operators
variable {ops : Ops Tensor} {e : String → Option Tensor} {a w y : String}

theorem exec_product {W : Tensor} {k m : Nat} (hs : n.domain = "" ∨ n.domain = "ai.onnx")
    (ho : n.opType = "MatMul") (hi : n.inputs = [a, w]) (ha : a ≠ "") (hw : w ≠ "")
    (hy : n.outputs = [y]) (hW : e w = some W) (hd : W.dims = [k, m]) :
    (standardOps ops).meaning.exec n e y = (e a).bind (matmul? · W) := by
  have hstandard : ¬ (n.operation.domain ≠ "" ∧ n.operation.domain ≠ "ai.onnx") := by
    rintro ⟨h, h'⟩
    exact hs.elim h h'
  have hargs : n.inputs.map (operandOf e) = [e a, some W] := by simp [hi, operandOf, ha, hw, hW]
  rw [exec_single hy, hargs, standardOps, if_neg hstandard,
    if_pos (show n.operation.opType = _ from ho)]
  simp [hd]

theorem exec_slice {t s st ax name : String} {first stop : Int} (ht : t ≠ "") (hs : s ≠ "")
    (hst : st ≠ "") (hax : ax ≠ "") (hes : e s = some (Fusion.constI64 first))
    (hest : e st = some (Fusion.constI64 stop)) (heax : e ax = some (Fusion.constI64 (-1))) :
    (standardOps ops).meaning.exec (Fusion.makeNode "Slice" [t, s, st, ax] y name) e y =
      (e t).bind (sliceLast? · first stop) := by
  have hflat (i : Int) : (Fusion.constI64 i).dims = [1] ∧ (Fusion.constI64 i).flat 0 = i :=
    ⟨rfl, rfl⟩
  rw [exec_single (y := y) rfl]
  simp [standardOps, Node.operation, Fusion.makeNode, operandOf, ht, hs, hst, hax, hes, hest, heax,
    hflat]

end Operators

theorem mem_consts (hf : f ∈ fusions g) {v : Tensor} (hx : (x, v) ∈ f.consts) :
    (x, v) ∈ (assemble g (fusions g)).initializers :=
  List.mem_append_right _ (List.mem_flatMap.mpr ⟨f, hf, hx⟩)

theorem mem_block (hf : f ∈ fusions g) (hn : n ∈ f.block) :
    n ∈ (assemble g (fusions g)).nodes :=
  List.mem_flatMap.mpr ⟨(f.gate, f.gateIdx), List.mem_zipIdx_iff_getElem?.mpr (of_mem hf).gate_at,
    by rw [replaced_gate hf]; exact hn⟩

theorem append_ne {stem ending : String} (h : ending ≠ "") : stem ++ ending ≠ "" := by
  intro heq
  have hempty := congrArg String.toList heq
  rw [String.toList_append, String.toList_empty, List.append_eq_nil_iff] at hempty
  exact h (String.toList_eq_nil_iff.mp hempty.2)

theorem fusedOut_ne (f : Fusion) : f.fusedOut ≠ "" := append_ne (by decide)

section Assembled
variable (hg : Checked g) (hv : Checked (assemble g (fusions g))) (hf : f ∈ fusions g)
  (ops : Ops Tensor) (feed : String → Option Tensor)
include hv hf

theorem evaluate_const {v : Tensor} (hx : (x, v) ∈ f.consts) :
    (assemble g (fusions g)).evaluate ops feed x = some v ∧ x ≠ "" := by
  have hmem := mem_consts hf hx
  have hname : x ∈ (assemble g (fusions g)).initializerNames := List.mem_map.mpr ⟨_, hmem, rfl⟩
  refine ⟨hv.valid.evaluate_initializer (lookup_of_mem hv.valid.initializers hmem)
    (fun hin => hv.fixed x hin hname) ops feed, ?_⟩
  rintro rfl
  exact hv.valid.named (List.mem_append_right _ hname)

include hg

/-- The fused product. -/
theorem evaluate_fusedOut :
    (assemble g (fusions g)).evaluate (standardOps ops) feed f.fusedOut =
      ((assemble g (fusions g)).evaluate (standardOps ops) feed f.activation).bind
        (matmul? · (concatColumns f.depth f.hidden f.hidden f.gateW f.upW)) := by
  have hmem : f.product ∈ (assemble g (fusions g)).nodes := mem_block hf List.mem_cons_self
  obtain ⟨hW, hne⟩ := evaluate_const hv hf (standardOps ops) feed (x := f.weightName)
    List.mem_cons_self
  rw [hv.valid.solves (standardOps ops) feed _ hmem f.fusedOut
    (mem_binds.mpr ⟨List.mem_singleton_self _, fusedOut_ne f⟩)]
  exact exec_product (.inl rfl) rfl rfl (typed hg hf).activation hne rfl hW rfl

/-- A slice of the fused product. -/
theorem evaluate_slice (s st y name : String) (first stop : Int) (hy : y ≠ "")
    (hn : Fusion.makeNode "Slice" [f.fusedOut, f.named s, f.named st,
      f.named "_gate_up_slice_axes"] y name ∈ f.block)
    (hs : (f.named s, Fusion.constI64 first) ∈ f.consts)
    (hst : (f.named st, Fusion.constI64 stop) ∈ f.consts) :
    (assemble g (fusions g)).evaluate (standardOps ops) feed y =
      ((assemble g (fusions g)).evaluate (standardOps ops) feed f.activation).bind fun a =>
        (matmul? a (concatColumns f.depth f.hidden f.hidden f.gateW f.upW)).bind
          (sliceLast? · first stop) := by
  have haxes : (f.named "_gate_up_slice_axes", Fusion.constI64 (-1)) ∈ f.consts := by
    simp [Fusion.consts]
  obtain ⟨hes, hsne⟩ := evaluate_const hv hf (standardOps ops) feed hs
  obtain ⟨hest, hstne⟩ := evaluate_const hv hf (standardOps ops) feed hst
  obtain ⟨heax, haxne⟩ := evaluate_const hv hf (standardOps ops) feed haxes
  rw [hv.valid.solves (standardOps ops) feed _ (mem_block hf hn) y
    (mem_binds.mpr ⟨List.mem_singleton_self _, hy⟩),
    exec_slice (fusedOut_ne f) hsne hstne haxne hes hest heax, evaluate_fusedOut hg hv hf,
    Option.bind_assoc]

/-- The first slice is the gate projection. -/
theorem evaluate_gateOut :
    (assemble g (fusions g)).evaluate (standardOps ops) feed f.gateOut =
      ((assemble g (fusions g)).evaluate (standardOps ops) feed f.activation).bind
        (matmul? · f.gateW) := by
  rw [evaluate_slice hg hv hf ops feed "_gate_slice_starts" "_gate_slice_ends" f.gateOut
    (f.layer ++ "/mlp/gate_proj/SliceFromFused") 0 f.hidden (typed hg hf).gate_outputs.2
    (by simp [Fusion.block, Fusion.gateSlice]) (by simp [Fusion.consts]) (by simp [Fusion.consts])]
  exact Option.bind_congr fun a _ => slice_concat_left (of_mem hf).gateW_dims a

/-- The second slice is the up projection. -/
theorem evaluate_upOut :
    (assemble g (fusions g)).evaluate (standardOps ops) feed f.upOut =
      ((assemble g (fusions g)).evaluate (standardOps ops) feed f.activation).bind
        (matmul? · f.upW) := by
  rw [evaluate_slice hg hv hf ops feed "_up_slice_starts" "_up_slice_ends" f.upOut
    (f.layer ++ "/mlp/up_proj/SliceFromFused") f.hidden (2 * f.hidden) (typed hg hf).up_outputs.2
    (by simp [Fusion.block, Fusion.upSlice]) (by simp [Fusion.consts]) (by simp [Fusion.consts])]
  exact Option.bind_congr fun a _ => slice_concat_right (of_mem hf).upW_dims a

end Assembled

end Values

section Names
variable {g : Model Tensor} {f : Fusion} {x : String}

/-- The endings of the initializers made for a layer. -/
def constEndings : List String :=
  ["_mlp_gate_up_fused_weight", "_gate_slice_starts", "_gate_slice_ends", "_up_slice_starts",
    "_up_slice_ends", "_gate_up_slice_axes"]

def productEnding : String := "/mlp/gate_up_fused/MatMul_output_0"

theorem separate_endings : Separate ((productEnding :: constEndings).map String.toList) := by decide

theorem constNames (f : Fusion) :
    f.consts.map Prod.fst = constEndings.map (safeLayer f.layer ++ ·) := rfl

/-- The value made for one layer is no initializer made for another. -/
theorem fusedOut_not_const (f f' : Fusion) : f.fusedOut ∉ f'.consts.map Prod.fst := by
  rw [constNames]
  intro hmem
  obtain ⟨ending, hending, heq⟩ := List.mem_map.mp hmem
  have hlists : (safeLayer f'.layer).toList ++ ending.toList =
      f.layer.toList ++ productEnding.toList := by
    rw [← String.toList_append, ← String.toList_append, heq]
    rfl
  have hstem := stem_unique separate_endings
    (List.mem_map_of_mem (List.mem_cons_of_mem _ hending)) (List.mem_map_of_mem List.mem_cons_self)
    hlists
  rw [hstem] at hlists
  have hsame := String.toList_inj.mp (List.append_cancel_left hlists)
  exact absurd (hsame ▸ hending) (by decide)

theorem fusions_nodup (g : Model Tensor) : (fusions g).Nodup := by
  refine List.Nodup.filterMap (fun layer layer' f h h' => ?_) ?_
  · rw [← (fusion?_spec h).2, ← (fusion?_spec h').2]
  · exact (List.perm_insertionSort _ _).nodup_iff.mpr (List.nodup_dedup _)

theorem fusedOuts_nodup (g : Model Tensor) : ((fusions g).map Fusion.fusedOut).Nodup := by
  refine List.Nodup.map_on (fun f hf f' hf' h => eq_of_layer hf hf' ?_) (fusions_nodup g)
  have hlists := congrArg String.toList h
  rw [Fusion.fusedOut, Fusion.fusedOut, String.toList_append, String.toList_append] at hlists
  exact String.toList_inj.mp (List.append_cancel_right hlists)

theorem constNames_nodup (h : Fresh g) : (((fusions g).flatMap Fusion.consts).map Prod.fst).Nodup := by
  have hends : Replacing.Endings constEndings :=
    ⟨List.Pairwise.of_cons separate_endings, by decide, by decide⟩
  have heq : ((fusions g).flatMap Fusion.consts).map Prod.fst =
      ((fusions g).map fun f => safeLayer f.layer).flatMap fun stem =>
        constEndings.map (stem ++ ·) := by
    rw [List.map_flatMap, List.flatMap_map]
    rfl
  rw [heq, Replacing.nodup_derived hends]
  exact h.distinct

theorem mem_made (hf : f ∈ fusions g) (hx : x ∈ f.made) : x ∈ (fusions g).flatMap Fusion.made :=
  List.mem_flatMap.mpr ⟨f, hf, hx⟩

theorem const_made (hx : x ∈ ((fusions g).flatMap Fusion.consts).map Prod.fst) :
    x ∈ (fusions g).flatMap Fusion.made := by
  rw [List.map_flatMap] at hx
  obtain ⟨f, hf, hx⟩ := List.mem_flatMap.mp hx
  exact mem_made hf (List.mem_append_left _ hx)

theorem fusedOut_made (hf : f ∈ fusions g) : f.fusedOut ∈ (fusions g).flatMap Fusion.made :=
  mem_made hf (List.mem_append_right _ (List.mem_singleton_self _))

theorem known_assemble (g : Model Tensor) (fs : List Fusion) :
    (assemble g fs).known = g.known ++ (fs.flatMap Fusion.consts).map Prod.fst := by
  rw [Model.known, Model.initializerNames, assemble, List.map_append, ← List.append_assoc]
  rfl

end Names

section Bindings
variable {g : Model Tensor} {f : Fusion} {n m : Node} {i j : Nat} {y : String}
  {before behind : List (Node × Nat)}

/-- A name is bound by one node only. -/
theorem index_unique (hg : g.Valid) (hn : g.nodes[i]? = some n) (hm : g.nodes[j]? = some m)
    (hi : y ∈ shape.binds n) (hj : y ∈ shape.binds m) : i = j := by
  obtain ⟨hilt, rfl⟩ := List.getElem?_eq_some_iff.mp hn
  obtain ⟨hjlt, rfl⟩ := List.getElem?_eq_some_iff.mp hm
  have hpairs := List.pairwise_iff_getElem.mp (List.nodup_flatMap.mp hg.bound).2
  rcases Nat.lt_trichotomy i j with hlt | heq | hlt
  · exact (hpairs i j hilt hjlt hlt hi hj).elim
  · exact heq
  · exact (hpairs j i hjlt hilt hlt hj hi).elim

theorem binds_gate (hg : Checked g) (hf : f ∈ fusions g) : shape.binds f.gate = [f.gateOut] := by
  obtain ⟨houtputs, hne⟩ := (typed hg hf).gate_outputs
  simp [shape, houtputs, hne]

theorem binds_up (hg : Checked g) (hf : f ∈ fusions g) : shape.binds f.up = [f.upOut] := by
  obtain ⟨houtputs, hne⟩ := (typed hg hf).up_outputs
  simp [shape, houtputs, hne]

theorem bound_block (hg : Checked g) (hf : f ∈ fusions g) :
    shape.bound f.block = [f.fusedOut, f.gateOut, f.upOut] := by
  simp [Fusion.block, Fusion.product, Fusion.gateSlice, Fusion.upSlice, Fusion.makeNode, shape,
    fusedOut_ne, (typed hg hf).gate_outputs.2, (typed hg hf).up_outputs.2]

/-- What the nodes in the place of one bind: a pair's names where its gate projection stood,
and a node's own where it stays. -/
theorem bound_replaced (hg : Checked g) (hn : g.nodes[i]? = some n)
    (hy : y ∈ shape.bound (replaced (fusions g) (n, i))) :
    (∃ f ∈ fusions g, f.gateIdx = i ∧ (y = f.fusedOut ∨ y = f.gateOut ∨ y = f.upOut)) ∨
      (∀ f ∈ fusions g, f.gateIdx ≠ i ∧ f.upIdx ≠ i) ∧ y ∈ shape.binds n := by
  rcases node_cases hn with ⟨f, hf, rfl, rfl⟩ | ⟨f, hf, rfl, rfl⟩ | hkept
  · rw [replaced_gate hf, bound_block hg hf] at hy
    exact .inl ⟨f, hf, rfl, by simpa using hy⟩
  · rw [replaced_up hf] at hy
    cases hy
  · rw [replaced_kept hkept] at hy
    exact .inr ⟨hkept, by simpa using hy⟩

/-- What is bound in the place of a node was bound in the model, by the node or by an up
projection, unless it is made. -/
theorem bound_old (hg : Checked g) (hn : g.nodes[i]? = some n)
    (hy : y ∈ shape.bound (replaced (fusions g) (n, i))) :
    (∃ f ∈ fusions g, f.gateIdx = i ∧ y = f.fusedOut) ∨
      ∃ k m, g.nodes[k]? = some m ∧ y ∈ shape.binds m ∧
        ((k = i ∧ ∀ f ∈ fusions g, f.upIdx ≠ k) ∨ ∃ f ∈ fusions g, f.gateIdx = i ∧ f.upIdx = k) := by
  rcases bound_replaced hg hn hy with ⟨f, hf, hi, hy | hy | hy⟩ | ⟨hkept, hy⟩
  · exact .inl ⟨f, hf, hi, hy⟩
  · refine .inr ⟨f.gateIdx, f.gate, (of_mem hf).gate_at, by simp [binds_gate hg hf, hy], .inl ?_⟩
    exact ⟨hi, fun f' hf' h => gateIdx_ne_upIdx hf hf' h.symm⟩
  · exact .inr ⟨f.upIdx, f.up, (of_mem hf).up_at, by simp [binds_up hg hf, hy],
      .inr ⟨f, hf, hi, rfl⟩⟩
  · exact .inr ⟨i, n, hn, hy, .inl ⟨rfl, fun f hf => (hkept f hf).2⟩⟩

/-- Nodes in the places of different nodes bind different names. -/
theorem bound_disjoint (hg : Checked g) (h : Fresh g) (hn : g.nodes[i]? = some n)
    (hm : g.nodes[j]? = some m) (hi : y ∈ shape.bound (replaced (fusions g) (n, i)))
    (hj : y ∈ shape.bound (replaced (fusions g) (m, j))) : i = j := by
  have hnew (f : Fusion) (hf : f ∈ fusions g) (k : Nat) (o : Node) (ho : g.nodes[k]? = some o)
      (hy : f.fusedOut ∈ shape.binds o) : False :=
    h.unused _ (fusedOut_made hf) (List.mem_append_right _
      (List.mem_flatMap.mpr ⟨o, List.mem_of_getElem? ho, hy⟩))
  rcases bound_old hg hn hi with ⟨f, hf, rfl, rfl⟩ | ⟨k, o, ho, hyo, hk⟩
  · rcases bound_old hg hm hj with ⟨f', hf', rfl, heq⟩ | ⟨k, o, ho, hyo, -⟩
    · rw [List.inj_on_of_nodup_map (fusedOuts_nodup g) hf hf' heq]
    · exact (hnew f hf k o ho hyo).elim
  · rcases bound_old hg hm hj with ⟨f', hf', -, rfl⟩ | ⟨k', o', ho', hyo', hk'⟩
    · exact (hnew f' hf' k o ho hyo).elim
    · obtain rfl := index_unique hg.valid ho ho' hyo hyo'
      rcases hk with ⟨rfl, hnot⟩ | ⟨f, hf, rfl, hup⟩
      · rcases hk' with ⟨rfl, -⟩ | ⟨f', hf', -, hup'⟩
        · rfl
        · exact absurd hup' (hnot f' hf')
      · rcases hk' with ⟨rfl, hnot⟩ | ⟨f', hf', rfl, hup'⟩
        · exact absurd hup (hnot f hf)
        · rw [eq_of_upIdx hf hf' (hup.trans hup'.symm)]

theorem mem_bound_flatMap {ps : List (Node × Nat)} {b : Node × Nat → List Node} :
    y ∈ shape.bound (ps.flatMap b) ↔ ∃ p ∈ ps, y ∈ shape.bound (b p) := by
  rw [Shape.bound, List.flatMap_assoc, List.mem_flatMap]
  rfl

/-- What some nodes bind is bound in their places, when with an up projection its gate
projection is among them. -/
theorem bound_mono (hg : Checked g) {ps : List (Node × Nat)}
    (hps : ∀ p ∈ ps, g.nodes[p.2]? = some p.1)
    (hclosed : ∀ f ∈ fusions g, (f.up, f.upIdx) ∈ ps → (f.gate, f.gateIdx) ∈ ps)
    (hy : y ∈ shape.bound (ps.map Prod.fst)) :
    y ∈ shape.bound (ps.flatMap (replaced (fusions g))) := by
  obtain ⟨m, hm, hy⟩ := List.mem_flatMap.mp hy
  obtain ⟨⟨m, j⟩, hp, rfl⟩ := List.mem_map.mp hm
  refine mem_bound_flatMap.mpr ?_
  rcases node_cases (hps _ hp) with ⟨f, hf, rfl, rfl⟩ | ⟨f, hf, rfl, rfl⟩ | hkept
  · rw [binds_gate hg hf, List.mem_singleton] at hy
    exact ⟨_, hp, by rw [replaced_gate hf, bound_block hg hf, hy]; simp⟩
  · rw [binds_up hg hf, List.mem_singleton] at hy
    exact ⟨_, hclosed f hf hp, by rw [replaced_gate hf, bound_block hg hf, hy]; simp⟩
  · exact ⟨_, hp, by rw [replaced_kept hkept]; simpa using hy⟩

/-- The part of the indexed nodes before one of them. -/
theorem zipIdx_split {l : List Node} (h : l.zipIdx = before ++ (n, i) :: behind) :
    l[i]? = some n ∧ l = before.map Prod.fst ++ n :: behind.map Prod.fst ∧
      ∀ p, p ∈ before ↔ l[p.2]? = some p.1 ∧ p.2 < i := by
  have hget (k : Nat) (p : Node × Nat) : l.zipIdx[k]? = some p ↔ l[k]? = some p.1 ∧ p.2 = k := by
    obtain ⟨m, j⟩ := p
    rw [List.getElem?_zipIdx, Option.map_eq_some_iff]
    constructor
    · rintro ⟨m', hm, heq⟩
      cases heq
      exact ⟨hm, Nat.zero_add k⟩
    · rintro ⟨hm, rfl⟩
      exact ⟨m, hm, by rw [Nat.zero_add]⟩
  obtain ⟨hn, hi⟩ := (hget before.length (n, i)).mp (by rw [h]; simp)
  change i = before.length at hi
  refine ⟨hi ▸ hn, ?_, fun p => ⟨fun hp => ?_, fun ⟨hp, hlt⟩ => ?_⟩⟩
  · rw [← List.zipIdx_map_fst 0 l, h]
    simp
  · obtain ⟨k, hk⟩ := List.mem_iff_getElem?.mp hp
    have hlt := (List.getElem?_eq_some_iff.mp hk).1
    obtain ⟨hp, hidx⟩ := (hget k p).mp (by rw [h, List.getElem?_append_left hlt, hk])
    exact ⟨hidx.symm ▸ hp, by omega⟩
  · have hmem := (hget p.2 p).mpr ⟨hp, rfl⟩
    rw [h, List.getElem?_append_left (by omega)] at hmem
    exact List.mem_of_getElem? hmem

end Bindings

section Validity
variable {g : Model Tensor} {f : Fusion} {n : Node} {x y : String}

theorem scoped_block {known : List String} (hactivation : f.activation ∈ known)
    (hconst : ∀ x ∈ f.consts.map Prod.fst, x ∈ known) : shape.Scoped known f.block := by
  have hslice (known' : List String) (hknown : ∀ x ∈ known, x ∈ known')
      (hout : f.fusedOut ∈ known') (s st y name : String)
      (hs : f.named s ∈ f.consts.map Prod.fst) (hst : f.named st ∈ f.consts.map Prod.fst) :
      ∀ x ∈ shape.reads (Fusion.makeNode "Slice" [f.fusedOut, f.named s, f.named st,
        f.named "_gate_up_slice_axes"] y name), x ∈ known' := by
    intro x hx
    obtain ⟨hx, -⟩ := (mem_reads.mp hx).resolve_right List.not_mem_nil
    rcases List.mem_cons.mp hx with rfl | hx
    · exact hout
    · refine hknown x (hconst x ?_)
      have haxes : f.named "_gate_up_slice_axes" ∈ f.consts.map Prod.fst := by simp [Fusion.consts]
      simp only [List.mem_cons, List.not_mem_nil, or_false] at hx
      rcases hx with rfl | rfl | rfl
      · exact hs
      · exact hst
      · exact haxes
  refine ⟨fun x hx => ?_, hslice _ (fun x hx => List.mem_append_left _ hx) ?_ _ _ _ _ ?_ ?_,
    hslice _ (fun x hx => List.mem_append_left _ (List.mem_append_left _ hx)) ?_ _ _ _ _ ?_ ?_,
    trivial⟩
  · obtain ⟨hx, -⟩ := (mem_reads.mp hx).resolve_right List.not_mem_nil
    rcases List.mem_cons.mp hx with rfl | hx
    · exact hactivation
    · rw [List.mem_singleton.mp hx]
      exact hconst _ List.mem_cons_self
  · exact List.mem_append_right _ (mem_binds.mpr ⟨List.mem_singleton_self _, fusedOut_ne f⟩)
  · simp [Fusion.consts]
  · simp [Fusion.consts]
  · exact List.mem_append_left _
      (List.mem_append_right _ (mem_binds.mpr ⟨List.mem_singleton_self _, fusedOut_ne f⟩))
  · simp [Fusion.consts]
  · simp [Fusion.consts]

/-- Every operand has a value before its node, when gate projections stand before their up
projections. -/
theorem inScope_assemble (hg : Checked g) (horder : ∀ f ∈ fusions g, f.gateIdx < f.upIdx) :
    shape.Scoped (assemble g (fusions g)).known (assemble g (fusions g)).nodes := by
  refine Shape.atEach_flatMap.mpr fun before ⟨n, i⟩ behind h => ?_
  obtain ⟨hn, hnodes, hbefore⟩ := zipIdx_split h
  have hreads : ∀ x ∈ shape.reads n, x ∈ (assemble g (fusions g)).known ++
      shape.bound (before.flatMap (replaced (fusions g))) := by
    intro x hx
    have hscope := Shape.atEach_iff.mp hg.valid.inScope _ n _ hnodes x hx
    rcases List.mem_append.mp hscope with hknown | hbound
    · rw [known_assemble]
      exact List.mem_append_left _ (List.mem_append_left _ hknown)
    · refine List.mem_append_right _ (bound_mono hg (fun p hp => ((hbefore p).mp hp).1)
        (fun f hf hup => (hbefore _).mpr ⟨(of_mem hf).gate_at, ?_⟩) hbound)
      exact (horder f hf).trans ((hbefore _).mp hup).2
  rcases node_cases hn with ⟨f, hf, rfl, rfl⟩ | ⟨f, hf, rfl, rfl⟩ | hkept
  · rw [replaced_gate hf]
    obtain ⟨w, hinputs, -, -⟩ := (typed hg hf).gate_inputs
    refine scoped_block (hreads _ (mem_reads.mpr (.inl ⟨?_, (typed hg hf).activation⟩)))
      fun x hx => List.mem_append_left _ ?_
    · rw [hinputs]
      exact List.mem_cons_self
    · rw [known_assemble, List.map_flatMap]
      exact List.mem_append_right _ (List.mem_flatMap.mpr ⟨f, hf, hx⟩)
  · rw [replaced_up hf]
    trivial
  · rw [replaced_kept hkept]
    exact ⟨hreads, trivial⟩

theorem unshadowed_assemble (hg : Checked g) (h : Fresh g) :
    shape.Unshadowed (assemble g (fusions g)).known (assemble g (fusions g)).nodes := by
  refine Shape.atEach_flatMap.mpr fun before ⟨n, i⟩ behind hsplit => ?_
  obtain ⟨hn, hnodes, hbefore⟩ := zipIdx_split hsplit
  rcases node_cases hn with ⟨f, hf, rfl, rfl⟩ | ⟨f, hf, rfl, rfl⟩ | hkept
  · rw [replaced_gate hf]
    exact ⟨fun x hx => (List.not_mem_nil hx).elim, fun x hx => (List.not_mem_nil hx).elim,
      fun x hx => (List.not_mem_nil hx).elim, trivial⟩
  · rw [replaced_up hf]
    trivial
  · rw [replaced_kept hkept]
    refine ⟨fun x hx hmem => ?_, trivial⟩
    have hfree := h.unshadowed n (List.mem_of_getElem? hn) x hx
    rw [List.mem_append, not_or] at hfree
    have hold := Shape.atEach_iff.mp hg.valid.unshadowed _ n _ hnodes x hx
    rw [List.mem_append, not_or] at hold
    rw [List.mem_append, known_assemble, List.mem_append] at hmem
    rcases hmem with (hmem | hmem) | hmem
    · exact hold.1 hmem
    · exact hfree.1 (const_made hmem)
    · obtain ⟨⟨m, j⟩, hp, hx⟩ := mem_bound_flatMap.mp hmem
      have hm : g.nodes[j]? = some m := ((hbefore _).mp hp).1
      rcases bound_replaced hg hm hx with ⟨f, hf, rfl, rfl | rfl | rfl⟩ | ⟨-, hx⟩
      · exact hfree.1 (fusedOut_made hf)
      · refine hold.2 (List.mem_flatMap.mpr ⟨m, List.mem_map_of_mem hp, ?_⟩)
        rw [Option.some.inj (hm.symm.trans (of_mem hf).gate_at), binds_gate hg hf]
        exact List.mem_singleton_self _
      · exact hfree.2 (List.mem_map_of_mem hf)
      · exact hold.2 (List.mem_flatMap.mpr ⟨m, List.mem_map_of_mem hp, hx⟩)

theorem bound_assemble_nodup (hg : Checked g) (h : Fresh g) :
    (shape.bound (assemble g (fusions g)).nodes).Nodup := by
  rw [Shape.bound, assemble, List.flatMap_assoc, List.nodup_flatMap]
  constructor
  · rintro ⟨n, i⟩ hp
    have hn := List.mem_zipIdx_iff_getElem?.mp hp
    rcases node_cases hn with ⟨f, hf, rfl, rfl⟩ | ⟨f, hf, rfl, rfl⟩ | hkept
    · have hnew := fun hmem => h.unused _ (fusedOut_made hf) (List.mem_append_right _ hmem)
      have hgate : f.gateOut ∈ shape.binds f.gate := by simp [binds_gate hg hf]
      have hup : f.upOut ∈ shape.binds f.up := by simp [binds_up hg hf]
      have hgates : f.fusedOut ≠ f.gateOut := fun heq =>
        hnew (List.mem_flatMap.mpr ⟨f.gate, List.mem_of_getElem? hn, heq ▸ hgate⟩)
      have hups : f.fusedOut ≠ f.upOut := fun heq =>
        hnew (List.mem_flatMap.mpr ⟨f.up, List.mem_of_getElem? (of_mem hf).up_at, heq ▸ hup⟩)
      have hboth : f.gateOut ≠ f.upOut := fun heq =>
        gateIdx_ne_upIdx hf hf (index_unique hg.valid hn (of_mem hf).up_at hgate (heq ▸ hup))
      rw [replaced_gate hf]
      change (shape.bound f.block).Nodup
      rw [bound_block hg hf]
      simp [hgates, hups, hboth]
    · rw [replaced_up hf]
      exact List.nodup_nil
    · rw [replaced_kept hkept]
      simpa using (List.nodup_flatMap.mp hg.valid.bound).1 n (List.mem_of_getElem? hn)
  · refine List.pairwise_iff_getElem.mpr fun a b ha hb hlt y hya hyb => ?_
    have hat (k : Nat) (hk : k < g.nodes.zipIdx.length) :
        g.nodes[(g.nodes.zipIdx[k]).2]? = some (g.nodes.zipIdx[k]).1 ∧ (g.nodes.zipIdx[k]).2 = k := by
      simp
    have heq := bound_disjoint hg h (hat a ha).1 (hat b hb).1 hya hyb
    rw [(hat a ha).2, (hat b hb).2] at heq
    omega

/-- The fused model is checked, too. -/
theorem checked_assemble (hg : Checked g) (h : Fresh g)
    (horder : ∀ f ∈ fusions g, f.gateIdx < f.upIdx) : Checked (assemble g (fusions g)) where
  valid := {
    inputs := hg.valid.inputs
    initializers := by
      rw [Model.initializerNames, assemble, List.map_append, List.nodup_append]
      refine ⟨hg.valid.initializers, constNames_nodup h, fun x hx y hy hxy => ?_⟩
      exact h.unused y (const_made hy)
        (List.mem_append_left _ (List.mem_append_right _ (hxy ▸ hx)))
    bound := bound_assemble_nodup hg h
    new := fun x hx hmem => by
      obtain ⟨⟨n, i⟩, hp, hx⟩ := mem_bound_flatMap.mp hx
      rw [known_assemble, List.mem_append] at hmem
      rcases bound_old hg (List.mem_zipIdx_iff_getElem?.mp hp) hx with
        ⟨f, hf, -, rfl⟩ | ⟨k, m, hm, hbinds, -⟩
      · rcases hmem with hmem | hmem
        · exact h.unused _ (fusedOut_made hf) (List.mem_append_left _ hmem)
        · rw [List.map_flatMap] at hmem
          obtain ⟨f', -, hmem⟩ := List.mem_flatMap.mp hmem
          exact fusedOut_not_const f f' hmem
      · have hbound : x ∈ shape.bound g.nodes :=
          List.mem_flatMap.mpr ⟨m, List.mem_of_getElem? hm, hbinds⟩
        rcases hmem with hmem | hmem
        · exact hg.valid.new x hbound hmem
        · exact h.unused x (const_made hmem) (List.mem_append_right _ hbound)
    named := fun hmem => by
      rw [known_assemble, List.mem_append, List.map_flatMap] at hmem
      rcases hmem with hmem | hmem
      · exact hg.valid.named hmem
      · obtain ⟨f, -, hmem⟩ := List.mem_flatMap.mp hmem
        rw [constNames] at hmem
        obtain ⟨ending, hending, heq⟩ := List.mem_map.mp hmem
        refine append_ne (fun hempty => ?_) heq
        exact absurd (hempty ▸ hending) (by decide)
    inScope := inScope_assemble hg horder
    unshadowed := unshadowed_assemble hg h
    outputs := fun x hx => by
      rw [known_assemble]
      rcases List.mem_append.mp (hg.valid.outputs x hx) with hknown | hbound
      · exact List.mem_append_left _ (List.mem_append_left _ hknown)
      · refine List.mem_append_right _ (bound_mono hg
          (fun p hp => List.mem_zipIdx_iff_getElem?.mp hp) (fun f hf _ =>
            List.mem_zipIdx_iff_getElem?.mpr (of_mem hf).gate_at) ?_)
        rwa [List.zipIdx_map_fst] }
  fixed x hx hmem := by
    rw [Model.initializerNames, assemble, List.map_append, List.mem_append] at hmem
    rcases hmem with hmem | hmem
    · exact hg.fixed x hx hmem
    · exact h.unused x (const_made hmem) (List.mem_append_left _ (List.mem_append_left _ hx))
  products n hn ho := by
    obtain ⟨⟨m, i⟩, hp, hn⟩ := List.mem_flatMap.mp hn
    have hm := List.mem_zipIdx_iff_getElem?.mp hp
    rcases node_cases hm with ⟨f, hf, rfl, rfl⟩ | ⟨f, hf, rfl, rfl⟩ | hkept
    · rw [replaced_gate hf] at hn
      have hweight : f.weightName ≠ "" := append_ne (by decide)
      simp only [Fusion.block, List.mem_cons, List.not_mem_nil, or_false] at hn
      rcases hn with rfl | rfl | rfl
      · exact ⟨.inl rfl, ⟨_, _, rfl, (typed hg hf).activation, hweight⟩, _, rfl, fusedOut_ne f⟩
      · exact absurd ho (by simp [Fusion.gateSlice, Fusion.makeNode])
      · exact absurd ho (by simp [Fusion.upSlice, Fusion.makeNode])
    · rw [replaced_up hf] at hn
      cases hn
    · rw [replaced_kept hkept, List.mem_singleton] at hn
      exact hg.products n (List.mem_of_getElem? (hn ▸ hm)) ho

/-- The values of the model are those of the fused model, under the same names. -/
theorem evaluate_assemble (hg : Checked g) (h : Fresh g)
    (horder : ∀ f ∈ fusions g, f.gateIdx < f.upIdx) (ops : Ops Tensor)
    (feed : String → Option Tensor) :
    ∀ x ∈ g.known ++ shape.bound g.nodes, g.evaluate (standardOps ops) feed x =
      (assemble g (fusions g)).evaluate (standardOps ops) feed x := by
  have hv := checked_assemble hg h horder
  have hstored {w : String} {t : Tensor} (hw : g.initializer? w = some t) :
      g.evaluate (standardOps ops) feed w = some t :=
    hg.valid.evaluate_initializer hw
      (fun hin => hg.fixed w hin (lookup_isSome.mp (by rw [← Model.initializer?, hw]; rfl))) _ _
  refine hg.valid.inScope.agree (fun x hx => ?_) fun n hn hreads x hx => ?_
  · have hconst : ((fusions g).flatMap Fusion.consts).lookup x = none :=
      lookup_eq_none.mpr fun hmem => h.unused x (const_made hmem) (List.mem_append_left _ hx)
    have hknown : x ∈ (assemble g (fusions g)).known := by
      rw [known_assemble]
      exact List.mem_append_left _ hx
    have hlookup : (assemble g (fusions g)).initializer? x = g.initializer? x := by
      rw [Model.initializer?, assemble, List.lookup_append, hconst, Option.or_none]
      rfl
    rw [Model.evaluate, Model.evaluate,
      Shape.Meaning.run_of_not_bound fun hb => hg.valid.new x hb hx,
      Shape.Meaning.run_of_not_bound fun hb => hv.valid.new x hb hknown, Model.start, Model.start,
      hlookup]
    rfl
  · obtain ⟨i, hi⟩ := List.mem_iff_getElem?.mp hn
    rw [hg.valid.solves (standardOps ops) feed n hn x hx]
    rcases node_cases hi with ⟨f, hf, rfl, rfl⟩ | ⟨f, hf, rfl, rfl⟩ | hkept
    · obtain ⟨w, hinputs, hne, hw⟩ := (typed hg hf).gate_inputs
      have hactivation := hreads f.activation (mem_reads.mpr
        (.inl ⟨by rw [hinputs]; exact List.mem_cons_self, (typed hg hf).activation⟩))
      rw [binds_gate hg hf, List.mem_singleton] at hx
      rw [hx, exec_product (product_gate hg hf).standard
        (gateLayer?_spec (of_mem hf).gate_layer).1 hinputs (typed hg hf).activation hne
        (typed hg hf).gate_outputs.1 (hstored hw) (of_mem hf).gateW_dims, hactivation,
        evaluate_gateOut hg hv hf]
    · obtain ⟨w, hinputs, hne, hw⟩ := (typed hg hf).up_inputs
      have hactivation := hreads f.activation (mem_reads.mpr
        (.inl ⟨by rw [hinputs]; exact List.mem_cons_self, (typed hg hf).activation⟩))
      rw [binds_up hg hf, List.mem_singleton] at hx
      rw [hx, exec_product (product_up hg hf).standard
        (upLayer?_spec (of_mem hf).up_layer).1 hinputs (typed hg hf).activation hne
        (typed hg hf).up_outputs.1 (hstored hw) (of_mem hf).upW_dims, hactivation,
        evaluate_upOut hg hv hf]
    · have hmem : n ∈ (assemble g (fusions g)).nodes :=
        List.mem_flatMap.mpr ⟨(n, i), List.mem_zipIdx_iff_getElem?.mpr hi, by
          rw [replaced_kept hkept]
          exact List.mem_singleton_self n⟩
      rw [hv.valid.solves (standardOps ops) feed n hmem x hx,
        (standardOps ops).meaning.exec_congr n _ _ hreads]

end Validity

/-- A layer of one hidden unit. -/
def smallLayer : Model Tensor where
  inputs := ["x"]
  initializers := [("wg", ⟨[1, 1], [2], rfl⟩), ("wu", ⟨[1, 1], [3], rfl⟩)]
  nodes :=
    [Fusion.makeNode "MatMul" ["x", "wg"] "g" "/l/mlp/gate_proj/MatMul",
      Fusion.makeNode "MatMul" ["x", "wu"] "u" "/l/mlp/up_proj/MatMul",
      Fusion.makeNode "Mul" ["g", "u"] "y" "/l/mlp/Mul"]
  outputs := ["y"]

theorem checked_smallLayer : Checked smallLayer where
  valid := {
    inputs := List.nodup_singleton "x"
    initializers := show ["wg", "wu"].Nodup by decide
    bound := show ["g", "u", "y"].Nodup by decide
    new := show ∀ x ∈ ["g", "u", "y"], x ∉ ["x", "wg", "wu"] by decide
    named := show "" ∉ ["x", "wg", "wu"] by decide
    inScope := by
      simp [Shape.Scoped, Shape.AtEach, shape, smallLayer, Fusion.makeNode, Model.known,
        Model.initializerNames]
    unshadowed := by simp [Shape.Unshadowed, Shape.AtEach, shape, smallLayer, Fusion.makeNode]
    outputs := show ∀ x ∈ ["y"], x ∈ ["x", "wg", "wu", "g", "u", "y"] by decide }
  fixed := show ∀ x ∈ ["x"], x ∉ ["wg", "wu"] by decide
  products n hn ho := by
    simp only [smallLayer, List.mem_cons, List.not_mem_nil, or_false] at hn
    rcases hn with rfl | rfl | rfl
    · exact ⟨.inl rfl, ⟨_, _, rfl, by decide, by decide⟩, _, rfl, by decide⟩
    · exact ⟨.inl rfl, ⟨_, _, rfl, by decide, by decide⟩, _, rfl, by decide⟩
    · exact absurd ho (by decide)

end JetsonVoice.Tts.GateUp
