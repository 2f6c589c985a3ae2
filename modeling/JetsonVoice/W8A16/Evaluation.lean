import JetsonVoice.Onnx.Graph
import JetsonVoice.W8A16.Kernels

/-!
# Evaluating graphs with W8A16 nodes

The plugin's node runs the kernels on its operands in the layout it declares; over
whole graphs it means the sums they compute. `MatMul` with a matrix, casts to a
float format and the scaling of the last axis have their meaning over exact
arithmetic; every other operator is a parameter.

## Implementation notes

The plugin takes activations of rank two and three only. That is left out here:
its node means the sum of its products whatever the rank of the activation.
-/

namespace JetsonVoice.W8A16

open Onnx Onnx.Tensor

/-- The attributes of `W8A16LinearPlugin`. -/
structure PluginAttrs where
  gemmN : Int
  gemmK : Int
  scaleMode : Int
  groupSize : Int
  weightLayout : Int
  deriving DecidableEq

def pluginAttrs (n : Node) : PluginAttrs where
  gemmN := n.attrInt "gemm_n" 0
  gemmK := n.attrInt "gemm_k" 0
  scaleMode := n.attrInt "scale_mode" 0
  groupSize := n.attrInt "group_size" 0
  weightLayout := n.attrInt "weight_layout" 0

def intDims (t : Tensor) : List Int := t.dims.map Int.ofNat

/-- `supportsFormatCombination` on the dimensions of the operands. -/
def PluginAttrs.supports (p : PluginAttrs) (a q s : Tensor) : Bool :=
  (intDims a).getLast? = some p.gemmK &&
    intDims q = (if p.weightLayout = 1 then [p.gemmN, p.gemmK] else [p.gemmK, p.gemmN]) &&
    intDims s = [p.gemmN]

/-- What the plugin's node computes; there is nothing to write when it has no output. -/
def w8a16Linear? (env : KernelEnv) (p : PluginAttrs) (a q s : Tensor) : Option Tensor :=
  if p.supports a q s then
    let lead := a.dims.dropLast
    let n := p.gemmN.toNat
    if lead.prod * n = 0 then some (ofFn (lead ++ [n]) fun _ => 0)
    else
      (w8a16LinearForward ⟨a.flat, q.flat, s.flat⟩ n p.gemmK.toNat env lead.prod p.scaleMode
        p.groupSize p.weightLayout).map fun out => ofFn (lead ++ [n]) fun i => out (i / n) (i % n)
  else none

/-- What the plugin's node means: sums of an activation times a weight and its scale. -/
def linearSum? (p : PluginAttrs) (a q s : Tensor) : Option Tensor :=
  if p.supports a q s then
    let n := p.gemmN.toNat
    let k := p.gemmK.toNat
    some (ofFn (a.dims.dropLast ++ [n]) fun i => ∑ kk ∈ Finset.range k,
      a.flat (i / n * k + kk) * q.flat (weightIndex p.weightLayout n k kk (i % n)) *
        s.flat (i % n))
  else none

/-- `_dequant_weight`. -/
def dequantWeight? (qweight scales : Tensor) (layout : Int) : Option Tensor :=
  match qweight.dims with
  | [r, c] =>
      if layout = 0 then
        if scales.data.length = c then
          some (ofFn [r, c] fun i => qweight.flat i * scales.flat (i % c))
        else none
      else if layout = 1 then
        if scales.data.length = r then
          some (ofFn [r, c] fun i => qweight.flat i * scales.flat (i / c)).transposed
        else none
      else none
  | _ => none

section Product
variable {a q s w : Tensor} {p : PluginAttrs} {n k : Nat}

theorem flat_dequant_zero (hw : dequantWeight? q s 0 = some w) (hq : q.dims = [k, n]) :
    w.dims = [k, n] ∧ ∀ i < k, ∀ j < n, w.flat (i * n + j) = q.flat (i * n + j) * s.flat j := by
  rw [dequantWeight?, hq] at hw
  simp only [if_true] at hw
  split at hw
  · cases hw
    refine ⟨rfl, fun i hi j hj => ?_⟩
    rw [flat_ofFn (index_lt hi hj), Nat.mul_add_mod_self_right, Nat.mod_eq_of_lt hj]
  · cases hw

theorem flat_dequant_one (hw : dequantWeight? q s 1 = some w) (hq : q.dims = [n, k]) :
    w.dims = [k, n] ∧ ∀ i < k, ∀ j < n, w.flat (i * n + j) = q.flat (j * k + i) * s.flat j := by
  rw [dequantWeight?, hq] at hw
  simp only [one_ne_zero, if_false, if_true] at hw
  split at hw
  · cases hw
    refine ⟨dims_transposed rfl, fun i hi j hj => ?_⟩
    rw [flat_transposed rfl hi hj, flat_ofFn (index_lt hj hi), Nat.mul_comm j k,
      Nat.mul_add_div (by omega), Nat.div_eq_of_lt hi, Nat.add_zero]
  · cases hw

/-- The plugin accepts weights and scales that fit its attributes, with an activation
whose last axis fits them. -/
theorem supports_iff (hn : p.gemmN = n) (hk : p.gemmK = k)
    (hq : q.dims = if p.weightLayout = 1 then [n, k] else [k, n]) (hs : s.dims = [n]) :
    p.supports a q s = true ↔ a.dims.getLast? = some k := by
  have hlast : (intDims a).getLast? = some (k : Int) ↔ a.dims.getLast? = some k := by
    rw [intDims, List.getLast?_map, Option.map_eq_some_iff]
    constructor
    · rintro ⟨d, hd, hdk⟩
      rw [hd, Int.ofNat.inj hdk]
    · intro h
      exact ⟨k, h, rfl⟩
  have hqd : intDims q = if p.weightLayout = 1 then [(n : Int), k] else [(k : Int), n] := by
    rw [intDims, hq]
    split <;> rfl
  have hsd : intDims s = [(n : Int)] := by
    rw [intDims, hs]
    rfl
  simp [PluginAttrs.supports, hn, hk, hqd, hsd, hlast]

/-- The dequantised weight of either layout at the places of a matrix `[K, N]`. -/
theorem flat_dequantWeight? (hq : q.dims = if p.weightLayout = 1 then [n, k] else [k, n])
    (hw : dequantWeight? q s p.weightLayout = some w) :
    w.dims = [k, n] ∧ ∀ i < k, ∀ j < n,
      w.flat (i * n + j) = q.flat (weightIndex p.weightLayout n k i j) * s.flat j := by
  have hlayout : p.weightLayout = 0 ∨ p.weightLayout = 1 := by
    by_contra h
    rw [not_or] at h
    rw [dequantWeight?] at hw
    split at hw
    · simp [h.1, h.2] at hw
    · cases hw
  rcases hlayout with h | h
  · rw [h] at hw hq
    obtain ⟨hd, hf⟩ := flat_dequant_zero hw hq
    exact ⟨hd, fun i hi j hj => by rw [hf i hi j hj, h]; rfl⟩
  · rw [h] at hw hq
    obtain ⟨hd, hf⟩ := flat_dequant_one hw hq
    exact ⟨hd, fun i hi j hj => by rw [hf i hi j hj, h]; rfl⟩

/-- What the plugin's node means is the product with its dequantised weight. -/
theorem linearSum?_eq_matmul? (hn : p.gemmN = n) (hk : p.gemmK = k)
    (hq : q.dims = if p.weightLayout = 1 then [n, k] else [k, n]) (hs : s.dims = [n])
    (hw : dequantWeight? q s p.weightLayout = some w) : linearSum? p a q s = matmul? a w := by
  obtain ⟨hd, hflat⟩ := flat_dequantWeight? hq hw
  rw [linearSum?, matmul?_eq hd]
  by_cases hlast : a.dims.getLast? = some k
  · rw [if_pos ((supports_iff hn hk hq hs).mpr hlast), if_pos hlast, hn, hk]
    simp only [Int.toNat_natCast]
    congr 1
    refine ofFn_congr fun i hi => Finset.sum_congr rfl fun kk hkk => ?_
    rw [List.prod_append, List.prod_singleton] at hi
    have hnpos : 0 < n := Nat.pos_of_ne_zero fun h => by simp [h] at hi
    rw [hflat kk (Finset.mem_range.mp hkk) _ (Nat.mod_lt i hnpos), mul_assoc]
  · rw [if_neg (by simpa [supports_iff hn hk hq hs] using hlast), if_neg hlast]

/-- The node of the plugin is the product with its dequantised weight. -/
theorem w8a16Linear?_eq_matmul? {env : KernelEnv} (hn : p.gemmN = n) (hk : p.gemmK = k)
    (hmode : p.scaleMode = 0) (hgroup : p.groupSize = 0 ∨ p.groupSize = 1 ∨ p.groupSize = k)
    (hpos : 0 < k ∨ n = 0) (hq : q.dims = if p.weightLayout = 1 then [n, k] else [k, n])
    (hs : s.dims = [n]) (hw : dequantWeight? q s p.weightLayout = some w) :
    w8a16Linear? env p a q s = matmul? a w := by
  obtain ⟨hd, hflat⟩ := flat_dequantWeight? hq hw
  rw [w8a16Linear?, matmul?_eq hd]
  by_cases hlast : a.dims.getLast? = some k
  · rw [if_pos ((supports_iff hn hk hq hs).mpr hlast), if_pos hlast, hn, hk]
    simp only [Int.toNat_natCast]
    split
    · rename_i hzero
      congr 1
      refine ofFn_congr fun i hi => ?_
      rw [List.prod_append, List.prod_singleton, hzero] at hi
      exact absurd hi (Nat.not_lt_zero i)
    · rename_i hne
      have hm : 0 < a.dims.dropLast.prod := Nat.pos_of_ne_zero fun h => hne (by simp [h])
      have hnpos : 0 < n := Nat.pos_of_ne_zero fun h => hne (by simp [h])
      obtain ⟨out, hout, heq⟩ := w8a16LinearForward_eq (x := ⟨a.flat, q.flat, s.flat⟩) env hm hnpos
        (hpos.resolve_right (by omega)) hmode hgroup
      rw [hout, Option.map_some]
      congr 1
      refine ofFn_congr fun i hi => ?_
      rw [List.prod_append, List.prod_singleton] at hi
      have hrow : i / n < a.dims.dropLast.prod := (Nat.div_lt_iff_lt_mul hnpos).mpr hi
      have hcol : i % n < n := Nat.mod_lt i hnpos
      rw [heq _ hrow _ hcol, product, Finset.sum_mul]
      refine Finset.sum_congr rfl fun kk hkk => ?_
      rw [hflat kk (Finset.mem_range.mp hkk) _ hcol, mul_assoc]
  · rw [if_neg (by simpa [supports_iff hn hk hq hs] using hlast), if_neg hlast]

/-- The kernels compute what the plugin's node means, unless there is nothing to add up. -/
theorem w8a16Linear?_eq_linearSum? {env : KernelEnv} (hn : p.gemmN = n) (hk : p.gemmK = k)
    (hmode : p.scaleMode = 0) (hgroup : p.groupSize = 0 ∨ p.groupSize = 1 ∨ p.groupSize = k)
    (hpos : 0 < k ∨ n = 0) (hq : q.dims = if p.weightLayout = 1 then [n, k] else [k, n])
    (hs : s.dims = [n]) (hw : dequantWeight? q s p.weightLayout = some w) :
    w8a16Linear? env p a q s = linearSum? p a q s := by
  rw [w8a16Linear?_eq_matmul? hn hk hmode hgroup hpos hq hs hw,
    linearSum?_eq_matmul? hn hk hq hs hw]

end Product

section Nodes

/-- What a node's meaning may depend on beside its operands: not its name or the
names of its values. -/
structure Operator where
  opType : String
  domain : String
  attributes : List (String × Attr)
  captures : List String
  inner : List String
  deriving DecidableEq

def operator (n : Node) : Operator := ⟨n.opType, n.domain, n.attributes, n.captures, n.inner⟩

/-- The kernels' environment and the meaning of every other operator. -/
structure Interp where
  env : KernelEnv
  ops : Operator → List (Option Tensor) → List (Option Tensor) → List (Option Tensor)

/-- A tensor scaled along its last axis. -/
def mulLast? (a v : Tensor) : Option Tensor :=
  match v.dims with
  | [k] => if a.dims.getLast? = some k then some (ofFn a.dims fun i => a.flat i * v.flat (i % k))
      else none
  | _ => none

def linearOf (I : Interp) (n : Node) : List (Option Tensor) → Option Tensor
  | [some a, some q, some s] => w8a16Linear? I.env (pluginAttrs n) a q s
  | _ => none

/-- `Mul` of two operands. -/
def mulOf (I : Interp) (o : Operator) (a v : Option Tensor) : Option Tensor :=
  match a, v with
  | some a, some v => (mulLast? a v).or (I.ops o [some a, some v] []).head?.join
  | _, _ => none

/-- The casts to `FLOAT` and `FLOAT16`. -/
def castsToFloat (n : Node) : Bool := n.attrInt "to" 0 = 1 || n.attrInt "to" 0 = 10

/-- The values a node computes from its operands and from what its bodies read. -/
def applyNode (I : Interp) (n : Node) (args caps : List (Option Tensor)) : List (Option Tensor) :=
  if n.opType = "W8A16LinearPlugin" then [linearOf I n args]
  else if n.isStandard && n.opType = "MatMul" then
    match args with
    | [a, some w] =>
        if w.dims.length = 2 then [a.bind (matmul? · w)] else I.ops (operator n) args caps
    | _ => I.ops (operator n) args caps
  else if n.isStandard && n.opType = "Cast" && castsToFloat n then
    match args with
    | [a] => [a]
    | _ => I.ops (operator n) args caps
  else if n.isStandard && n.opType = "Mul" then
    match args with
    | [a, v] => [mulOf I (operator n) a v]
    | _ => I.ops (operator n) args caps
  else I.ops (operator n) args caps

/-- The value of an operand; one that is left out has none. -/
def operand (e : String → Option Tensor) (x : String) : Option Tensor :=
  if x = "" then none else e x

/-- What the values of a node are when those of its operands give them. -/
def execWith (apply : List (Option Tensor) → List (Option Tensor) → List (Option Tensor))
    (n : Node) (e : String → Option Tensor) (x : String) : Option Tensor :=
  ((n.outputs.zip (apply (n.inputs.map (operand e)) (n.captures.map e))).lookup x).join

theorem execWith_congr {apply : List (Option Tensor) → List (Option Tensor) → List (Option Tensor)}
    {n : Node} {e e' : String → Option Tensor} (h : ∀ x ∈ shape.reads n, e x = e' x) :
    execWith apply n e = execWith apply n e' := by
  have hin : n.inputs.map (operand e) = n.inputs.map (operand e') := by
    refine List.map_congr_left fun x hx => ?_
    by_cases hne : x = ""
    · simp [operand, hne]
    · simp only [operand, if_neg hne]
      exact h x (mem_reads.mpr (Or.inl ⟨hx, hne⟩))
  have hcap : n.captures.map e = n.captures.map e' :=
    List.map_congr_left fun x hx => h x (mem_reads.mpr (Or.inr hx))
  funext x
  rw [execWith, execWith, hin, hcap]

/-- The plugin on its operands. -/
def sumOf (n : Node) : List (Option Tensor) → Option Tensor
  | [some a, some q, some s] => linearSum? (pluginAttrs n) a q s
  | _ => none

/-- The values a node computes, where the plugin means its sums. -/
def applySum (I : Interp) (n : Node) (args caps : List (Option Tensor)) : List (Option Tensor) :=
  if n.opType = "W8A16LinearPlugin" then [sumOf n args] else applyNode I n args caps

def sumMeaning (I : Interp) : shape.Meaning Tensor where
  exec n := execWith (applySum I n) n
  exec_congr _ _ _ h := execWith_congr h

/-- All values of a run of a graph, where the plugin means its sums. -/
def evaluateSums (I : Interp) (g : Graph) (feed : String → Option Tensor) :
    String → Option Tensor :=
  (sumMeaning I).run (g.start feed) g.nodes

/-- What a node computes from an activation, with its other operands stored in the graph. -/
def nodeProduct (I : Interp) (g : Graph) (n : Node) (a : Tensor) : Option Tensor :=
  match n.inputs with
  | _ :: rest => (applyNode I n (some a :: rest.map g.initializer?) []).head?.join
  | [] => none

end Nodes

end JetsonVoice.W8A16
