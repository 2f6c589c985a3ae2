import JetsonVoice.W8A16.Quantize

/-!
# Rewriting MatMul nodes from calibrated weights

The `MatMul` nodes of a graph are counted through, and each of the first ones gets
the calibrated weight of its slot: seven for each layer, in a fixed order. Its
activation is scaled by the inverse of the calibration before the plugin.

## Implementation notes

`none` stands for an exception, a mismatch of shapes among them. The dictionaries of
the layers are functions: the loader fails unless every one is complete.
-/

namespace JetsonVoice.W8A16.Awq

open Onnx Onnx.Tensor Foundation.DerivedNames

section Rewriter

inductive LayerOp where
  | qProj
  | kProj
  | vProj
  | oProj
  | gateProj
  | upProj
  | downProj
  deriving DecidableEq

/-- `LAYER_OP_ORDER`. -/
def layerOpOrder : List LayerOp := [.qProj, .kProj, .vProj, .oProj, .gateProj, .upProj, .downProj]

/-- The calibrated tensors of one operator: `W [N, K]`, `_amax` and `_pre_quant_scale`. -/
structure OpQuant where
  weightHf : Tensor
  amax : Tensor
  pqs : Tensor

/-- `_compute_per_output_int8`; division by zero is an error. -/
def computePerOutputInt8? (x : OpQuant) : Option (Tensor × Tensor) :=
  match x.weightHf.dims with
  | [outDim, inDim] =>
      if x.pqs.dims ≠ [inDim] then none
      else if outDim = 0 ∨ x.amax.data.length % outDim ≠ 0 then none
      else
        let numGroups := x.amax.data.length / outDim
        if numGroups = 0 ∨ inDim % numGroups ≠ 0 then none
        else
          let perOutputAmax := fun o =>
            let row := (List.range numGroups).map fun group => x.amax.flat (o * numGroups + group)
            row.max?.getD 0
          let scale := fun o => if 0 < perOutputAmax o / 127 then perOutputAmax o / 127 else 1
          let qweightNk := ofFn [outDim, inDim] fun i =>
            toInt8 (x.weightHf.flat i * x.pqs.flat (i % inDim) / scale (i / inDim))
          some (qweightNk.transposed, ofFn [outDim] scale)
  | _ => none

/-- `1.0 / pqs`. -/
def inversePqs (pqs : Tensor) : Tensor := ofFn pqs.dims fun i => 1 / pqs.flat i

structure Options where
  domain : String
  castPluginInputsToFp16 : Bool
  castPluginOutputsToFp32 : Bool

/-- The calibrated tensors by the position of their node. -/
def slots (layerQuant : List (LayerOp → OpQuant)) : List OpQuant :=
  layerQuant.flatMap fun layer => layerOpOrder.map layer

/-- The shape check of one slot: the node's weight is stored, with the transposed shape. -/
def slotMatches (g : Graph) (n : Node) (slot : OpQuant) : Bool :=
  match n.inputs[1]?, slot.weightHf.dims with
  | some weightName, d₀ :: d₁ :: _ =>
      (g.initializer? weightName).map Tensor.dims = some [d₁, d₀]
  | _, _ => false

/-- The name new names start with. -/
def safeName (pos : Nat) (n : Node) : String :=
  let output := n.outputs.headD ""
  let name := if n.name ≠ "" then n.name else if output ≠ "" then output else "mm_" ++ toString pos
  String.ofList ((sanitised name).toList.dropWhile (· = '_'))

def convertedSite (o : Options) (n : Node) (safeName activation output : String)
    (outDim inDim : Nat) (qweight scales invPqs : Tensor) : Site where
  safeName := safeName
  activation := activation
  stages :=
    ⟨safeName ++ "_w8a16_pqs_mul", "Mul", "", [safeName ++ "_w8a16_inv_pqs"], [],
      safeName ++ "_w8a16_smoothed_act"⟩ ::
    ((if o.castPluginInputsToFp16 then
      [castStage (safeName ++ "_w8a16_cast_act_fp16") (safeName ++ "_w8a16_act_fp16") float16]
    else []) ++
    pluginStage n o.domain (safeName ++ "_w8a16_qweight") (safeName ++ "_w8a16_scales")
      (if o.castPluginOutputsToFp32 then safeName ++ "_w8a16_out_fp16" else output) outDim inDim ::
    if o.castPluginOutputsToFp32 then
      [castStage (safeName ++ "_w8a16_cast_out_fp32") output float32]
    else [])
  consts := [(safeName ++ "_w8a16_qweight", qweight), (safeName ++ "_w8a16_scales", scales),
    (safeName ++ "_w8a16_inv_pqs", invPqs)]
  smoothing := some invPqs
  dequantised := dequantised inDim outDim qweight scales

/-- What the loop of `rewrite_model` does to the `MatMul` node at a position. -/
def step? (o : Options) (ops : List OpQuant) (pos : Nat) (n : Node) : Option Step :=
  match ops[pos]? with
  | none => some ⟨n, none⟩
  | some x =>
      match x.weightHf.dims, n.inputs, n.outputs with
      | [outDim, inDim], activation :: _ :: _, output :: _ =>
          (computePerOutputInt8? x).map fun r =>
            ⟨n, some (convertedSite o n (safeName pos n) activation output outDim inDim r.1 r.2
              (inversePqs x.pqs))⟩
      | _, _, _ => none

def planLoop? (o : Options) (ops : List OpQuant) (mmSeen : Nat) : List Node → Option (List Step)
  | [] => some []
  | n :: ns =>
      if n.opType ≠ "MatMul" then do
        let rest ← planLoop? o ops mmSeen ns
        return ⟨n, none⟩ :: rest
      else do
        let s ← step? o ops mmSeen n
        let rest ← planLoop? o ops (mmSeen + 1) ns
        return s :: rest

def plan? (o : Options) (layerQuant : List (LayerOp → OpQuant)) (g : Graph) :
    Option (List Step) :=
  let mmNodes := g.nodes.filter fun n => n.opType = "MatMul"
  if mmNodes.length < (slots layerQuant).length then none
  else if (mmNodes.zip (slots layerQuant)).all (fun p => slotMatches g p.1 p.2) then
    planLoop? o (slots layerQuant) 0 g.nodes
  else none

/-- Whether an initializer is kept: it is no weight of a converted node, or a node still
reads it. -/
def keepsWeight (plan : List Step) (x : String) : Bool :=
  !(plan.any fun s => s.site.isSome && s.node.inputs[1]? = some x) ||
    (plan.flatMap Step.block).any fun n => n.inputs.contains x

/-- `rewrite_model`. -/
def rewriteModel? (o : Options) (layerQuant : List (LayerOp → OpQuant)) (g : Graph) :
    Option Graph :=
  (plan? o layerQuant g).map fun plan => assemble g (keepsWeight plan) plan

end Rewriter

section Sites
variable {o : Options} {g : Graph} {n : Node} {pos : Nat} {plan : List Step} {s : Step}
  {site : Site} {stem activation output : String} {outDim inDim : Nat} {q sc inv : Tensor}
  {x : OpQuant} {ops : List OpQuant} {layerQuant : List (LayerOp → OpQuant)}

/-- The endings of the names a conversion makes up. -/
def endings (o : Options) : List String :=
  ["_w8a16_qweight", "_w8a16_scales", "_w8a16_inv_pqs", "_w8a16_smoothed_act"] ++
    (if o.castPluginInputsToFp16 then ["_w8a16_act_fp16"] else []) ++
    if o.castPluginOutputsToFp32 then ["_w8a16_out_fp16"] else []

theorem separate_endings (o : Options) : Separate ((endings o).map String.toList) := by
  rw [endings]
  cases o.castPluginInputsToFp16 <;> cases o.castPluginOutputsToFp32 <;> decide

theorem made_convertedSite :
    (Step.mk n (some (convertedSite o n stem activation output outDim inDim q sc inv))).made =
      names (endings o) stem := by
  rw [Step.made, Step.consts, Step.temps, convertedSite, names, endings]
  cases o.castPluginInputsToFp16 <;> cases o.castPluginOutputsToFp32 <;> rfl

theorem getLast?_convertedSite :
    (convertedSite o n stem activation output outDim inDim q sc inv).stages.getLast?.map
      Stage.output = some output := by
  rw [convertedSite]
  cases o.castPluginInputsToFp16 <;> cases o.castPluginOutputsToFp32 <;> rfl

theorem stages_convertedSite :
    let site := convertedSite o n stem activation output outDim inDim q sc inv
    ∀ st ∈ site.stages, st.opType ≠ "MatMul" ∧ ∀ x ∈ st.extra, x ∈ site.consts.map Prod.fst := by
  rw [convertedSite]
  cases o.castPluginInputsToFp16 <;> cases o.castPluginOutputsToFp32 <;>
    simp [castStage, pluginStage]

theorem lookup_invPqs (stem : String) (q sc inv : Tensor) :
    let consts := [(stem ++ "_w8a16_qweight", q), (stem ++ "_w8a16_scales", sc),
      (stem ++ "_w8a16_inv_pqs", inv)]
    [stem ++ "_w8a16_inv_pqs"].map (fun x => consts.lookup x) = [some inv] := by
  have hq : stem ++ "_w8a16_inv_pqs" ≠ stem ++ "_w8a16_qweight" := append_ne (by decide) stem
  have hs : stem ++ "_w8a16_inv_pqs" ≠ stem ++ "_w8a16_scales" := append_ne (by decide) stem
  simp [List.lookup_cons, beq_false_of_ne hq, beq_false_of_ne hs]

/-- The chain scales its activation and multiplies it with the dequantised weight. -/
theorem chainValue_convertedSite (hq : q.dims = [inDim, outDim]) (hs : sc.dims = [outDim])
    (I : Interp) (v : Option Tensor) :
    let site := convertedSite o n stem activation output outDim inDim q sc inv
    chainValue I site.consts site.stages v =
      (site.smooth I v).bind fun a => matmul? a site.dequantised := by
  rw [convertedSite]
  dsimp only
  rw [chainValue, lookup_invPqs, chainValue_append, chainValue_casts (Or.inl rfl), chainValue,
    chainValue_casts (Or.inr rfl)]
  change stageValue I _ _ ([_, _].map _) = _
  rw [lookup_stored, stageValue_plugin hq hs]
  rfl

theorem dims_computePerOutputInt8? (hw : x.weightHf.dims = [outDim, inDim])
    (h : computePerOutputInt8? x = some (q, sc)) :
    q.dims = [inDim, outDim] ∧ sc.dims = [outDim] := by
  rw [computePerOutputInt8?, hw] at h
  dsimp only at h
  split at h
  · cases h
  · split at h
    · cases h
    · split at h
      · cases h
      · obtain ⟨rfl, rfl⟩ := Prod.mk.inj (Option.some.inj h)
        exact ⟨dims_transposed rfl, rfl⟩

theorem step?_node (h : step? o ops pos n = some s) : s.node = n := by
  rw [step?] at h
  split at h
  · cases h
    rfl
  · split at h
    · obtain ⟨r, -, rfl⟩ := Option.map_eq_some_iff.mp h
      rfl
    · cases h

/-- A step of the loop leaves a node alone or converts it with the tensors of its slot. -/
theorem step?_site (h : step? o ops pos n = some s) (hsite : s.site = some site) :
    ∃ x outDim inDim activation weightName rest output q sc, ops[pos]? = some x ∧
      x.weightHf.dims = [outDim, inDim] ∧ n.inputs = activation :: weightName :: rest ∧
      n.outputs.head? = some output ∧ computePerOutputInt8? x = some (q, sc) ∧
      site = convertedSite o n (safeName pos n) activation output outDim inDim q sc
        (inversePqs x.pqs) := by
  rw [step?] at h
  split at h
  · cases h
    cases hsite
  · rename_i x hx
    split at h
    · rename_i outDim inDim activation weightName rest output others hd hin hout
      obtain ⟨⟨q, sc⟩, hq, rfl⟩ := Option.map_eq_some_iff.mp h
      obtain rfl := Option.some.inj hsite
      exact ⟨x, outDim, inDim, activation, weightName, rest, output, q, sc, hx, hd, hin,
        by rw [hout]; rfl, hq, rfl⟩
    · cases h

theorem planLoop?_spec {ns : List Node} (h : planLoop? o ops pos ns = some plan) :
    plan.map Step.node = ns ∧ ∀ s ∈ plan, s.site = none ∨
      s.node.opType = "MatMul" ∧ ∃ i, step? o ops i s.node = some s := by
  induction ns generalizing pos plan with
  | nil =>
      cases h
      exact ⟨rfl, fun s hs => (List.not_mem_nil hs).elim⟩
  | cons n ns ih =>
      rw [planLoop?] at h
      split at h
      · obtain ⟨rest, hrest, h⟩ := Option.bind_eq_some_iff.mp h
        cases h
        obtain ⟨hnodes, hsteps⟩ := ih hrest
        refine ⟨by rw [List.map_cons, hnodes], fun t ht => ?_⟩
        rcases List.mem_cons.mp ht with rfl | ht
        · exact Or.inl rfl
        · exact hsteps t ht
      · rename_i hop
        obtain ⟨s, hs, h⟩ := Option.bind_eq_some_iff.mp h
        obtain ⟨rest, hrest, h⟩ := Option.bind_eq_some_iff.mp h
        cases h
        obtain ⟨hnodes, hsteps⟩ := ih hrest
        have hnode := step?_node hs
        refine ⟨by rw [List.map_cons, hnodes, hnode], fun t ht => ?_⟩
        rcases List.mem_cons.mp ht with rfl | ht
        · exact Or.inr ⟨hnode ▸ not_not.mp hop, pos, hnode ▸ hs⟩
        · exact hsteps t ht

/-- A converted node's activation is read by the first node of its chain. -/
theorem keepsWeight_activation (hs : s ∈ plan) (hsite : s.site = some site)
    (hne : site.stages ≠ []) : keepsWeight plan site.activation = true := by
  rw [keepsWeight, Bool.or_eq_true_iff]
  right
  rw [List.any_eq_true]
  cases hstages : site.stages with
  | nil => exact absurd hstages hne
  | cons st rest =>
      refine ⟨st.node site.activation, List.mem_flatMap.mpr ⟨s, hs, ?_⟩, ?_⟩
      · rw [Step.block, hsite]
        change st.node site.activation ∈ chain site.activation site.stages
        rw [hstages]
        exact List.mem_cons_self
      · simp [Stage.node]

theorem planned (h : plan? o layerQuant g = some plan) :
    Planned g (keepsWeight plan) (endings o) plan := by
  have hloop : planLoop? o (slots layerQuant) 0 g.nodes = some plan := by
    rw [plan?] at h
    split at h
    · cases h
    · split at h
      · exact h
      · cases h
  obtain ⟨hnodes, hsteps⟩ := planLoop?_spec hloop
  refine ⟨hnodes, separate_endings o, ⟨by simp [endings], ?_⟩, fun s hs site hsite => ?_⟩
  · rw [endings]
    cases o.castPluginInputsToFp16 <;> cases o.castPluginOutputsToFp32 <;> decide
  · rcases hsteps s hs with hnone | ⟨hop, i, hi⟩
    · rw [hsite] at hnone
      cases hnone
    · obtain ⟨x, outDim, inDim, activation, weightName, rest, output, q, sc, -, hd, hin, hout, hq,
        rfl⟩ := step?_site hi hsite
      obtain ⟨hqd, hsd⟩ := dims_computePerOutputInt8? hd hq
      exact {
        matMul := hop
        inputs := ⟨weightName, rest, hin⟩
        output := fun y hy => by
          rw [hy] at hout
          cases hout
          exact getLast?_convertedSite
        stages := stages_convertedSite
        made := made_convertedSite
        kept := fun _ => keepsWeight_activation hs hsite (List.cons_ne_nil _ _)
        matrix := rfl
        computes := fun I v => chainValue_convertedSite hqd hsd I v }

end Sites

end JetsonVoice.W8A16.Awq
