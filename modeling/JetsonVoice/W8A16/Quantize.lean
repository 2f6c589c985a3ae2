import JetsonVoice.W8A16.Rewriting
import Mathlib.Algebra.Order.BigOperators.Group.List
import Mathlib.Data.Rat.Floor
import Mathlib.Tactic.Linarith
import Mathlib.Tactic.Ring

/-!
# Rewriting MatMul nodes to W8A16LinearPlugin

The rewriter quantises the constant matrix of every `MatMul` node its options
select, with one scale for each output, and drops a weight when it counts as many
conversions as reads of it.

## Implementation notes

A pattern is given by the texts it is found in. `none` stands for an exception.
-/

namespace JetsonVoice.W8A16

open Onnx Onnx.Tensor Foundation.DerivedNames

section Numbers

/-- `np.rint`: the nearest integer, and of two the even one. -/
def rint (x : ℚ) : Int :=
  let f := ⌊x⌋
  if x - f < 1 / 2 then f
  else if 1 / 2 < x - f then f + 1
  else if f % 2 = 0 then f
  else f + 1

/-- `np.clip(np.rint(x), -128, 127)`. -/
def toInt8 (x : ℚ) : ℚ := (max (-128) (min 127 (rint x)) : Int)

/-- The scale of an output with values up to a given size. -/
def outputScale (amax : ℚ) : ℚ := if amax / 127 = 0 then 1 else amax / 127

/-- `quantize_per_output_int8`; the largest of no numbers is an error. -/
def quantizePerOutputInt8? (weight : Tensor) : Option (Tensor × Tensor) :=
  match weight.dims with
  | [k, n] =>
      if k = 0 ∧ n ≠ 0 then none
      else
        let amax := fun j => ((List.range k).map fun i => |weight.flat (i * n + j)|).foldr max 0
        let scales := fun j => outputScale (amax j)
        some (ofFn [k, n] fun i => toInt8 (weight.flat i / scales (i % n)), ofFn [n] scales)
  | _ => none

/-- A weight `[K, N]` from its quantised numbers and its scales. -/
def dequantised (k n : Nat) (q s : Tensor) : Tensor :=
  ofFn [k, n] fun i => q.flat i * s.flat (i % n)

section Errors
variable {x : ℚ} {k n i j : Nat} {weight q s : Tensor}

theorem abs_sub_rint_le (x : ℚ) : |x - rint x| ≤ 1 / 2 := by
  have hlo := Int.floor_le x
  have hhi := Int.lt_floor_add_one x
  rw [rint, abs_le]
  split
  · constructor <;> linarith
  · split
    · push_cast
      constructor <;> linarith
    · split
      · constructor <;> linarith
      · push_cast
        constructor <;> linarith

/-- A number between the ends of the symmetric range is not clipped. -/
theorem toInt8_eq_rint (h : |x| ≤ 127) :
    toInt8 x = rint x ∧ -127 ≤ rint x ∧ rint x ≤ 127 := by
  obtain ⟨hlo, hhi⟩ := abs_le.mp (abs_sub_rint_le x)
  obtain ⟨hxlo, hxhi⟩ := abs_le.mp h
  have hupper : rint x < 128 := by
    have : (rint x : ℚ) < 128 := by linarith
    exact_mod_cast this
  have hlower : -128 < rint x := by
    have : (-128 : ℚ) < rint x := by linarith
    exact_mod_cast this
  have hclip : max (-128) (min 127 (rint x)) = rint x := by omega
  exact ⟨by rw [toInt8, hclip], by omega, by omega⟩

theorem abs_sub_toInt8_le (h : |x| ≤ 127) : |x - toInt8 x| ≤ 1 / 2 := by
  rw [(toInt8_eq_rint h).1]
  exact abs_sub_rint_le x

theorem le_foldr_max {xs : List ℚ} (hx : x ∈ xs) : x ≤ xs.foldr max 0 := by
  induction xs with
  | nil => cases hx
  | cons y ys ih =>
      rw [List.foldr_cons]
      rcases List.mem_cons.mp hx with rfl | hx
      · exact le_max_left _ _
      · exact (ih hx).trans (le_max_right _ _)

/-- A scale is positive, and no value of its size is more than 127 scales. -/
theorem outputScale_spec {amax : ℚ} (h : 0 ≤ amax) :
    0 < outputScale amax ∧ amax ≤ 127 * outputScale amax := by
  rw [outputScale]
  split
  · rename_i hzero
    constructor <;> linarith
  · rename_i hne
    have hpos : 0 < amax / 127 := lt_of_le_of_ne (by linarith) (Ne.symm hne)
    exact ⟨hpos, by linarith⟩

/-- A quantised weight differs from the weight by half a scale at most. -/
theorem quantised_close (hw : weight.dims = [k, n])
    (h : quantizePerOutputInt8? weight = some (q, s)) (hi : i < k) (hj : j < n) :
    |weight.flat (i * n + j) - (dequantised k n q s).flat (i * n + j)| ≤ s.flat j / 2 := by
  rw [quantizePerOutputInt8?, hw] at h
  dsimp only at h
  split at h
  · cases h
  · obtain ⟨rfl, rfl⟩ := Prod.mk.inj (Option.some.inj h)
    have hjn : j < [n].prod := by simpa using hj
    rw [dequantised, flat_ofFn (index_lt hi hj), flat_ofFn (index_lt hi hj),
      Nat.mul_add_mod_self_right, Nat.mod_eq_of_lt hj, flat_ofFn hjn]
    set amax := ((List.range k).map fun i => |weight.flat (i * n + j)|).foldr max 0 with hamax
    have hle : |weight.flat (i * n + j)| ≤ amax :=
      le_foldr_max (List.mem_map.mpr ⟨i, List.mem_range.mpr hi, rfl⟩)
    obtain ⟨hpos, hscale⟩ := outputScale_spec ((abs_nonneg _).trans hle)
    set scale := outputScale amax
    have hquotient : |weight.flat (i * n + j) / scale| ≤ 127 := by
      rw [abs_div, abs_of_pos hpos, div_le_iff₀ hpos]
      exact hle.trans hscale
    have hclose := abs_sub_toInt8_le hquotient
    have hsplit : weight.flat (i * n + j) - toInt8 (weight.flat (i * n + j) / scale) * scale =
        (weight.flat (i * n + j) / scale - toInt8 (weight.flat (i * n + j) / scale)) * scale := by
      rw [sub_mul, div_mul_cancel₀ _ hpos.ne']
    rw [hsplit, abs_mul, abs_of_pos hpos]
    calc
      _ ≤ 1 / 2 * scale := mul_le_mul_of_nonneg_right hclose hpos.le
      _ = scale / 2 := by ring

end Errors

end Numbers

section Rewriter

structure Options where
  included : Option (String → Bool)
  excluded : Option (String → Bool)
  minElements : Int
  domain : String
  keepOriginalWeights : Bool
  castPluginInputsToFp16 : Bool
  castPluginOutputsToFp32 : Bool

/-- `_matches`. -/
def patternMatches (pattern : Option (String → Bool)) (text : String) : Bool :=
  match pattern with
  | none => false
  | some search => search text

/-- `_node_name`. -/
def nodeName (n : Node) (fallbackIdx : Nat) : String :=
  if n.name ≠ "" then n.name
  else
    match n.outputs with
    | y :: _ => y
    | [] => "matmul_" ++ toString fallbackIdx

/-- `name.replace("/", "_").replace(":", "_")`. -/
def sanitised (name : String) : String :=
  String.ofList (name.toList.map fun c => if c = '/' ∨ c = ':' then '_' else c)

/-- The activation and the weight of a node that is converted. -/
def selected? (o : Options) (g : Graph) (idx : Nat) (n : Node) : Option (String × Tensor) :=
  if n.opType ≠ "MatMul" then none
  else
    match n.inputs with
    | [activation, weightName] =>
        let name := nodeName n idx
        if o.included.isSome && !patternMatches o.included name then none
        else if patternMatches o.excluded name then none
        else
          match g.initializer? weightName with
          | none => none
          | some weight =>
              match weight.dims with
              | [k, c] =>
                  if ((k * c : Nat) : Int) < o.minElements then none else some (activation, weight)
              | _ => none
    | _ => none

/-- `onnx.TensorProto.FLOAT16`. -/
def float16 : Int := 10

/-- `onnx.TensorProto.FLOAT`. -/
def float32 : Int := 1

def castStage (name output : String) (elemType : Int) : Stage :=
  ⟨name, "Cast", "", [], [("to", .int elemType)], output⟩

/-- The converted node itself, which keeps its name. -/
def pluginStage (n : Node) (domain qweightName scalesName output : String) (gemmN gemmK : Nat) :
    Stage where
  name := n.name
  opType := "W8A16LinearPlugin"
  domain := domain
  extra := [qweightName, scalesName]
  attributes := [("gemm_n", .int gemmN), ("gemm_k", .int gemmK), ("scale_mode", .int 0),
    ("group_size", .int 0)]
  output := output

def convertedSite (o : Options) (n : Node) (safeName activation output : String) (k c : Nat)
    (qweight scales : Tensor) : Site where
  safeName := safeName
  activation := activation
  stages :=
    (if o.castPluginInputsToFp16 then
      [castStage (safeName ++ "_w8a16_cast_activation_fp16")
        (safeName ++ "_w8a16_activation_fp16") float16]
    else []) ++
    pluginStage n o.domain (safeName ++ "_w8a16_qweight") (safeName ++ "_w8a16_scales")
      (if o.castPluginOutputsToFp32 then safeName ++ "_w8a16_output_fp16" else output) c k ::
    if o.castPluginOutputsToFp32 then
      [castStage (safeName ++ "_w8a16_cast_output_fp32") output float32]
    else []
  consts := [(safeName ++ "_w8a16_qweight", qweight), (safeName ++ "_w8a16_scales", scales)]
  smoothing := none
  dequantised := dequantised k c qweight scales

/-- What the loop of `rewrite_model` does to a node. -/
def step? (o : Options) (g : Graph) (idx : Nat) (n : Node) : Option Step :=
  match selected? o g idx n with
  | none => some ⟨n, none⟩
  | some (activation, weight) =>
      match weight.dims, n.outputs with
      | [k, c], output :: _ =>
          (quantizePerOutputInt8? weight).map fun r =>
            ⟨n, some (convertedSite o n (sanitised (nodeName n idx)) activation output k c r.1 r.2)⟩
      | _, _ => none

def planLoop? (o : Options) (g : Graph) (idx : Nat) : List Node → Option (List Step)
  | [] => some []
  | n :: ns => do
      let s ← step? o g idx n
      let rest ← planLoop? o g (idx + 1) ns
      return s :: rest

def plan? (o : Options) (g : Graph) : Option (List Step) := planLoop? o g 0 g.nodes

/-- `initializer_use_counts`. -/
def useCount (g : Graph) (x : String) : Nat := (g.nodes.map fun n => n.inputs.count x).sum

/-- `converted_weight_counts`. -/
def convertedCount (plan : List Step) (x : String) : Nat :=
  plan.countP fun s => s.site.isSome && s.node.inputs[1]? = some x

/-- Whether an initializer is kept. -/
def keepsWeight (o : Options) (g : Graph) (plan : List Step) (x : String) : Bool :=
  o.keepOriginalWeights || convertedCount plan x = 0 || convertedCount plan x < useCount g x

/-- `rewrite_model`. -/
def rewriteModel? (o : Options) (g : Graph) : Option Graph :=
  (plan? o g).map fun plan => assemble g (keepsWeight o g plan) plan

end Rewriter

section Stages
variable {I : Interp} {v : Option Tensor}

theorem stageValue_cast {name output : String} {elemType : Int}
    (h : elemType = float16 ∨ elemType = float32) :
    stageValue I (castStage name output elemType) v [] = v := by
  rcases h with rfl | rfl <;> rfl

/-- Casts in a chain change nothing. -/
theorem chainValue_casts {consts : List (String × Tensor)} {name output : String} {elemType : Int}
    (h : elemType = float16 ∨ elemType = float32) (b : Bool) :
    chainValue I consts (if b then [castStage name output elemType] else []) v = v := by
  cases b with
  | false => rfl
  | true => exact stageValue_cast h

theorem dequantWeight?_zero {q s : Tensor} {k n : Nat} (hq : q.dims = [k, n]) (hs : s.dims = [n]) :
    dequantWeight? q s 0 = some (dequantised k n q s) := by
  have hlen : s.data.length = n := by simpa [hs] using s.size_eq
  rw [dequantWeight?, hq]
  simp [hlen, dequantised]

/-- The plugin's stage is the product with the dequantised weight. -/
theorem stageValue_plugin {n : Node} {domain qweightName scalesName output : String} {k c : Nat}
    {q s : Tensor} (hq : q.dims = [k, c]) (hs : s.dims = [c]) :
    stageValue I (pluginStage n domain qweightName scalesName output c k) v [some q, some s] =
      v.bind fun a => matmul? a (dequantised k c q s) := by
  have hattrs : pluginAttrs ((pluginStage n domain qweightName scalesName output c k).node "") =
      ⟨c, k, 0, 0, 0⟩ := rfl
  cases v with
  | none => rfl
  | some a =>
      change linearSum? (pluginAttrs _) a q s = _
      rw [hattrs]
      have hw := dequantWeight?_zero hq hs
      exact linearSum?_eq_matmul? (p := ⟨c, k, 0, 0, 0⟩) rfl rfl hq hs hw

end Stages

section Sites
variable {o : Options} {g : Graph} {n : Node} {idx : Nat} {plan : List Step} {s : Step}
  {site : Site} {safeName activation output : String} {k c : Nat} {q sc weight : Tensor}

/-- The endings of the names a conversion makes up. -/
def endings (o : Options) : List String :=
  ["_w8a16_qweight", "_w8a16_scales"] ++
    (if o.castPluginInputsToFp16 then ["_w8a16_activation_fp16"] else []) ++
    if o.castPluginOutputsToFp32 then ["_w8a16_output_fp16"] else []

theorem separate_endings (o : Options) : Separate ((endings o).map String.toList) := by
  rw [endings]
  cases o.castPluginInputsToFp16 <;> cases o.castPluginOutputsToFp32 <;> decide

theorem append_ne {s t : String} (h : s ≠ t) (safeName : String) :
    safeName ++ s ≠ safeName ++ t := by
  intro heq
  have hlist := congrArg String.toList heq
  rw [String.toList_append, String.toList_append] at hlist
  exact h (String.toList_inj.mp (List.append_cancel_left hlist))

theorem made_convertedSite :
    (Step.mk n (some (convertedSite o n safeName activation output k c q sc))).made =
      names (endings o) safeName := by
  rw [Step.made, Step.consts, Step.temps, convertedSite, names, endings]
  cases o.castPluginInputsToFp16 <;> cases o.castPluginOutputsToFp32 <;> rfl

theorem getLast?_convertedSite :
    (convertedSite o n safeName activation output k c q sc).stages.getLast?.map Stage.output =
      some output := by
  rw [convertedSite]
  cases o.castPluginInputsToFp16 <;> cases o.castPluginOutputsToFp32 <;> rfl

theorem stages_convertedSite :
    ∀ st ∈ (convertedSite o n safeName activation output k c q sc).stages, st.opType ≠ "MatMul" ∧
      ∀ x ∈ st.extra, x ∈ (convertedSite o n safeName activation output k c q sc).consts.map
        Prod.fst := by
  rw [convertedSite]
  cases o.castPluginInputsToFp16 <;> cases o.castPluginOutputsToFp32 <;>
    simp [castStage, pluginStage]

theorem lookup_stored (safeName : String) (q sc : Tensor) (rest : List (String × Tensor)) :
    let consts := (safeName ++ "_w8a16_qweight", q) :: (safeName ++ "_w8a16_scales", sc) :: rest
    [safeName ++ "_w8a16_qweight", safeName ++ "_w8a16_scales"].map (fun x => consts.lookup x) =
      [some q, some sc] := by
  have hne : safeName ++ "_w8a16_scales" ≠ safeName ++ "_w8a16_qweight" :=
    append_ne (by decide) safeName
  simp [List.lookup_cons, beq_false_of_ne hne]

theorem chainValue_convertedSite (hq : q.dims = [k, c]) (hs : sc.dims = [c]) (I : Interp)
    (v : Option Tensor) :
    let site := convertedSite o n safeName activation output k c q sc
    chainValue I site.consts site.stages v = v.bind fun a => matmul? a (dequantised k c q sc) := by
  rw [convertedSite]
  dsimp only
  rw [chainValue_append, chainValue_casts (Or.inl rfl), chainValue,
    chainValue_casts (Or.inr rfl)]
  change stageValue I _ v ([_, _].map _) = _
  rw [lookup_stored, stageValue_plugin hq hs]

/-- A selected node has two operands, the second a stored matrix. -/
theorem selected?_spec (h : selected? o g idx n = some (activation, weight)) :
    n.opType = "MatMul" ∧ ∃ weightName, n.inputs = [activation, weightName] ∧
      g.initializer? weightName = some weight ∧ ∃ k c, weight.dims = [k, c] := by
  rw [selected?] at h
  split at h
  · cases h
  · rename_i hop
    split at h
    · rename_i a w hin
      dsimp only at h
      split at h
      · cases h
      · split at h
        · cases h
        · split at h
          · cases h
          · rename_i t ht
            split at h
            · rename_i k c hd
              split at h
              · cases h
              · cases h
                exact ⟨not_not.mp hop, w, hin, ht, k, c, hd⟩
            · cases h
    · cases h

theorem dims_quantizePerOutputInt8? (hw : weight.dims = [k, c])
    (h : quantizePerOutputInt8? weight = some (q, sc)) : q.dims = [k, c] ∧ sc.dims = [c] := by
  rw [quantizePerOutputInt8?, hw] at h
  dsimp only at h
  split at h
  · cases h
  · cases h
    exact ⟨rfl, rfl⟩

theorem step?_node (h : step? o g idx n = some s) : s.node = n := by
  rw [step?] at h
  split at h
  · cases h
    rfl
  · split at h
    · obtain ⟨r, -, rfl⟩ := Option.map_eq_some_iff.mp h
      rfl
    · cases h

/-- A step of the loop leaves a node alone or converts its stored matrix. -/
theorem step?_site (h : step? o g idx n = some s) (hsite : s.site = some site) :
    ∃ activation weight k c output q sc, selected? o g idx n = some (activation, weight) ∧
      weight.dims = [k, c] ∧ n.outputs.head? = some output ∧
      quantizePerOutputInt8? weight = some (q, sc) ∧
      site = convertedSite o n (sanitised (nodeName n idx)) activation output k c q sc := by
  rw [step?] at h
  split at h
  · cases h
    cases hsite
  · rename_i activation weight hsel
    split at h
    · rename_i k c output rest hd hout
      obtain ⟨⟨q, sc⟩, hq, rfl⟩ := Option.map_eq_some_iff.mp h
      cases hsite
      exact ⟨activation, weight, k, c, output, q, sc, hsel, hd, by rw [hout]; rfl, hq, rfl⟩
    · cases h

theorem planLoop?_spec {ns : List Node} (h : planLoop? o g idx ns = some plan) :
    plan.map Step.node = ns ∧ ∀ s ∈ plan, ∃ i, step? o g i s.node = some s := by
  induction ns generalizing idx plan with
  | nil =>
      cases h
      exact ⟨rfl, fun s hs => (List.not_mem_nil hs).elim⟩
  | cons n ns ih =>
      rw [planLoop?] at h
      obtain ⟨s, hs, h⟩ := Option.bind_eq_some_iff.mp h
      obtain ⟨rest, hrest, h⟩ := Option.bind_eq_some_iff.mp h
      cases h
      obtain ⟨hnodes, hsteps⟩ := ih hrest
      have hnode := step?_node hs
      refine ⟨by rw [List.map_cons, hnodes, hnode], fun t ht => ?_⟩
      rcases List.mem_cons.mp ht with rfl | ht
      · exact ⟨idx, hnode ▸ hs⟩
      · exact hsteps t ht

/-- Where every counted element brings one, and one of them brings more, there are
fewer of them than they bring. -/
theorem countP_lt_sum {α : Type} {xs : List α} {p : α → Bool} {f : α → Nat}
    (hle : ∀ a ∈ xs, (if p a then 1 else 0) ≤ f a) {a : α} (ha : a ∈ xs)
    (hlt : (if p a then 1 else 0) < f a) : xs.countP p < (xs.map f).sum := by
  have hcount : xs.countP p = (xs.map fun a => if p a then 1 else 0).sum := by
    clear hle ha
    induction xs with
    | nil => rfl
    | cons b xs ih => rw [List.countP_cons, List.map_cons, List.sum_cons, ih, Nat.add_comm]
  rw [hcount]
  exact List.sum_lt_sum _ _ hle ⟨a, ha, hlt⟩

/-- A weight that is also the activation of a converted node is kept. -/
theorem keepsWeight_activation {weightName : String} (hnodes : plan.map Step.node = g.nodes)
    (hs : s ∈ plan) (hin : s.node.inputs = [activation, weightName]) :
    keepsWeight o g plan activation = true := by
  have hlt : convertedCount plan activation < useCount g activation := by
    rw [convertedCount, useCount, ← hnodes, List.map_map]
    refine countP_lt_sum (fun t _ => ?_) hs ?_
    · split
      · rename_i ht
        have hget : t.node.inputs[1]? = some activation := by
          simpa using (Bool.and_eq_true_iff.mp ht).2
        exact List.count_pos_iff.mpr (List.mem_of_getElem? hget)
      · exact Nat.zero_le _
    · change _ < s.node.inputs.count activation
      rw [hin, List.count_cons_self]
      by_cases hw : weightName = activation
      · subst hw
        rw [List.count_cons_self]
        split <;> omega
      · simp [hw]
  simp [keepsWeight, hlt]

theorem planned (h : plan? o g = some plan) :
    Planned g (keepsWeight o g plan) (endings o) plan := by
  obtain ⟨hnodes, hsteps⟩ := planLoop?_spec h
  refine ⟨hnodes, separate_endings o, ⟨by simp [endings], ?_⟩, fun s hs site hsite => ?_⟩
  · rw [endings]
    cases o.castPluginInputsToFp16 <;> cases o.castPluginOutputsToFp32 <;> decide
  · obtain ⟨i, hi⟩ := hsteps s hs
    obtain ⟨activation, weight, k, c, output, q, sc, hsel, hd, hout, hq, rfl⟩ := step?_site hi hsite
    obtain ⟨hop, weightName, hin, -⟩ := selected?_spec hsel
    obtain ⟨hqd, hsd⟩ := dims_quantizePerOutputInt8? hd hq
    exact {
      matMul := hop
      inputs := ⟨weightName, [], hin⟩
      output := fun y hy => by
        rw [hy] at hout
        cases hout
        exact getLast?_convertedSite
      stages := stages_convertedSite
      made := made_convertedSite
      kept := fun _ => keepsWeight_activation hnodes hs hin
      matrix := rfl
      computes := fun I v => chainValue_convertedSite hqd hsd I v }

/-- A matrix that has rows when it has columns. -/
def Filled (w : Tensor) : Prop := ∀ c, w.dims = [0, c] → c = 0

theorem quantizePerOutputInt8?_isSome (hw : weight.dims = [k, c]) :
    (quantizePerOutputInt8? weight).isSome = true ↔ Filled weight := by
  have hfilled : Filled weight ↔ ¬ (k = 0 ∧ c ≠ 0) := by
    rw [Filled, hw]
    constructor
    · rintro h ⟨rfl, hc⟩
      exact hc (h c rfl)
    · intro h c' heq
      simp only [List.cons.injEq, and_true] at heq
      obtain ⟨rfl, rfl⟩ := heq
      exact not_not.mp fun hc => h ⟨rfl, hc⟩
  rw [hfilled, quantizePerOutputInt8?, hw]
  dsimp only
  split
  · rename_i h
    simp [h]
  · rename_i h
    simp [h]

theorem step?_isSome (hg : g.Valid) (hn : n ∈ g.nodes) :
    (step? o g idx n).isSome = true ↔
      ∀ activation weight, selected? o g idx n = some (activation, weight) → Filled weight := by
  cases hsel : selected? o g idx n with
  | none => simp [step?, hsel]
  | some p =>
      obtain ⟨activation, weight⟩ := p
      obtain ⟨hop, weightName, hin, -, k, c, hd⟩ := selected?_spec hsel
      obtain ⟨y, hy, -⟩ := hg.matMul n hn hop
      rw [step?, hsel]
      simp only [hd, hy, Option.isSome_map, quantizePerOutputInt8?_isSome hd, Option.some.injEq,
        Prod.mk.injEq]
      constructor
      · rintro h _ _ ⟨-, rfl⟩
        exact h
      · intro h
        exact h activation weight ⟨rfl, rfl⟩

theorem planLoop?_isSome {ns : List Node} :
    (planLoop? o g idx ns).isSome = true ↔
      ∀ i n, ns[i]? = some n → (step? o g (idx + i) n).isSome = true := by
  induction ns generalizing idx with
  | nil => simp [planLoop?]
  | cons m ns ih =>
      have hcons : (planLoop? o g idx (m :: ns)).isSome = true ↔
          (step? o g idx m).isSome = true ∧ (planLoop? o g (idx + 1) ns).isSome = true := by
        rw [planLoop?]
        cases step? o g idx m <;> cases planLoop? o g (idx + 1) ns <;> simp
      rw [hcons, ih]
      constructor
      · rintro ⟨hm, hns⟩ i n hi
        cases i with
        | zero =>
            cases hi
            exact hm
        | succ i => simpa [Nat.add_assoc, Nat.add_comm 1] using hns i n hi
      · intro h
        refine ⟨h 0 m rfl, fun i n hi => ?_⟩
        simpa [Nat.add_assoc, Nat.add_comm 1] using h (i + 1) n hi

/-- The rewriter returns a graph just when no matrix it quantises has columns but no rows. -/
theorem plan?_isSome (hg : g.Valid) :
    (plan? o g).isSome = true ↔ ∀ i n activation weight, g.nodes[i]? = some n →
      selected? o g i n = some (activation, weight) → Filled weight := by
  rw [plan?, planLoop?_isSome]
  constructor
  · intro h i n activation weight hi hsel
    refine (step?_isSome hg (List.mem_of_getElem? hi)).mp ?_ activation weight hsel
    simpa using h i n hi
  · intro h i n hi
    rw [Nat.zero_add]
    exact (step?_isSome hg (List.mem_of_getElem? hi)).mpr fun a w hsel => h i n a w hi hsel

end Sites

end JetsonVoice.W8A16
