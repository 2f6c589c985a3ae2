import JetsonVoice.W8A16.Awq

/-!
# When the rewriters preserve a graph

Both rewriters make plans that fit the graph. They preserve its meaning just when
the names they make up clash with nothing, the nodes they convert are those of ONNX
itself, and no weight they drop is read where they do not look for it.
-/

namespace JetsonVoice.W8A16

open Onnx Onnx.Tensor Foundation.SingleAssignment

/-- `rewrite_model` returns a graph, and it preserves the original one. -/
def RewritePreserves (o : Options) (g : Graph) : Prop :=
  ∃ plan out, plan? o g = some plan ∧ rewriteModel? o g = some out ∧ Preserves g plan out

/-- A graph that the other `rewrite_model` returns preserves the original one. -/
def Awq.RewritePreserves (o : Awq.Options) (layerQuant : List (Awq.LayerOp → Awq.OpQuant))
    (g : Graph) : Prop :=
  ∀ plan out, Awq.plan? o layerQuant g = some plan → Awq.rewriteModel? o layerQuant g = some out →
    Preserves g plan out

section Results
variable {g : Graph}

theorem rewritePreserves_iff (hg : g.Valid) (o : Options) :
    RewritePreserves o g ↔
      (∀ i n activation weight, g.nodes[i]? = some n →
        selected? o g i n = some (activation, weight) → Filled weight) ∧
      ∀ plan, plan? o g = some plan → Harmless g (keepsWeight o g plan) plan := by
  rw [← plan?_isSome hg]
  constructor
  · rintro ⟨plan, out, hplan, hout, hpreserves⟩
    rw [rewriteModel?, hplan] at hout
    cases hout
    refine ⟨by rw [hplan]; rfl, fun plan' hplan' => ?_⟩
    cases hplan.symm.trans hplan'
    exact (preserves_iff hg (planned hplan)).mp hpreserves
  · rintro ⟨hsome, hharmless⟩
    obtain ⟨plan, hplan⟩ := Option.isSome_iff_exists.mp hsome
    refine ⟨plan, _, hplan, by rw [rewriteModel?, hplan]; rfl, ?_⟩
    exact (preserves_iff hg (planned hplan)).mpr (hharmless plan hplan)

theorem Awq.rewritePreserves_iff (hg : g.Valid) (o : Awq.Options)
    (layerQuant : List (Awq.LayerOp → Awq.OpQuant)) :
    Awq.RewritePreserves o layerQuant g ↔
      ∀ plan, Awq.plan? o layerQuant g = some plan →
        Harmless g (Awq.keepsWeight plan) plan := by
  have hout {plan : List Step} (hplan : Awq.plan? o layerQuant g = some plan) :
      Awq.rewriteModel? o layerQuant g = some (assemble g (Awq.keepsWeight plan) plan) := by
    rw [Awq.rewriteModel?, hplan]
    rfl
  constructor
  · intro h plan hplan
    exact (preserves_iff hg (Awq.planned hplan)).mp (h plan _ hplan (hout hplan))
  · intro h plan out hplan hrewrite
    cases (hout hplan).symm.trans hrewrite
    exact (preserves_iff hg (Awq.planned hplan)).mpr (h plan hplan)

/-- Either rewriter preserves a graph just when what it converts, names and drops is
harmless there, and the first one quantises no matrix with columns but no rows. -/
theorem rewriters_preserve_iff (hg : g.Valid) (o : Options) (oAwq : Awq.Options)
    (layerQuant : List (Awq.LayerOp → Awq.OpQuant)) :
    (RewritePreserves o g ↔
      (∀ i n activation weight, g.nodes[i]? = some n →
        selected? o g i n = some (activation, weight) → Filled weight) ∧
      ∀ plan, plan? o g = some plan → Harmless g (keepsWeight o g plan) plan) ∧
    (Awq.RewritePreserves oAwq layerQuant g ↔
      ∀ plan, Awq.plan? oAwq layerQuant g = some plan →
        Harmless g (Awq.keepsWeight plan) plan) :=
  ⟨rewritePreserves_iff hg o, Awq.rewritePreserves_iff hg oAwq layerQuant⟩

/-- A `MatMul` with a stored matrix of one number. -/
def productNode (name weight output : String) : Node where
  name := name
  opType := "MatMul"
  domain := ""
  inputs := ["x", weight]
  outputs := [output]
  attributes := []
  captures := []
  inner := []

def unit : Tensor := ⟨[1, 1], [1], by decide⟩

/-- The command line without options. -/
def defaultOptions : Options where
  included := none
  excluded := none
  minElements := 0
  domain := "trt"
  keepOriginalWeights := false
  castPluginInputsToFp16 := false
  castPluginOutputsToFp32 := false

def oneProduct : Graph where
  inputs := ["x"]
  initializers := [("w", unit)]
  nodes := [productNode "" "w" "y"]
  outputs := ["y"]

/-- Two layers whose names differ in one sign. -/
def twoProducts : Graph where
  inputs := ["x"]
  initializers := [("v", unit), ("w", unit)]
  nodes := [productNode "layer/0" "v" "y", productNode "layer:0" "w" "z"]
  outputs := ["y", "z"]

theorem oneProduct_valid : oneProduct.Valid where
  names := by decide
  named := by decide
  inScope := by
    simp [oneProduct, Graph.known, Graph.initializerNames, shape, productNode, Shape.Scoped,
      Shape.AtEach]
  unshadowed := by simp [oneProduct, shape, productNode, Shape.Unshadowed, Shape.AtEach]
  outputs := by decide
  matMul := by simp [oneProduct, productNode]

theorem twoProducts_valid : twoProducts.Valid where
  names := by decide
  named := by decide
  inScope := by
    simp [twoProducts, Graph.known, Graph.initializerNames, shape, productNode, Shape.Scoped,
      Shape.AtEach]
  unshadowed := by simp [twoProducts, shape, productNode, Shape.Unshadowed, Shape.AtEach]
  outputs := by decide
  matMul := by simp [twoProducts, productNode]

theorem step?_productNode {i : Nat} {name weight output : String}
    (hsel : selected? defaultOptions g i (productNode name weight output) = some ("x", unit)) :
    ∃ q sc, step? defaultOptions g i (productNode name weight output) =
      some ⟨productNode name weight output, some (convertedSite defaultOptions
        (productNode name weight output) (sanitised (nodeName (productNode name weight output) i))
        "x" output 1 1 q sc)⟩ := by
  have hfilled : Filled unit := by
    intro c h
    simp [unit] at h
  obtain ⟨⟨q, sc⟩, hq⟩ := Option.isSome_iff_exists.mp
    ((quantizePerOutputInt8?_isSome (rfl : unit.dims = [1, 1])).mpr hfilled)
  refine ⟨q, sc, ?_⟩
  rw [step?, hsel]
  change (quantizePerOutputInt8? unit).map _ = _
  rw [hq]
  rfl

/-- A node without a name is converted under that of its output, and nothing clashes. -/
theorem rewriters_preserve_iff_one :
    RewritePreserves defaultOptions oneProduct ∧
      Awq.RewritePreserves ⟨"trt", false, false⟩ [] oneProduct := by
  obtain ⟨q, sc, hstep⟩ := step?_productNode (rfl : selected? defaultOptions oneProduct 0
    (productNode "" "w" "y") = some ("x", unit))
  obtain ⟨hnaive, hawq⟩ := rewriters_preserve_iff oneProduct_valid defaultOptions
    ⟨"trt", false, false⟩ []
  refine ⟨hnaive.mpr ⟨?_, ?_⟩, hawq.mpr ?_⟩
  · intro i n activation weight hn hsel
    obtain ⟨-, weightName, -, hw, -⟩ := selected?_spec hsel
    have hunit := mem_of_lookup hw
    simp only [oneProduct, List.mem_singleton, Prod.mk.injEq] at hunit
    intro c hc
    rw [hunit.2] at hc
    simp [unit] at hc
  · intro plan hplan
    rw [plan?] at hplan
    change planLoop? defaultOptions oneProduct 0 [productNode "" "w" "y"] = _ at hplan
    rw [planLoop?, hstep, planLoop?] at hplan
    obtain rfl := Option.some.inj hplan
    refine ⟨?_, ?_, ?_, ?_, ?_, ?_⟩
    · simp [productNode, Node.isStandard]
    · simp
    · intro x hx hmem
      simp only [List.flatMap_cons, List.flatMap_nil, List.append_nil, made_convertedSite] at hx
      have hnew : ∀ x ∈ names (endings defaultOptions)
          (sanitised (nodeName (productNode "" "w" "y") 0)), x ∉ ["x", "w", "y"] := by decide
      refine hnew x hx ?_
      have hkept (hk : x ∈ oneProduct.initializerNames) : x = "w" := List.mem_singleton.mp hk
      rcases List.mem_append.mp hmem with hmem | hbound
      · rcases List.mem_append.mp hmem with hinput | hk
        · exact List.mem_cons.mpr (Or.inl (List.mem_singleton.mp hinput))
        · simp [hkept (List.mem_of_mem_filter hk)]
      · have hy : x = "y" := List.mem_singleton.mp hbound
        simp [hy]
    · intro x _ s hs hsite
      rw [List.mem_singleton.mp hs] at hsite
      cases hsite
    · intro before s behind hsplit hsite
      cases before with
      | nil => simp
      | cons t before => simp at hsplit
    · intro x hx t ht
      have hy : x = "y" := List.mem_singleton.mp hx
      rw [hy] at ht
      cases ht
  · intro plan hplan
    have hnone : plan = [⟨productNode "" "w" "y", none⟩] := (Option.some.inj hplan).symm
    subst hnone
    refine ⟨?_, ?_, ?_, ?_, ?_, ?_⟩
    · simp
    · simp
    · simp [Step.made, Step.consts, Step.temps]
    · simp [Step.consts]
    · intro before s behind hsplit _
      cases before with
      | nil => simp
      | cons t before => simp at hsplit
    · intro x _ t _ hdropped
      simp [Awq.keepsWeight] at hdropped

/-- Both names become `layer_0`: the rewritten graph stores two weights under one name. -/
theorem similar_names_clash :
    twoProducts.Valid ∧ ¬ RewritePreserves defaultOptions twoProducts := by
  refine ⟨twoProducts_valid, fun h => ?_⟩
  obtain ⟨q, sc, hfirst⟩ := step?_productNode (rfl : selected? defaultOptions twoProducts 0
    (productNode "layer/0" "v" "y") = some ("x", unit))
  obtain ⟨q', sc', hsecond⟩ := step?_productNode (rfl : selected? defaultOptions twoProducts (0 + 1)
    (productNode "layer:0" "w" "z") = some ("x", unit))
  obtain ⟨plan, out, hplan, hout, hpreserves⟩ := h
  rw [rewriteModel?, hplan] at hout
  obtain rfl := Option.some.inj hout
  have hdistinct := ((preserves_iff twoProducts_valid (planned hplan)).mp hpreserves).distinct
  rw [plan?] at hplan
  change planLoop? defaultOptions twoProducts 0
    [productNode "layer/0" "v" "y", productNode "layer:0" "w" "z"] = _ at hplan
  rw [planLoop?, hfirst, planLoop?, hsecond, planLoop?] at hplan
  obtain rfl := Option.some.inj hplan
  have hsafe : [sanitised "layer/0", sanitised "layer:0"].Nodup := hdistinct
  exact absurd hsafe (by decide)

end Results

end JetsonVoice.W8A16
