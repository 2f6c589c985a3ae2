import JetsonVoice.Onnx.Replacing
import JetsonVoice.Stft.Operators

/-!
# Rewriting STFT nodes to convolutions

The rewriter replaces every `STFT` node with a constant step, window and frame length
by a convolution with a bank of windowed cosines and sines, and brings its channels
into the transform's order.

## Implementation notes

ONNX types the step and the frame length as integers: a scalar of another type is left
out with the other errors, which are `none`. An attribute of several integers stands as
one entry for each. The count the rewriter returns is left out.
-/

namespace JetsonVoice.Stft

open Onnx Onnx.Replacing Foundation.SingleAssignment

/-- A tensor of real numbers or of integers. -/
inductive Value (K : Type) where
  | reals (t : NdArray K)
  | ints (t : NdArray Int)

variable {K : Type} [Field K]

section Meaning

def Value.asReals : Value K → NdArray K
  | .reals t => t
  | .ints t => t.map Int.cast

def Value.scalar? : Value K → Option Int
  | .ints t => if t.dims = [] then t.data.head? else none
  | .reals _ => none

def attrInts (attributes : List (String × Attr)) (name : String) : List Int :=
  attributes.filterMap fun p =>
    match p.2 with
    | .int i => if p.1 = name then some i else none
    | .other _ => none

/-- The attribute `onesided`, which is set unless it is zero. -/
def isOnesided (attributes : List (String × Attr)) : Bool :=
  (attrInts attributes "onesided").head?.getD 1 ≠ 0

/-- `STFT` of a real signal of rank two with the node's other operands. -/
def transform? (A : Trig K) (onesided : Bool) (signal : NdArray K)
    (frameStep window frameLength : Value K) : Option (NdArray K) := do
  let step ← frameStep.scalar?
  let length ← frameLength.scalar?
  stft? A signal step window.asReals length onesided

/-- The operators the rewriter reads and writes, on real tensors and in the form it gives
them; every other one is left open. -/
def standardOps (A : Trig K) (ops : Ops (Value K)) : Ops (Value K) := fun o args caps =>
  if o.domain ≠ "" ∧ o.domain ≠ "ai.onnx" then ops o args caps
  else if o.opType = "STFT" then
    match args with
    | [some (.reals signal), some step, some window, some length] =>
        if signal.dims.length = 2 then
          [(transform? A (isOnesided o.attributes) signal step window length).map .reals]
        else ops o args caps
    | _ => ops o args caps
  else if o.opType = "Unsqueeze" then
    match args with
    | none :: _ => [none]
    | [some (.reals t), some (.ints ⟨_, [axis], _⟩)] => [(unsqueeze? t axis).map .reals]
    | _ => ops o args caps
  else if o.opType = "Conv" then
    match args, o.attributes with
    | none :: _, _ => [none]
    | [some (.reals x), some (.reals w)], [("strides", .int stride)] =>
        if x.dims.length = 3 then [(conv? x w stride).map .reals] else ops o args caps
    | _, _ => ops o args caps
  else if o.opType = "Reshape" then
    match args, o.attributes with
    | none :: _, _ => [none]
    | [some (.reals t), some (.ints shape)], [("allowzero", .int 0)] =>
        [(reshape? t shape.data).map .reals]
    | _, _ => ops o args caps
  else if o.opType = "Transpose" then
    match args, attrInts o.attributes "perm" with
    | none :: _, _ => [none]
    | [some (.reals t)], axis :: axes => [(transpose? t (axis :: axes)).map .reals]
    | _, _ => ops o args caps
  else ops o args caps

end Meaning

section Rewriter

/-- `_const_scalar`. -/
def constScalar? (g : Model (Value K)) (name : String) : Option Int :=
  (g.initializer? name).bind Value.scalar?

/-- `_const_vector`. -/
def constVector? (g : Model (Value K)) (name : String) : Option (NdArray K) :=
  (g.initializer? name).bind fun v =>
    if v.asReals.dims.length = 1 then some v.asReals else none

/-- `.replace("/", "_").strip("_")`. -/
def cleaned (name : String) : String :=
  let replaced := name.toList.map fun c => if c = '/' then '_' else c
  String.ofList (((replaced.dropWhile (· = '_')).reverse.dropWhile (· = '_')).reverse)

/-- The start of the new names; a node without name and outputs is an error. -/
def namePrefix? (n : Node) : Option String :=
  (if n.name ≠ "" then some n.name else n.outputs.head?).map cleaned

/-- `helper.make_node`. -/
def makeNode (opType : String) (inputs outputs : List String) (name : String)
    (attributes : List (String × Attr)) : Node :=
  ⟨name, opType, "", inputs, outputs, attributes, [], []⟩

def Layout.shapeTensor (layout : Layout) (freqBins : Nat) : NdArray Int :=
  ⟨[4], layout.reshapeShape freqBins, by cases layout <;> rfl⟩

/-- The nodes and initializers that replace a node. -/
def convertedSite (n : Node) (stem signal : String) (frameStep : Int) (basis : NdArray K)
    (layout : Layout) : Site (Value K) where
  stem := stem
  consts :=
    [(stem ++ "_convstft_unsqueeze_axes", .ints ⟨[1], [1], rfl⟩),
      (stem ++ "_convstft_weight", .reals basis),
      (stem ++ "_convstft_reshape_shape", .ints (layout.shapeTensor (basis.dims.headD 0 / 2)))]
  temps := [stem ++ "_convstft_unsqueezed", stem ++ "_convstft_conv", stem ++ "_convstft_reshaped"]
  block :=
    [makeNode "Unsqueeze" [signal, stem ++ "_convstft_unsqueeze_axes"]
        [stem ++ "_convstft_unsqueezed"] (stem ++ "/ConvSTFT_Unsqueeze") [],
      makeNode "Conv" [stem ++ "_convstft_unsqueezed", stem ++ "_convstft_weight"]
        [stem ++ "_convstft_conv"] (stem ++ "/ConvSTFT_Conv") [("strides", .int frameStep)],
      makeNode "Reshape" [stem ++ "_convstft_conv", stem ++ "_convstft_reshape_shape"]
        [stem ++ "_convstft_reshaped"] (stem ++ "/ConvSTFT_Reshape") [("allowzero", .int 0)],
      makeNode "Transpose" [stem ++ "_convstft_reshaped"] n.outputs
        (stem ++ "/ConvSTFT_Transpose") (layout.perm.map fun axis => ("perm", .int axis))]

/-- What the loop of `rewrite` does to a node. -/
def step? (A : Trig K) (imagSign : K) (layout : Layout) (g : Model (Value K)) (n : Node) :
    Option (Step (Value K)) :=
  if n.opType ≠ "STFT" then some ⟨n, none⟩
  else
    match n.inputs with
    | signal :: stepName :: windowName :: lengthName :: _ => do
        let frameStep ← constScalar? g stepName
        let window ← constVector? g windowName
        let frameLength ← constScalar? g lengthName
        let basis ← makeBasis? A window frameLength (isOnesided n.attributes) imagSign layout
        let stem ← namePrefix? n
        return ⟨n, some (convertedSite n stem signal frameStep basis layout)⟩
    | _ => none

def plan? (A : Trig K) (imagSign : K) (layout : Layout) (g : Model (Value K)) :
    Option (List (Step (Value K))) := g.nodes.mapM (step? A imagSign layout g)

/-- `rewrite`. -/
def rewrite? (A : Trig K) (imagSign : K) (layout : Layout) (g : Model (Value K)) :
    Option (Model (Value K)) := (plan? A imagSign layout g).map (assemble g)

end Rewriter

section Statements

/-- The nodes of the rewriter are those of the schema, with constants behind the signal:
nothing can be fed for them. -/
structure SchemaNodes (g : Model (Value K)) : Prop where
  output : ∀ n ∈ g.nodes, n.opType = "STFT" → ∃ y, n.outputs = [y] ∧ y ≠ ""
  operands : ∀ n ∈ g.nodes, n.opType = "STFT" → n.inputs.length ≤ 4
  constant : ∀ n ∈ g.nodes, n.opType = "STFT" → ∀ x ∈ n.inputs.drop 1, x ∉ g.inputs

/-- The transform of a node, with the constants the model stores for it. -/
def nodeTransform? (A : Trig K) (g : Model (Value K)) (n : Node) (signal : NdArray K) :
    Option (NdArray K) :=
  match n.inputs.drop 1 with
  | stepName :: windowName :: lengthName :: _ => do
      let step ← g.initializer? stepName
      let window ← g.initializer? windowName
      let length ← g.initializer? lengthName
      transform? A (isOnesided n.attributes) signal step window length
  | _ => none

/-- The node's signal is a batch of real signals. -/
def Signal (e : String → Option (Value K)) (n : Node) (t : NdArray K) (b : Nat) : Prop :=
  (∃ l, t.dims = [b, l]) ∧ ∃ x, n.inputs.head? = some x ∧ operandOf e x = some (.reals t)

/-- The new model is valid without two things of one name; every node replaced has the
transform of its signal as its value, save that of an empty batch; and where the original
nodes are those of ONNX itself and get no empty batch, all values are the original ones. -/
structure Rewrites (A : Trig K) (g : Model (Value K)) (plan : List (Step (Value K)))
    (out : Model (Value K)) : Prop where
  valid : out.Valid
  inputs : ∀ x ∈ g.inputs, x ∈ out.initializerNames → x ∈ g.initializerNames
  nodeNames : (plan.flatMap Step.keptNode).Nodup → (nodeNames out).Nodup
  computes : ∀ ops feed, ∀ s ∈ plan, s.site.isSome = true → ∀ y ∈ s.node.outputs, ∀ t b,
    Signal (out.evaluate (standardOps A ops) feed) s.node t b →
      (out.evaluate (standardOps A ops) feed y = (nodeTransform? A g s.node t).map .reals ↔
        b ≠ 0 ∨ nodeTransform? A g s.node t = none)
  agrees : ∀ ops feed, (∀ s ∈ plan, s.site.isSome = true → s.node.isStandard = true ∧
      ∃ t b, Signal (g.evaluate (standardOps A ops) feed) s.node t b ∧ b ≠ 0) →
    ∀ x ∈ g.known ++ shape.bound g.nodes,
      out.evaluate (standardOps A ops) feed x = g.evaluate (standardOps A ops) feed x

/-- The names made are free: those of values and initializers, and those of nodes when the
ones that stay have different names. -/
structure Harmless (g : Model (Value K)) (plan : List (Step (Value K))) : Prop where
  fresh : Fresh g plan
  nodeNames : (plan.flatMap Step.keptNode).Nodup →
    ∀ x ∈ plan.flatMap Step.madeNodes, x ∉ plan.flatMap Step.keptNode

end Statements

section Plan
variable {A : Trig K} {imagSign : K} {layout : Layout} {g : Model (Value K)} {n : Node}
  {plan : List (Step (Value K))} {s : Step (Value K)} {site : Site (Value K)}

/-- The endings of the names of initializers and values, and of nodes. -/
def endings : List String :=
  ["_convstft_unsqueeze_axes", "_convstft_weight", "_convstft_reshape_shape",
    "_convstft_unsqueezed", "_convstft_conv", "_convstft_reshaped"]

def nodeEndings : List String :=
  ["/ConvSTFT_Unsqueeze", "/ConvSTFT_Conv", "/ConvSTFT_Reshape", "/ConvSTFT_Transpose"]

theorem endings_separate : Endings endings := ⟨by decide, by decide, by decide⟩

theorem stem_append_ne (stem : String) {ending : String} (h : ending ∈ endings) :
    stem ++ ending ≠ "" :=
  derived_ne endings_separate (List.mem_map_of_mem h)

theorem nodeEndings_separate : Endings nodeEndings := ⟨by decide, by decide, by decide⟩

theorem mapM_spec {α β : Type} {f : α → Option β} {back : β → α} {xs : List α} {ys : List β}
    (hf : ∀ a b, f a = some b → back b = a) (h : xs.mapM f = some ys) :
    ys.map back = xs ∧ ∀ b ∈ ys, f (back b) = some b := by
  induction xs generalizing ys with
  | nil =>
      cases h
      exact ⟨rfl, fun b hb => (List.not_mem_nil hb).elim⟩
  | cons a xs ih =>
      rw [List.mapM_cons] at h
      obtain ⟨b, hb, h⟩ := Option.bind_eq_some_iff.mp h
      obtain ⟨rest, hrest, h⟩ := Option.bind_eq_some_iff.mp h
      cases h
      obtain ⟨hback, hall⟩ := ih hrest
      have ha := hf a b hb
      refine ⟨by rw [List.map_cons, hback, ha], fun c hc => ?_⟩
      rcases List.mem_cons.mp hc with rfl | hc
      · exact ha.symm ▸ hb
      · exact hall c hc

theorem step?_node (h : step? A imagSign layout g n = some s) : s.node = n := by
  rw [step?] at h
  split at h
  · cases h
    rfl
  · split at h
    · simp only [Option.bind_eq_bind, Option.bind_eq_some_iff] at h
      obtain ⟨_, -, _, -, _, -, _, -, _, -, h⟩ := h
      cases h
      rfl
    · cases h

/-- A converted node has constants of the right form behind its signal. -/
theorem step?_site (h : step? A imagSign layout g n = some s) (hsite : s.site = some site) :
    n.opType = "STFT" ∧ ∃ signal stepName windowName lengthName rest frameStep window frameLength
      basis stem, n.inputs = signal :: stepName :: windowName :: lengthName :: rest ∧
      constScalar? g stepName = some frameStep ∧ constVector? g windowName = some window ∧
      constScalar? g lengthName = some frameLength ∧
      makeBasis? A window frameLength (isOnesided n.attributes) imagSign layout = some basis ∧
      site = convertedSite n stem signal frameStep basis layout := by
  rw [step?] at h
  split at h
  · cases h
    cases hsite
  · rename_i hop
    split at h
    · rename_i signal stepName windowName lengthName rest hin
      simp only [Option.bind_eq_bind, Option.bind_eq_some_iff] at h
      obtain ⟨frameStep, hstep, window, hwindow, frameLength, hlength, basis, hbasis, stem, -,
        h⟩ := h
      cases h
      cases hsite
      exact ⟨not_not.mp hop, signal, stepName, windowName, lengthName, rest, frameStep, window,
        frameLength, basis, stem, hin, hstep, hwindow, hlength, hbasis, rfl⟩
    · cases h

theorem binds_made {opType name stem ending : String} {inputs : List String}
    {attributes : List (String × Attr)} (h : ending ∈ endings) :
    shape.binds (makeNode opType inputs [stem ++ ending] name attributes) = [stem ++ ending] := by
  simp only [shape, makeNode, List.filter_cons, decide_eq_true (stem_append_ne stem h),
    List.filter_nil, if_true]

omit [Field K] in
theorem fits_convertedSite {signal stem : String} {rest : List String} {frameStep : Int}
    {basis : NdArray K} (hin : n.inputs = signal :: rest) :
    Fits endings nodeEndings n (convertedSite n stem signal frameStep basis layout) where
  made := rfl
  nodes := rfl
  bodies m hm := by
    simp only [convertedSite, List.mem_cons, List.not_mem_nil, or_false] at hm
    rcases hm with rfl | rfl | rfl | rfl <;> rfl
  bound := by
    rw [convertedSite, Shape.bound_cons, Shape.bound_cons, Shape.bound_cons, Shape.bound_cons,
      Shape.bound_nil, binds_made (by decide), binds_made (by decide), binds_made (by decide)]
    simp [shape, makeNode]
  inScope known hreads hconsts := by
    have hsignal : signal ≠ "" → signal ∈ known := fun h =>
      hreads signal (mem_reads.mpr (.inl ⟨by simp [hin], h⟩))
    simp only [convertedSite, List.map_cons, List.map_nil, List.mem_cons, List.not_mem_nil,
      or_false, forall_eq_or_imp, forall_eq] at hconsts
    obtain ⟨haxes, hweight, hshape⟩ := hconsts
    refine ⟨fun x hx => ?_, fun x hx => ?_, fun x hx => ?_, fun x hx => ?_, trivial⟩
    · rcases mem_reads.mp hx with ⟨hx, h0⟩ | hx
      · rcases List.mem_cons.mp hx with rfl | hx
        · exact hsignal h0
        · exact List.mem_singleton.mp hx ▸ haxes
      · cases hx
    · rw [binds_made (by decide)]
      rcases mem_reads.mp hx with ⟨hx, -⟩ | hx
      · rcases List.mem_cons.mp hx with rfl | hx
        · simp
        · exact List.mem_append_left _ (List.mem_singleton.mp hx ▸ hweight)
      · cases hx
    · rw [binds_made (by decide), binds_made (by decide)]
      rcases mem_reads.mp hx with ⟨hx, -⟩ | hx
      · rcases List.mem_cons.mp hx with rfl | hx
        · simp
        · exact List.mem_append_left _ (List.mem_append_left _ (List.mem_singleton.mp hx ▸ hshape))
      · cases hx
    · rw [binds_made (by decide), binds_made (by decide), binds_made (by decide)]
      rcases mem_reads.mp hx with ⟨hx, -⟩ | hx
      · simp [List.mem_singleton.mp hx]
      · cases hx

theorem planned (h : plan? A imagSign layout g = some plan) :
    Planned g endings nodeEndings plan := by
  obtain ⟨hnodes, hsteps⟩ := mapM_spec (fun _ _ h => step?_node h) h
  refine ⟨hnodes, endings_separate, nodeEndings_separate, fun s hs site hsite => ?_⟩
  obtain ⟨-, signal, _, _, _, _, frameStep, _, _, basis, stem, hin, -, -, -, -, rfl⟩ :=
    step?_site (hsteps s hs) hsite
  exact fits_convertedSite hin

end Plan

section Operators
variable {A : Trig K} {ops : Ops (Value K)} {caps : List (Option (Value K))}
  {inputs outputs : List String} {name : String} {layout : Layout}

theorem standardOps_unsqueeze (t : NdArray K) :
    standardOps A ops (makeNode "Unsqueeze" inputs outputs name []).operation
      [some (.reals t), some (.ints ⟨[1], [1], rfl⟩)] caps = [(unsqueeze? t 1).map .reals] := by
  simp [standardOps, makeNode, Node.operation]

theorem standardOps_conv {u basis : NdArray K} (hu : u.dims.length = 3) (frameStep : Int) :
    standardOps A ops
      (makeNode "Conv" inputs outputs name [("strides", .int frameStep)]).operation
      [some (.reals u), some (.reals basis)] caps = [(conv? u basis frameStep).map .reals] := by
  simp [standardOps, makeNode, Node.operation, hu]

theorem standardOps_reshape (c : Option (NdArray K)) (shape : NdArray Int) :
    standardOps A ops (makeNode "Reshape" inputs outputs name [("allowzero", .int 0)]).operation
      [c.map .reals, some (.ints shape)] caps =
        [(c.bind fun c => reshape? c shape.data).map .reals] := by
  cases c <;> simp [standardOps, makeNode, Node.operation]

theorem standardOps_transpose (c : Option (NdArray K)) :
    standardOps A ops (makeNode "Transpose" inputs outputs name
      (layout.perm.map fun axis => ("perm", .int axis))).operation [c.map .reals] caps =
        [(c.bind fun c => transpose? c layout.perm).map .reals] := by
  cases layout <;> cases c <;> simp [standardOps, makeNode, Node.operation, Layout.perm, attrInts]

end Operators

section Values
variable {A : Trig K} {imagSign : K} {layout : Layout} {g : Model (Value K)} {n : Node}
  {plan : List (Step (Value K))} {s : Step (Value K)} {site : Site (Value K)}

/-- The value of a block's output is that of its four operators in turn. -/
theorem evaluate_block (hg : g.Valid) (hplan : plan? A imagSign layout g = some plan)
    (hf : Fresh g plan) (hs : s ∈ plan) {signal stem y : String} {frameStep : Int}
    {basis t : NdArray K} {b l : Nat}
    (hsite : s.site = some (convertedSite s.node stem signal frameStep basis layout))
    (hy : s.node.outputs = [y]) (hne : y ≠ "") (ops : Ops (Value K))
    (feed : String → Option (Value K)) (hd : t.dims = [b, l])
    (ht : operandOf ((assemble g plan).evaluate (standardOps A ops) feed) signal =
      some (.reals t)) :
    (assemble g plan).evaluate (standardOps A ops) feed y =
      (convStft? t basis frameStep (basis.dims.headD 0 / 2) layout).map .reals := by
  have hp := planned hplan
  have hv := hf.valid hg hp
  have hmem {m : Node} (hm : m ∈ (convertedSite s.node stem signal frameStep basis layout).block) :
      m ∈ (assemble g plan).nodes := by
    refine mem_nodes hs ?_
    rw [Step.block, hsite]
    exact hm
  have hmade (ending : String) (h : ending ∈ endings) {v : Value K}
      (hv : (stem ++ ending, v) ∈
        (convertedSite s.node stem signal frameStep basis layout).consts) :
      operandOf ((assemble g plan).evaluate (standardOps A ops) feed) (stem ++ ending) =
        some v := by
    rw [operandOf, if_neg (stem_append_ne stem h)]
    exact evaluate_const hg hp hf hs hsite hv _ _
  have hvalue (ending : String) (h : ending ∈ endings) :
      operandOf ((assemble g plan).evaluate (standardOps A ops) feed) (stem ++ ending) =
        (assemble g plan).evaluate (standardOps A ops) feed (stem ++ ending) :=
    if_neg (stem_append_ne stem h)
  obtain ⟨u, hu, hud, -⟩ := unsqueeze?_one hd
  have hunsqueezed : (assemble g plan).evaluate (standardOps A ops) feed
      (stem ++ "_convstft_unsqueezed") = some (.reals u) := by
    rw [hv.evaluate_output (hmem List.mem_cons_self) rfl (stem_append_ne stem (by decide))]
    change (standardOps A ops _ [operandOf _ signal,
      operandOf _ (stem ++ "_convstft_unsqueeze_axes")] _).head?.join = _
    rw [ht, hmade _ (by decide) List.mem_cons_self, standardOps_unsqueeze, hu]
    rfl
  have hconv : (assemble g plan).evaluate (standardOps A ops) feed
      (stem ++ "_convstft_conv") = (conv? u basis frameStep).map .reals := by
    rw [hv.evaluate_output (hmem (List.mem_cons_of_mem _ List.mem_cons_self)) rfl
      (stem_append_ne stem (by decide))]
    change (standardOps A ops _ [operandOf _ (stem ++ "_convstft_unsqueezed"),
      operandOf _ (stem ++ "_convstft_weight")] _).head?.join = _
    rw [hvalue _ (by decide), hunsqueezed,
      hmade _ (by decide) (List.mem_cons_of_mem _ List.mem_cons_self),
      standardOps_conv (by rw [hud]; rfl)]
    rfl
  have hreshaped : (assemble g plan).evaluate (standardOps A ops) feed
      (stem ++ "_convstft_reshaped") =
        ((conv? u basis frameStep).bind fun c =>
          reshape? c (layout.reshapeShape (basis.dims.headD 0 / 2))).map .reals := by
    rw [hv.evaluate_output
      (hmem (List.mem_cons_of_mem _ (List.mem_cons_of_mem _ List.mem_cons_self))) rfl
      (stem_append_ne stem (by decide))]
    change (standardOps A ops _ [operandOf _ (stem ++ "_convstft_conv"),
      operandOf _ (stem ++ "_convstft_reshape_shape")] _).head?.join = _
    rw [hvalue _ (by decide), hconv, hmade _ (by decide)
      (List.mem_cons_of_mem _ (List.mem_cons_of_mem _ List.mem_cons_self)), standardOps_reshape]
    rfl
  rw [hv.evaluate_output (hmem (List.mem_cons_of_mem _ (List.mem_cons_of_mem _
    (List.mem_cons_of_mem _ List.mem_cons_self)))) hy hne]
  change (standardOps A ops _ [operandOf _ (stem ++ "_convstft_reshaped")] _).head?.join = _
  rw [hvalue _ (by decide), hreshaped, standardOps_transpose, convStft?, hu, Option.bind_eq_bind,
    Option.bind_some, Option.bind_assoc]
  rfl

end Values

section Meanings
variable {A : Trig K} {layout : Layout} {g : Model (Value K)} {n : Node}
  {plan : List (Step (Value K))} {s : Step (Value K)}

omit [Field K] in
theorem constScalar?_spec {x : String} {i : Int} (h : constScalar? g x = some i) :
    ∃ v, g.initializer? x = some v ∧ v.scalar? = some i := Option.bind_eq_some_iff.mp h

theorem constVector?_spec {x : String} {w : NdArray K} (h : constVector? g x = some w) :
    ∃ v, g.initializer? x = some v ∧ v.asReals = w ∧ w.dims.length = 1 := by
  obtain ⟨v, hv, h⟩ := Option.bind_eq_some_iff.mp h
  split at h
  · rename_i hlength
    cases h
    exact ⟨v, hv, rfl, hlength⟩
  · cases h

theorem standardOps_stft {ops : Ops (Value K)} {caps : List (Option (Value K))} {t : NdArray K}
    (hop : n.opType = "STFT") (hstd : n.isStandard = true) (ht : t.dims.length = 2)
    (step window length : Value K) :
    standardOps A ops n.operation [some (.reals t), some step, some window, some length] caps =
      [(transform? A (isOnesided n.attributes) t step window length).map .reals] := by
  have hdomain : ¬ (n.domain ≠ "" ∧ n.domain ≠ "ai.onnx") := by
    simpa [Node.isStandard, or_iff_not_imp_left] using hstd
  exact (if_neg hdomain).trans ((if_pos hop).trans (if_pos ht))

/-- The node's transform, by the constants a step found. -/
theorem nodeTransform?_eq {signal stepName windowName lengthName : String} {rest : List String}
    {frameStep frameLength : Int} {window t : NdArray K}
    (hin : n.inputs = signal :: stepName :: windowName :: lengthName :: rest)
    (hstep : constScalar? g stepName = some frameStep)
    (hwindow : constVector? g windowName = some window)
    (hlength : constScalar? g lengthName = some frameLength) :
    nodeTransform? A g n t =
      stft? A t frameStep window frameLength (isOnesided n.attributes) := by
  obtain ⟨vs, hs, hs'⟩ := constScalar?_spec hstep
  obtain ⟨vw, hw, hw', -⟩ := constVector?_spec hwindow
  obtain ⟨vl, hl, hl'⟩ := constScalar?_spec hlength
  simp [nodeTransform?, hin, hs, hw, hl, transform?, hs', hw', hl']

/-- What a step found at a node it replaces, and where the node's signal and value are. -/
theorem replaced_spec (hschema : SchemaNodes g) (hplan : plan? A (-1) layout g = some plan)
    (hs : s ∈ plan) (hsite : s.site.isSome = true) {y : String} (hy : y ∈ s.node.outputs)
    {E : String → Option (Value K)} {t : NdArray K} {b : Nat} (ht : Signal E s.node t b) :
    s.node ∈ g.nodes ∧ s.node.opType = "STFT" ∧ s.node.outputs = [y] ∧ y ≠ "" ∧
    ∃ signal stepName windowName lengthName rest frameStep window frameLength basis stem l,
      s.node.inputs = signal :: stepName :: windowName :: lengthName :: rest ∧
      constScalar? g stepName = some frameStep ∧ constVector? g windowName = some window ∧
      constScalar? g lengthName = some frameLength ∧
      makeBasis? A window frameLength (isOnesided s.node.attributes) (-1) layout = some basis ∧
      s.site = some (convertedSite s.node stem signal frameStep basis layout) ∧
      t.dims = [b, l] ∧ operandOf E signal = some (.reals t) := by
  obtain ⟨hnodes, hsteps⟩ := mapM_spec (fun _ _ h => step?_node h) hplan
  obtain ⟨site, hsite⟩ := Option.isSome_iff_exists.mp hsite
  obtain ⟨hop, signal, stepName, windowName, lengthName, rest, frameStep, window, frameLength,
    basis, stem, hin, hstep, hwindow, hlength, hbasis, rfl⟩ := step?_site (hsteps s hs) hsite
  have hn : s.node ∈ g.nodes := hnodes ▸ List.mem_map_of_mem hs
  obtain ⟨y', hy', hne⟩ := hschema.output s.node hn hop
  obtain rfl : y = y' := List.mem_singleton.mp (hy' ▸ hy)
  obtain ⟨⟨l, hd⟩, x, hx, hread⟩ := ht
  obtain rfl : signal = x := by
    rw [hin] at hx
    exact Option.some.inj hx
  exact ⟨hn, hop, hy', hne, signal, stepName, windowName, lengthName, rest, frameStep, window,
    frameLength, basis, stem, l, hin, hstep, hwindow, hlength, hbasis, hsite, hd, hread⟩

/-- A node replaced has the transform of its signal as its value, save that of an empty
batch, which has none. -/
theorem evaluate_output_eq (hg : g.Valid) (hschema : SchemaNodes g)
    (hplan : plan? A (-1) layout g = some plan) (hf : Fresh g plan) (hs : s ∈ plan)
    (hsite : s.site.isSome = true) {y : String} (hy : y ∈ s.node.outputs) {t : NdArray K} {b : Nat}
    {ops : Ops (Value K)} {feed : String → Option (Value K)}
    (ht : Signal ((assemble g plan).evaluate (standardOps A ops) feed) s.node t b) :
    (assemble g plan).evaluate (standardOps A ops) feed y =
      if b = 0 then none else (nodeTransform? A g s.node t).map .reals := by
  obtain ⟨-, -, hout, hne, signal, stepName, windowName, lengthName, rest, frameStep, window,
    frameLength, basis, stem, l, hin, hstep, hwindow, hlength, hbasis, hsite, hd, hread⟩ :=
    replaced_spec hschema hplan hs hsite hy ht
  obtain ⟨-, -, -, hrank⟩ := constVector?_spec hwindow
  rw [evaluate_block hg hplan hf hs hsite hout hne ops feed hd hread,
    convStft?_eq hd hrank hbasis, nodeTransform?_eq hin hstep hwindow hlength]
  split <;> rfl

/-- A node of ONNX itself has the transform of its signal as its value. -/
theorem evaluate_stft (hg : g.Valid) (hschema : SchemaNodes g)
    (hplan : plan? A (-1) layout g = some plan) (hs : s ∈ plan) (hsite : s.site.isSome = true)
    (hstd : s.node.isStandard = true) {y : String} (hy : y ∈ s.node.outputs) {t : NdArray K}
    {b : Nat} {ops : Ops (Value K)} {feed : String → Option (Value K)}
    (ht : Signal (g.evaluate (standardOps A ops) feed) s.node t b) :
    g.evaluate (standardOps A ops) feed y = (nodeTransform? A g s.node t).map .reals := by
  obtain ⟨hn, hop, hout, hne, signal, stepName, windowName, lengthName, rest, frameStep, window,
    frameLength, basis, stem, l, hin, hstep, hwindow, hlength, -, -, hd, hread⟩ :=
    replaced_spec hschema hplan hs hsite hy ht
  obtain rfl : rest = [] := by
    have hlen := hschema.operands s.node hn hop
    simp only [hin, List.length_cons] at hlen
    exact List.length_eq_zero_iff.mp (by omega)
  have hconst {x : String} {v : Value K} (hx : x ∈ s.node.inputs.drop 1)
      (hv : g.initializer? x = some v) :
      operandOf (g.evaluate (standardOps A ops) feed) x = some v := by
    have hne : x ≠ "" := by
      rintro rfl
      refine hg.named (List.mem_append_right _ (lookup_isSome.mp ?_))
      rw [← Model.initializer?, hv]
      rfl
    rw [operandOf, if_neg hne]
    exact hg.evaluate_initializer hv (hschema.constant s.node hn hop x hx) _ _
  obtain ⟨vs, hs, -⟩ := constScalar?_spec hstep
  obtain ⟨vw, hw, -⟩ := constVector?_spec hwindow
  obtain ⟨vl, hl, -⟩ := constScalar?_spec hlength
  have htransform : nodeTransform? A g s.node t =
      transform? A (isOnesided s.node.attributes) t vs vw vl := by
    simp [nodeTransform?, hin, hs, hw, hl]
  rw [hg.evaluate_output hn hout hne, hin]
  change (standardOps A ops _ [operandOf _ signal, operandOf _ stepName, operandOf _ windowName,
    operandOf _ lengthName] _).head?.join = _
  rw [hread, hconst (by simp [hin]) hs, hconst (by simp [hin]) hw, hconst (by simp [hin]) hl,
    standardOps_stft hop hstd (by rw [hd]; rfl), htransform]
  rfl

/-- The rewriter's model is what the transforms mean just when the names made are free. -/
theorem rewrite_iff (hg : g.Valid) (hschema : SchemaNodes g)
    (hplan : plan? A (-1) layout g = some plan) :
    rewrite? A (-1) layout g = some (assemble g plan) ∧
      (Rewrites A g plan (assemble g plan) ↔ Harmless g plan) := by
  have hp := planned hplan
  refine ⟨by rw [rewrite?, hplan]; rfl, fun h => ?_, fun h => ?_⟩
  · have hf := (valid_assemble_iff hg hp).mp ⟨h.valid, h.inputs⟩
    exact ⟨hf, fun hkept => ((nodeNames_assemble hp).mp (h.nodeNames hkept)).2.2⟩
  · obtain ⟨hv, hinputs⟩ := (valid_assemble_iff hg hp).mpr h.fresh
    refine ⟨hv, hinputs, fun hkept => ?_, fun ops feed s hs hsite y hy t b ht => ?_,
      fun ops feed hsignals x hx => ?_⟩
    · exact (nodeNames_assemble hp).mpr ⟨h.fresh.distinct, hkept, h.nodeNames hkept⟩
    · rw [evaluate_output_eq hg hschema hplan h.fresh hs hsite hy ht]
      by_cases hb : b = 0
      · rw [if_pos hb]
        cases nodeTransform? A g s.node t <;> simp [hb]
      · simp [hb]
    · refine (evaluate_assemble hg hp h.fresh _ feed (fun s hs hsite hreads y hy => ?_) x hx).symm
      obtain ⟨hstd, t, b, ⟨hd, x, hx, hread⟩, hb⟩ := hsignals s hs hsite
      have hread' : operandOf ((assemble g plan).evaluate (standardOps A ops) feed) x =
          some (.reals t) := by
        have hne : x ≠ "" := by
          rintro rfl
          cases hread
        rw [operandOf, if_neg hne] at hread ⊢
        rw [← hread, hreads x (mem_reads.mpr (.inl ⟨List.mem_of_mem_head? hx, hne⟩))]
      have hout : y ∈ s.node.outputs := (mem_binds.mp hy).1
      rw [evaluate_stft hg hschema hplan hs hsite hstd hout ⟨hd, x, hx, hread⟩,
        evaluate_output_eq hg hschema hplan h.fresh hs hsite hout ⟨hd, x, hx, hread'⟩, if_neg hb]

/-- Whole and half turns, the angles of frames of two samples. -/
def halfTurns : Trig ℚ := ⟨1, fun x => if x = 0 then 1 else -1, fun _ => 0⟩

/-- Two transforms of one signal in frames of two samples. -/
def twoTransforms (first second : String) : Model (Value ℚ) where
  inputs := ["signal"]
  initializers :=
    [("step", .ints ⟨[], [1], rfl⟩), ("window", .reals ⟨[2], [1, 1 / 2], rfl⟩),
      ("length", .ints ⟨[], [2], rfl⟩)]
  nodes :=
    [makeNode "STFT" ["signal", "step", "window", "length"] ["y"] first [],
      makeNode "STFT" ["signal", "step", "window", "length"] ["z"] second []]
  outputs := ["y", "z"]

theorem valid_twoTransforms (first second : String) : (twoTransforms first second).Valid where
  inputs := List.nodup_singleton "signal"
  initializers := show ["step", "window", "length"].Nodup by decide
  bound := show ["y", "z"].Nodup by decide
  new := show ∀ x ∈ ["y", "z"], x ∉ ["signal", "step", "window", "length"] by decide
  named := show "" ∉ ["signal", "step", "window", "length"] by decide
  inScope := by
    simp [Shape.Scoped, Shape.AtEach, shape, twoTransforms, makeNode, Model.known,
      Model.initializerNames]
  unshadowed := by simp [Shape.Unshadowed, Shape.AtEach, shape, twoTransforms, makeNode]
  outputs := show ∀ x ∈ ["y", "z"], x ∈ ["signal", "step", "window", "length", "y", "z"] by decide

theorem schemaNodes_twoTransforms (first second : String) :
    SchemaNodes (twoTransforms first second) where
  output n hn _ := by
    rcases List.mem_pair.mp hn with rfl | rfl
    · exact ⟨"y", rfl, by decide⟩
    · exact ⟨"z", rfl, by decide⟩
  operands n hn _ := by
    rcases List.mem_pair.mp hn with rfl | rfl <;> exact le_rfl
  constant n hn _ := by
    rcases List.mem_pair.mp hn with rfl | rfl <;>
      exact show ∀ x ∈ ["step", "window", "length"], x ∉ ["signal"] by decide

/-- Two nodes under names that stay different. -/
theorem rewrite_iff_two :
    ∃ plan, plan? halfTurns (-1) .blocked (twoTransforms "a" "b") = some plan ∧
      Rewrites halfTurns (twoTransforms "a" "b") plan (assemble (twoTransforms "a" "b") plan) := by
  refine ⟨_, rfl, (rewrite_iff (valid_twoTransforms "a" "b") (schemaNodes_twoTransforms "a" "b")
    rfl).2.mpr ⟨Fresh.of_all ?_ ?_ ?_, fun _ => ?_⟩⟩ <;> decide

/-- Names that differ in a slash only give the initializers of two nodes the same names. -/
theorem slash_clashes :
    (twoTransforms "a/b" "a_b").Valid ∧ SchemaNodes (twoTransforms "a/b" "a_b") ∧
      ∃ plan, plan? halfTurns (-1) .interleaved (twoTransforms "a/b" "a_b") = some plan ∧
        ¬ (assemble (twoTransforms "a/b" "a_b") plan).Valid := by
  refine ⟨valid_twoTransforms _ _, schemaNodes_twoTransforms _ _, _, rfl, fun h => ?_⟩
  exact absurd h.initializers (by decide)

end Meanings

end JetsonVoice.Stft
