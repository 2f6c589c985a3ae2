import JetsonVoice.Foundation.DerivedNames
import JetsonVoice.W8A16.Evaluation
import Mathlib.Data.List.Perm.Basic

/-!
# Replacing MatMul nodes by chains of nodes

Both rewriters walk the nodes of a graph and replace some `MatMul` nodes by a
chain: scale or cast the activation, run the plugin, cast its output back. They
store new initializers, drop weights nobody is thought to read, and leave every
other node as it is.

## Implementation notes

A plan lists the nodes with what each becomes. The opset imports and the summary
a rewriter prints are left out.
-/

namespace JetsonVoice.W8A16

open Onnx Onnx.Tensor Foundation.SingleAssignment Foundation.DerivedNames

section Plans

/-- A node of a chain; its first operand is the value before it. -/
structure Stage where
  name : String
  opType : String
  domain : String
  extra : List String
  attributes : List (String × Attr)
  output : String

def Stage.node (st : Stage) (input : String) : Node where
  name := st.name
  opType := st.opType
  domain := st.domain
  inputs := input :: st.extra
  outputs := [st.output]
  attributes := st.attributes
  captures := []
  inner := []

/-- The nodes of a chain from an activation. -/
def chain (input : String) : List Stage → List Node
  | [] => []
  | st :: rest => st.node input :: chain st.output rest

/-- A converted node: the name its new names start with, its chain, its new
initializers, and what it is to compute, a product with a dequantised weight behind an
optional scaling of the activation. -/
structure Site where
  safeName : String
  activation : String
  stages : List Stage
  consts : List (String × Tensor)
  smoothing : Option Tensor
  dequantised : Tensor

structure Step where
  node : Node
  site : Option Site

def Step.block (s : Step) : List Node :=
  match s.site with
  | none => [s.node]
  | some site => chain site.activation site.stages

def Step.consts (s : Step) : List (String × Tensor) :=
  match s.site with
  | none => []
  | some site => site.consts

/-- The values a chain binds beside the node's own output. -/
def Step.temps (s : Step) : List String :=
  match s.site with
  | none => []
  | some site => (site.stages.map Stage.output).dropLast

/-- The names a step makes up. -/
def Step.made (s : Step) : List String := s.consts.map Prod.fst ++ s.temps

/-- The rewritten graph. -/
def assemble (g : Graph) (keeps : String → Bool) (plan : List Step) : Graph :=
  { g with
    initializers := g.initializers.filter (fun p => keeps p.1) ++ plan.flatMap Step.consts
    nodes := plan.flatMap Step.block }

end Plans

section Reference

/-- The operator of a `Mul` node. -/
def mulOperator : Operator := ⟨"Mul", "", [], [], []⟩

/-- An activation scaled as a converted node wants it. -/
def Site.smooth (I : Interp) (site : Site) (v : Option Tensor) : Option Tensor :=
  match site.smoothing with
  | none => v
  | some u => mulOf I mulOperator v (some u)

/-- The values of a node of the original graph, its activation scaled and its weight
replaced by the dequantised one when it is converted. -/
def Step.apply (I : Interp) (s : Step) (args caps : List (Option Tensor)) :
    List (Option Tensor) :=
  match s.site, args with
  | none, args => applySum I s.node args caps
  | some site, a :: _ :: rest =>
      applySum I s.node (site.smooth I a :: some site.dequantised :: rest) caps
  | some _, _ => []

def stepShape : Shape Step String where
  reads s := shape.reads s.node
  binds s := shape.binds s.node
  hides s := shape.hides s.node

def stepMeaning (I : Interp) : stepShape.Meaning Tensor where
  exec s := execWith (s.apply I) s.node
  exec_congr _ _ _ h := execWith_congr h

/-- All values of a run of the original graph with the converted weights replaced. -/
def reference (I : Interp) (g : Graph) (plan : List Step) (feed : String → Option Tensor) :
    String → Option Tensor :=
  (stepMeaning I).run (g.start feed) plan

/-- The names the graph's outputs and the unconverted nodes read. -/
def readElsewhere (g : Graph) (plan : List Step) : List String :=
  g.outputs ++ plan.flatMap fun s => if s.site.isNone then shape.reads s.node else []

/-- The rewritten graph is valid; the nodes that were not converted are in it and find
the initializers they read; and every value is that of the original graph with the
converted weights replaced. -/
structure Preserves (g : Graph) (plan : List Step) (out : Graph) : Prop where
  valid : out.Valid
  unconverted : ∀ s ∈ plan, s.site = none → s.node ∈ out.nodes
  keepsInputs : ∀ x ∈ readElsewhere g plan, ∀ t, g.initializer? x = some t →
    out.initializer? x = some t
  agrees : ∀ I feed, ∀ x ∈ readElsewhere g plan ++ shape.bound g.nodes,
    evaluateSums I out feed x = reference I g plan feed x

/-- Only nodes of ONNX itself are converted, under different names; the names made up
are new; and a weight that is dropped is not read elsewhere, unless it is stored again
under its own name. -/
structure Harmless (g : Graph) (keeps : String → Bool) (plan : List Step) : Prop where
  standard : ∀ s ∈ plan, s.site.isSome = true → s.node.isStandard = true
  distinct : (plan.filterMap fun s => s.site.map Site.safeName).Nodup
  unused : ∀ x ∈ plan.flatMap Step.made,
    x ∉ g.inputs ++ g.initializerNames.filter keeps ++ shape.bound g.nodes
  constsUnshadowed : ∀ x ∈ (plan.flatMap Step.consts).map Prod.fst, ∀ s ∈ plan, s.site = none →
    x ∉ s.node.inner
  tempsUnshadowed : ∀ before s behind, plan = before ++ s :: behind → s.site = none →
    ∀ x ∈ before.flatMap Step.temps, x ∉ s.node.inner
  stored : ∀ x ∈ readElsewhere g plan, ∀ t, g.initializer? x = some t → keeps x = false →
    (plan.flatMap Step.consts).lookup x = some t

end Reference

section Chains
variable {I : Interp} {e : String → Option Tensor} {stages : List Stage} {known : List String}
  {consts : List (String × Tensor)} {a x : String}

/-- The value of a stage from the value before it. -/
def stageValue (I : Interp) (st : Stage) (v : Option Tensor) (extra : List (Option Tensor)) :
    Option Tensor :=
  (applySum I (st.node "") (v :: extra) []).head?.join

/-- The value of a chain from its activation. -/
def chainValue (I : Interp) (consts : List (String × Tensor)) :
    List Stage → Option Tensor → Option Tensor
  | [], v => v
  | st :: rest, v =>
      chainValue I consts rest (stageValue I st v (st.extra.map fun x => consts.lookup x))

theorem chainValue_append (stages' : List Stage) (v : Option Tensor) :
    chainValue I consts (stages ++ stages') v =
      chainValue I consts stages' (chainValue I consts stages v) := by
  induction stages generalizing v with
  | nil => rfl
  | cons st rest ih => exact ih _

theorem binds_stage {st : Stage} (h : st.output ≠ "") : shape.binds (st.node a) = [st.output] := by
  simp [shape, Stage.node, h]

theorem bound_chain (h : ∀ st ∈ stages, st.output ≠ "") (a : String) :
    shape.bound (chain a stages) = stages.map Stage.output := by
  induction stages generalizing a with
  | nil => rfl
  | cons st rest ih =>
      rw [chain, Shape.bound_cons, binds_stage (h st List.mem_cons_self),
        ih fun t ht => h t (List.mem_cons_of_mem st ht)]
      rfl

/-- The value bound under the name of a node's only output. -/
theorem lookup_zip_singleton (y : String) (values : List (Option Tensor)) :
    (([y].zip values).lookup y).join = values.head?.join := by
  cases values <;> simp

theorem step_stage {st : Stage} (h : st.output ≠ "")
    (hextra : ∀ x ∈ st.extra, x ≠ "" ∧ e x = consts.lookup x) :
    (sumMeaning I).step e (st.node a) st.output =
      stageValue I st (operand e a) (st.extra.map fun x => consts.lookup x) := by
  rw [Shape.Meaning.step_of_mem (by simp [binds_stage h])]
  have hmap : st.extra.map (operand e) = st.extra.map fun x => consts.lookup x :=
    List.map_congr_left fun x hx => by
      rw [operand, if_neg (hextra x hx).1, (hextra x hx).2]
  change (([st.output].zip (applySum I (st.node a) (operand e a :: st.extra.map (operand e))
    [])).lookup st.output).join = _
  rw [hmap, lookup_zip_singleton]
  rfl

/-- A chain computes its value under the name of its last stage, when the initializers
it reads are there and none of its stages overwrites them. -/
theorem run_chain (hne : stages ≠ []) (hout : ∀ st ∈ stages, st.output ≠ "")
    (hextra : ∀ st ∈ stages, ∀ x ∈ st.extra, x ≠ "" ∧ e x = consts.lookup x ∧
      x ∉ stages.map Stage.output) :
    (sumMeaning I).run e (chain a stages) (stages.getLast hne).output =
      chainValue I consts stages (operand e a) := by
  induction stages generalizing a e with
  | nil => exact absurd rfl hne
  | cons st rest ih =>
      have hst := step_stage (I := I) (a := a) (hout st List.mem_cons_self) fun x hx =>
        ⟨(hextra st List.mem_cons_self x hx).1, (hextra st List.mem_cons_self x hx).2.1⟩
      rw [chain, Shape.Meaning.run_cons]
      by_cases hrest : rest = []
      · subst hrest
        exact hst
      · rw [List.getLast_cons hrest, chainValue, ← hst]
        refine (ih hrest (fun t ht => hout t (List.mem_cons_of_mem st ht)) ?_).trans ?_
        · intro t ht x hx
          obtain ⟨hx0, hex, hx1⟩ := hextra t (List.mem_cons_of_mem st ht) x hx
          rw [List.map_cons, List.mem_cons, not_or] at hx1
          refine ⟨hx0, ?_, hx1.2⟩
          rw [Shape.Meaning.step_of_not_mem, hex]
          simpa [binds_stage (hout st List.mem_cons_self)] using hx1.1
        · rw [operand, if_neg (hout st List.mem_cons_self)]

/-- Every operand of a chain is known when its activation and its initializers are. -/
theorem scoped_chain (hout : ∀ st ∈ stages, st.output ≠ "") (ha : a ≠ "" → a ∈ known)
    (hextra : ∀ st ∈ stages, ∀ x ∈ st.extra, x ∈ known) :
    shape.Scoped known (chain a stages) := by
  induction stages generalizing a known with
  | nil => trivial
  | cons st rest ih =>
      have hb := binds_stage (a := a) (hout st List.mem_cons_self)
      refine ⟨fun x hx => ?_, ih (fun t ht => hout t (List.mem_cons_of_mem st ht)) ?_ ?_⟩
      · rcases mem_reads.mp hx with ⟨hx, hne⟩ | hx
        · rcases List.mem_cons.mp hx with rfl | hx
          · exact ha hne
          · exact hextra st List.mem_cons_self x hx
        · cases hx
      · intro _
        simp [hb]
      · intro t ht x hx
        exact List.mem_append_left _ (hextra t (List.mem_cons_of_mem st ht) x hx)

theorem unshadowed_chain (known : List String) (a : String) (stages : List Stage) :
    shape.Unshadowed known (chain a stages) := by
  induction stages generalizing a known with
  | nil => trivial
  | cons st rest ih =>
      change (∀ x ∈ ([] : List String), x ∉ known) ∧ _
      exact ⟨fun x hx => (List.not_mem_nil hx).elim, ih _ _⟩

/-- The nodes of a chain are those of its stages. -/
theorem mem_chain {n : Node} (hn : n ∈ chain a stages) : ∃ st ∈ stages, ∃ b, n = st.node b := by
  induction stages generalizing a with
  | nil => cases hn
  | cons st rest ih =>
      rcases List.mem_cons.mp hn with rfl | hn
      · exact ⟨st, List.mem_cons_self, a, rfl⟩
      · obtain ⟨t, ht, b, hb⟩ := ih hn
        exact ⟨t, List.mem_cons_of_mem st ht, b, hb⟩

end Chains

section Plan

/-- The name an ending makes of a sanitised one. -/
def names (endings : List String) (safeName : String) : List String :=
  endings.map (safeName ++ ·)

/-- A chain fits the node it stands for: from the node's activation, which stays, to its
output, over initializers of its own, it computes the product it is to compute. -/
structure Fits (g : Graph) (keeps : String → Bool) (endings : List String) (n : Node)
    (site : Site) : Prop where
  matMul : n.opType = "MatMul"
  inputs : ∃ w rest, n.inputs = site.activation :: w :: rest
  output : ∀ y, n.outputs = [y] → site.stages.getLast?.map Stage.output = some y
  stages : ∀ st ∈ site.stages, st.opType ≠ "MatMul" ∧ ∀ x ∈ st.extra, x ∈ site.consts.map Prod.fst
  made : (Step.mk n (some site)).made = names endings site.safeName
  kept : site.activation ∈ g.initializerNames → keeps site.activation = true
  matrix : site.dequantised.dims.length = 2
  computes : ∀ I v, chainValue I site.consts site.stages v =
    (site.smooth I v).bind fun a => matmul? a site.dequantised

/-- A plan for the nodes of a graph. -/
structure Planned (g : Graph) (keeps : String → Bool) (endings : List String)
    (plan : List Step) : Prop where
  nodes : plan.map Step.node = g.nodes
  separate : Separate (endings.map String.toList)
  named : endings ≠ [] ∧ "" ∉ endings
  fits : ∀ s ∈ plan, ∀ site, s.site = some site → Fits g keeps endings s.node site

section Names
variable {g : Graph} {keeps : String → Bool} {endings : List String} {plan ps : List Step}
  {s : Step} {site : Site} {x : String}

/-- The names made up are different just when the sanitised names are. -/
theorem made_nodup (hp : Planned g keeps endings plan) :
    (plan.flatMap Step.made).Nodup ↔ (plan.filterMap fun s => s.site.map Site.safeName).Nodup := by
  have hinj : Function.Injective String.toList := fun _ _ => String.toList_inj.mp
  have hmade : (plan.flatMap Step.made).map String.toList =
      ((plan.filterMap fun s => s.site.map Site.safeName).map String.toList).flatMap
        (derive (endings.map String.toList)) := by
    have hfits := hp.fits
    clear hp
    induction plan with
    | nil => rfl
    | cons s plan ih =>
        have hrest := ih fun t ht => hfits t (List.mem_cons_of_mem s ht)
        obtain ⟨n, site⟩ := s
        cases site with
        | none => simpa [Step.made, Step.consts, Step.temps] using hrest
        | some site =>
            have hsite := (hfits _ List.mem_cons_self site rfl).made
            simp [hsite, hrest, names, derive, Function.comp_def]
  have hne : endings.map String.toList ≠ [] := by simpa using hp.named.1
  rw [← List.nodup_map_iff hinj, hmade, nodup_flatMap_derive hp.separate hne,
    List.nodup_map_iff hinj]

/-- No name made up is empty. -/
theorem made_ne (hp : Planned g keeps endings plan) (hx : x ∈ plan.flatMap Step.made) : x ≠ "" := by
  obtain ⟨⟨n, site⟩, hs, hx⟩ := List.mem_flatMap.mp hx
  cases site with
  | none => simp [Step.made, Step.consts, Step.temps] at hx
  | some site =>
      rw [(hp.fits _ hs site rfl).made] at hx
      obtain ⟨ending, hmem, rfl⟩ := List.mem_map.mp hx
      intro h
      have hempty := congrArg String.toList h
      rw [String.toList_append, String.toList_empty, List.append_eq_nil_iff] at hempty
      exact hp.named.2 (String.toList_eq_nil_iff.mp hempty.2 ▸ hmem)

theorem made_of_temps (hx : x ∈ plan.flatMap Step.temps) : x ∈ plan.flatMap Step.made := by
  obtain ⟨s, hs, hx⟩ := List.mem_flatMap.mp hx
  exact List.mem_flatMap.mpr ⟨s, hs, List.mem_append_right _ hx⟩

theorem made_of_consts (hx : x ∈ (plan.flatMap Step.consts).map Prod.fst) :
    x ∈ plan.flatMap Step.made := by
  rw [List.map_flatMap] at hx
  obtain ⟨s, hs, hx⟩ := List.mem_flatMap.mp hx
  exact List.mem_flatMap.mpr ⟨s, hs, List.mem_append_left _ hx⟩

theorem mem_consts (hs : s ∈ plan) (hsite : s.site = some site)
    (hx : x ∈ site.consts.map Prod.fst) : x ∈ (plan.flatMap Step.consts).map Prod.fst := by
  rw [List.map_flatMap]
  refine List.mem_flatMap.mpr ⟨s, hs, ?_⟩
  rw [Step.consts, hsite]
  exact hx

/-- The names made up, the initializers first. -/
theorem made_perm (plan : List Step) :
    ((plan.flatMap Step.consts).map Prod.fst ++ plan.flatMap Step.temps).Perm
      (plan.flatMap Step.made) := by
  rw [List.map_flatMap]
  exact List.flatMap_append_perm plan _ _

/-- A converted node has one output, which its chain binds last. -/
theorem outputs_eq (hg : g.Valid) (hp : Planned g keeps endings plan) (hs : s ∈ plan)
    (hsite : s.site = some site) : ∃ y, s.node.outputs = [y] ∧ y ≠ "" ∧ site.stages ≠ [] ∧
      site.stages.map Stage.output = s.temps ++ [y] := by
  have hfit := hp.fits s hs site hsite
  obtain ⟨y, hy, hne, -⟩ := hg.matMul s.node (hp.nodes ▸ List.mem_map_of_mem hs) hfit.matMul
  have hlast := hfit.output y hy
  have hstages : site.stages ≠ [] := by
    intro h
    simp [h] at hlast
  refine ⟨y, hy, hne, hstages, ?_⟩
  rw [← List.getLast?_map] at hlast
  rw [Step.temps, hsite]
  exact (List.dropLast_append_getLast? y hlast).symm

theorem outputs_ne (hg : g.Valid) (hp : Planned g keeps endings plan) (hs : s ∈ plan)
    (hsite : s.site = some site) : ∀ st ∈ site.stages, st.output ≠ "" := by
  intro st hst
  obtain ⟨y, -, hne, -, hmap⟩ := outputs_eq hg hp hs hsite
  have hmem : st.output ∈ s.temps ++ [y] := hmap ▸ List.mem_map_of_mem hst
  rcases List.mem_append.mp hmem with h | h
  · exact made_ne hp (made_of_temps (List.mem_flatMap.mpr ⟨s, hs, h⟩))
  · exact List.mem_singleton.mp h ▸ hne

theorem bound_block (hg : g.Valid) (hp : Planned g keeps endings plan) (hs : s ∈ plan) :
    shape.bound s.block = s.temps ++ shape.binds s.node := by
  cases hsite : s.site with
  | none => simp [Step.block, Step.temps, hsite]
  | some site =>
      obtain ⟨y, hy, hne, -, hmap⟩ := outputs_eq hg hp hs hsite
      rw [Step.block, hsite]
      change shape.bound (chain site.activation site.stages) = _
      rw [bound_chain (outputs_ne hg hp hs hsite), hmap]
      simp [shape, hy, hne]

/-- What some blocks bind: names made up, and what their nodes bound. -/
theorem bound_blocks (hg : g.Valid) (hp : Planned g keeps endings plan) (hps : ∀ s ∈ ps, s ∈ plan) :
    (shape.bound (ps.flatMap Step.block)).Perm
      (ps.flatMap Step.temps ++ shape.bound (ps.map Step.node)) := by
  have heq : shape.bound (ps.flatMap Step.block) =
      ps.flatMap fun s => s.temps ++ shape.binds s.node := by
    rw [Shape.bound, List.flatMap_assoc]
    exact List.flatMap_congr fun s hs => bound_block hg hp (hps s hs)
  have hnodes : shape.bound (ps.map Step.node) = ps.flatMap fun s => shape.binds s.node := by
    rw [Shape.bound, List.flatMap_map]
  rw [heq, hnodes]
  exact (List.flatMap_append_perm ps _ _).symm

theorem initializerNames_assemble (g : Graph) (keeps : String → Bool) (plan : List Step) :
    (assemble g keeps plan).initializerNames =
      g.initializerNames.filter keeps ++ (plan.flatMap Step.consts).map Prod.fst := by
  rw [Graph.initializerNames, Graph.initializerNames, List.filter_map]
  exact List.map_append

/-- All names of the rewritten graph: those made up, and those that stay. -/
theorem names_perm (hg : g.Valid) (hp : Planned g keeps endings plan) :
    ((assemble g keeps plan).known ++ shape.bound (assemble g keeps plan).nodes).Perm
      (plan.flatMap Step.made ++
        (g.inputs ++ g.initializerNames.filter keeps ++ shape.bound g.nodes)) := by
  have hbound : (shape.bound (plan.flatMap Step.block)).Perm
      (plan.flatMap Step.temps ++ shape.bound (plan.map Step.node)) :=
    bound_blocks hg hp fun _ h => h
  rw [hp.nodes] at hbound
  rw [Graph.known, initializerNames_assemble]
  change (g.inputs ++ _ ++ shape.bound (plan.flatMap Step.block)).Perm _
  refine (hbound.append_left _).trans ?_
  refine List.Perm.trans ?_ ((made_perm plan).append_right _)
  rw [List.perm_iff_count]
  intro x
  simp only [List.count_append]
  omega

/-- The names that stay are different. -/
theorem staying_nodup (hg : g.Valid) (keeps : String → Bool) :
    (g.inputs ++ g.initializerNames.filter keeps ++ shape.bound g.nodes).Nodup := by
  refine List.Nodup.sublist ?_ hg.names
  exact ((List.Sublist.refl _).append List.filter_sublist).append (List.Sublist.refl _)

/-- The rewritten graph's names are unique just when the sanitised names are and the
names made up are new. -/
theorem names_nodup_iff (hg : g.Valid) (hp : Planned g keeps endings plan) :
    ((assemble g keeps plan).known ++ shape.bound (assemble g keeps plan).nodes).Nodup ↔
      (plan.filterMap fun s => s.site.map Site.safeName).Nodup ∧
        ∀ x ∈ plan.flatMap Step.made,
          x ∉ g.inputs ++ g.initializerNames.filter keeps ++ shape.bound g.nodes := by
  rw [(names_perm hg hp).nodup_iff, List.nodup_append, made_nodup hp]
  constructor
  · rintro ⟨hmade, -, hdisjoint⟩
    exact ⟨hmade, fun x hx hx' => hdisjoint x hx x hx' rfl⟩
  · rintro ⟨hmade, hdisjoint⟩
    exact ⟨hmade, staying_nodup hg keeps, fun x hx y hy hxy => hdisjoint x hx (hxy ▸ hy)⟩

theorem initializer?_assemble (g : Graph) (keeps : String → Bool) (plan : List Step) (x : String) :
    (assemble g keeps plan).initializer? x =
      (if keeps x then g.initializer? x else none).or ((plan.flatMap Step.consts).lookup x) := by
  rw [Graph.initializer?, assemble, List.lookup_append, lookup_filter]
  rfl

/-- A name means the same before the first node, and no chain binds it on the way. -/
def Tracked (g : Graph) (keeps : String → Bool) (plan : List Step) (x : String) : Prop :=
  x ∉ plan.flatMap Step.temps ∧
    ∀ feed, g.start feed x = (assemble g keeps plan).start feed x

/-- A name known before the first node stays known when it is stored or kept. -/
theorem tracked_known (hp : Planned g keeps endings plan) (h : Harmless g keeps plan)
    (hx : x ∈ g.known) (hstored : ∀ t, g.initializer? x = some t → keeps x = false →
      (plan.flatMap Step.consts).lookup x = some t) :
    x ∈ (assemble g keeps plan).known ∧ Tracked g keeps plan x := by
  have hfresh (hstays : x ∈ g.inputs ++ g.initializerNames.filter keeps) :
      x ∉ plan.flatMap Step.made := fun hmade =>
    h.unused x hmade (List.mem_append_left _ hstays)
  rw [Graph.known, initializerNames_assemble]
  change x ∈ g.inputs ++ _ ∧ _
  by_cases hinit : x ∈ g.initializerNames
  · obtain ⟨t, ht⟩ := Graph.mem_initializerNames.mp hinit
    by_cases hk : keeps x = true
    · have hstays : x ∈ g.initializerNames.filter keeps := List.mem_filter.mpr ⟨hinit, hk⟩
      refine ⟨List.mem_append_right _ (List.mem_append_left _ hstays), fun htemp => ?_,
        fun feed => ?_⟩
      · exact hfresh (List.mem_append_right _ hstays) (made_of_temps htemp)
      · rw [Graph.start, Graph.start, initializer?_assemble, if_pos hk, ht]
        rfl
    · have hk' : keeps x = false := Bool.eq_false_iff.mpr hk
      have hconst : x ∈ (plan.flatMap Step.consts).map Prod.fst :=
        lookup_isSome.mp (by rw [hstored t ht hk']; rfl)
      refine ⟨List.mem_append_right _ (List.mem_append_right _ hconst), fun htemp => ?_,
        fun feed => ?_⟩
      · have hnodup := (made_perm plan).nodup_iff.mpr ((made_nodup hp).mpr h.distinct)
        exact (List.nodup_append.mp hnodup).2.2 x hconst x htemp rfl
      · rw [Graph.start, Graph.start, initializer?_assemble, hstored t ht hk', if_neg hk, ht]
        rfl
  · have hinput : x ∈ g.inputs := (List.mem_append.mp hx).resolve_right hinit
    have hnone : g.initializer? x = none := lookup_eq_none.mpr hinit
    have hmade := hfresh (List.mem_append_left _ hinput)
    refine ⟨List.mem_append_left _ hinput, fun htemp => hmade (made_of_temps htemp),
      fun feed => ?_⟩
    have hconst : (plan.flatMap Step.consts).lookup x = none :=
      lookup_eq_none.mpr fun hc => hmade (made_of_consts hc)
    rw [Graph.start, Graph.start, initializer?_assemble, hnone, hconst, ite_self]
    rfl

/-- A value of the original graph is computed in both graphs. -/
theorem tracked_bound (hg : g.Valid) (h : Harmless g keeps plan) (hx : x ∈ shape.bound g.nodes) :
    Tracked g keeps plan x := by
  have hmade : x ∉ plan.flatMap Step.made := fun hmade =>
    h.unused x hmade (List.mem_append_right _ hx)
  have hknown : x ∉ g.known := fun hk => (List.nodup_append.mp hg.names).2.2 x hk x hx rfl
  rw [Graph.known, List.mem_append, not_or] at hknown
  have hnone : g.initializer? x = none := lookup_eq_none.mpr hknown.2
  have hconst : (plan.flatMap Step.consts).lookup x = none :=
    lookup_eq_none.mpr fun hc => hmade (made_of_consts hc)
  refine ⟨fun htemp => hmade (made_of_temps htemp), fun feed => ?_⟩
  rw [Graph.start, Graph.start, initializer?_assemble, hnone, hconst, ite_self]
  rfl

/-- What is known before a node, from the steps before it. -/
theorem reads_known (hg : g.Valid) (hp : Planned g keeps endings plan)
    {before behind : List Step} (hplan : plan = before ++ s :: behind) :
    ∀ x ∈ shape.reads s.node, x ∈ g.known ++ shape.bound (before.map Step.node) := by
  refine Shape.atEach_iff.mp hg.inScope (before.map Step.node) s.node (behind.map Step.node) ?_
  rw [← hp.nodes, hplan, List.map_append, List.map_cons]

/-- The names an unconverted node reads, and the activation of a converted one, stay
known and tracked. -/
theorem tracked_reads (hg : g.Valid) (hp : Planned g keeps endings plan)
    (h : Harmless g keeps plan) {before behind : List Step} (hplan : plan = before ++ s :: behind)
    (hx : x ∈ shape.reads s.node)
    (hsite : s.site = none ∨ ∃ site, s.site = some site ∧ x = site.activation) :
    x ∈ (assemble g keeps plan).known ++ shape.bound (before.flatMap Step.block) ∧
      Tracked g keeps plan x := by
  have hs : s ∈ plan := by simp [hplan]
  have hbefore : ∀ t ∈ before, t ∈ plan := fun t ht => by simp [hplan, ht]
  rcases List.mem_append.mp (reads_known hg hp hplan x hx) with hknown | hbound
  · have hstored : ∀ t, g.initializer? x = some t → keeps x = false →
        (plan.flatMap Step.consts).lookup x = some t := by
      intro t ht hk
      rcases hsite with hnone | ⟨site, hsome, rfl⟩
      · refine h.stored x (List.mem_append_right _ ?_) t ht hk
        exact List.mem_flatMap.mpr ⟨s, hs, by simp [hnone, hx]⟩
      · have hkept := (hp.fits s hs site hsome).kept (Graph.mem_initializerNames.mpr ⟨t, ht⟩)
        rw [hkept] at hk
        cases hk
    obtain ⟨hk, htracked⟩ := tracked_known hp h hknown hstored
    exact ⟨List.mem_append_left _ hk, htracked⟩
  · have hall : x ∈ shape.bound g.nodes := by
      rw [← hp.nodes, hplan, List.map_append, Shape.bound_append]
      exact List.mem_append_left _ hbound
    refine ⟨List.mem_append_right _ ?_, tracked_bound hg h hall⟩
    exact (bound_blocks hg hp hbefore).symm.subset (List.mem_append_right _ hbound)

theorem activation_mem_reads (hp : Planned g keeps endings plan) (hs : s ∈ plan)
    (hsite : s.site = some site) (hne : site.activation ≠ "") :
    site.activation ∈ shape.reads s.node := by
  obtain ⟨w, rest, hin⟩ := (hp.fits s hs site hsite).inputs
  exact mem_reads.mpr (Or.inl ⟨by simp [hin], hne⟩)

/-- Every operand of the rewritten graph has a producer. -/
theorem inScope_assemble (hg : g.Valid) (hp : Planned g keeps endings plan)
    (h : Harmless g keeps plan) :
    shape.Scoped (assemble g keeps plan).known (assemble g keeps plan).nodes := by
  refine Shape.atEach_flatMap.mpr fun before s behind hplan => ?_
  have hs : s ∈ plan := by simp [hplan]
  cases hsite : s.site with
  | none =>
      rw [Step.block, hsite]
      exact ⟨fun x hx => (tracked_reads hg hp h hplan hx (Or.inl hsite)).1, trivial⟩
  | some site =>
      rw [Step.block, hsite]
      refine scoped_chain (outputs_ne hg hp hs hsite) (fun hne => ?_) fun st hst x hx => ?_
      · exact (tracked_reads hg hp h hplan (activation_mem_reads hp hs hsite hne)
          (Or.inr ⟨site, hsite, rfl⟩)).1
      · refine List.mem_append_left _ (List.mem_append_right _ ?_)
        rw [initializerNames_assemble]
        refine List.mem_append_right _ (mem_consts hs hsite ?_)
        exact ((hp.fits s hs site hsite).stages st hst).2 x hx

/-- The bodies of unconverted nodes shadow nothing new just when the names made up
before them are not bound inside. -/
theorem unshadowed_assemble (hg : g.Valid) (hp : Planned g keeps endings plan) :
    shape.Unshadowed (assemble g keeps plan).known (assemble g keeps plan).nodes ↔
      (∀ x ∈ (plan.flatMap Step.consts).map Prod.fst, ∀ s ∈ plan, s.site = none →
        x ∉ s.node.inner) ∧
      ∀ before s behind, plan = before ++ s :: behind → s.site = none →
        ∀ x ∈ before.flatMap Step.temps, x ∉ s.node.inner := by
  have hknown : (assemble g keeps plan).known = g.inputs ++
      (g.initializerNames.filter keeps ++ (plan.flatMap Step.consts).map Prod.fst) := by
    rw [Graph.known, initializerNames_assemble]
    rfl
  have hbound {before behind : List Step} {s : Step} (hplan : plan = before ++ s :: behind)
      (x : String) :
      x ∈ shape.bound (before.flatMap Step.block) ↔
        x ∈ before.flatMap Step.temps ∨ x ∈ shape.bound (before.map Step.node) := by
    rw [(bound_blocks hg hp fun t ht => by simp [hplan, ht]).mem_iff, List.mem_append]
  have hold {before behind : List Step} {s : Step} (hplan : plan = before ++ s :: behind) :
      ∀ x ∈ s.node.inner, x ∉ g.known ++ shape.bound (before.map Step.node) := by
    refine Shape.atEach_iff.mp hg.unshadowed (before.map Step.node) s.node (behind.map Step.node) ?_
    rw [← hp.nodes, hplan, List.map_append, List.map_cons]
  have hblock {s : Step} (hsite : s.site = none) : s.block = [s.node] := by
    rw [Step.block, hsite]
  constructor
  · intro h
    have hstep {before behind : List Step} {s : Step} (hplan : plan = before ++ s :: behind)
        (hsite : s.site = none) : ∀ x ∈ s.node.inner, x ∉ (assemble g keeps plan).known ++
          shape.bound (before.flatMap Step.block) := by
      have hs := Shape.atEach_flatMap.mp h before s behind hplan
      rw [hblock hsite] at hs
      exact hs.1
    constructor
    · intro x hx s hs hsite hin
      obtain ⟨before, behind, hplan⟩ := List.append_of_mem hs
      refine hstep hplan hsite x hin (List.mem_append_left _ ?_)
      rw [hknown]
      exact List.mem_append_right _ (List.mem_append_right _ hx)
    · intro before s behind hplan hsite x hx hin
      exact hstep hplan hsite x hin
        (List.mem_append_right _ ((hbound hplan x).mpr (Or.inl hx)))
  · rintro ⟨hconsts, htemps⟩
    refine Shape.atEach_flatMap.mpr fun before s behind hplan => ?_
    cases hsite : s.site with
    | some site =>
        rw [Step.block, hsite]
        exact unshadowed_chain _ _ _
    | none =>
        rw [hblock hsite]
        refine ⟨fun x hx hmem => ?_, trivial⟩
        have hnew := hold hplan x hx
        rw [Graph.known, List.mem_append, List.mem_append, not_or, not_or] at hnew
        rw [hknown, List.mem_append, List.mem_append, List.mem_append] at hmem
        rcases hmem with (hinput | hkept | hconst) | hb
        · exact hnew.1.1 hinput
        · exact hnew.1.2 (List.mem_of_mem_filter hkept)
        · exact hconsts x hconst s (by simp [hplan]) hsite hx
        · rcases (hbound hplan x).mp hb with htemp | hb
          · exact htemps before s behind hplan hsite x htemp hx
          · exact hnew.2 hb

/-- A node of the rewritten graph is one of a chain or an unconverted one. -/
theorem mem_assemble {n : Node} (hn : n ∈ (assemble g keeps plan).nodes) :
    ∃ s ∈ plan, (s.site = none ∧ n = s.node) ∨
      ∃ site, s.site = some site ∧ ∃ st ∈ site.stages, ∃ a, n = st.node a := by
  obtain ⟨s, hs, hn⟩ := List.mem_flatMap.mp hn
  refine ⟨s, hs, ?_⟩
  cases hsite : s.site with
  | none =>
      rw [Step.block, hsite] at hn
      exact Or.inl ⟨rfl, List.mem_singleton.mp hn⟩
  | some site =>
      rw [Step.block, hsite] at hn
      exact Or.inr ⟨site, rfl, mem_chain hn⟩

theorem valid_assemble (hg : g.Valid) (hp : Planned g keeps endings plan)
    (h : Harmless g keeps plan) : (assemble g keeps plan).Valid where
  names := (names_nodup_iff hg hp).mpr ⟨h.distinct, h.unused⟩
  named := by
    rw [Graph.known, initializerNames_assemble]
    change "" ∉ g.inputs ++ _
    have hnamed := hg.named
    rw [Graph.known, List.mem_append, not_or] at hnamed
    rw [List.mem_append, List.mem_append, not_or, not_or]
    exact ⟨hnamed.1, fun hk => hnamed.2 (List.mem_of_mem_filter hk),
      fun hc => made_ne hp (made_of_consts hc) rfl⟩
  inScope := inScope_assemble hg hp h
  unshadowed := (unshadowed_assemble hg hp).mpr ⟨h.constsUnshadowed, h.tempsUnshadowed⟩
  outputs := by
    intro x hx
    rcases List.mem_append.mp (hg.outputs x hx) with hk | hb
    · exact List.mem_append_left _ (tracked_known hp h hk
        (h.stored x (List.mem_append_left _ hx))).1
    · refine List.mem_append_right _ ((bound_blocks hg hp fun _ hs => hs).symm.subset ?_)
      rw [hp.nodes]
      exact List.mem_append_right _ hb
  matMul := by
    intro n hn hop
    obtain ⟨s, hs, ⟨-, rfl⟩ | ⟨site, hsite, st, hst, a, rfl⟩⟩ := mem_assemble hn
    · exact hg.matMul s.node (hp.nodes ▸ List.mem_map_of_mem hs) hop
    · exact absurd hop ((hp.fits s hs site hsite).stages st hst).1

end Names

section Runs
variable {g : Graph} {keeps : String → Bool} {endings : List String} {plan : List Step}
  {s : Step} {site : Site} {x y : String} {I : Interp} {e e' : String → Option Tensor}

/-- The initializers made up are there. -/
def Stocked (plan : List Step) (e : String → Option Tensor) : Prop :=
  ∀ x ∈ (plan.flatMap Step.consts).map Prod.fst, e x = (plan.flatMap Step.consts).lookup x

/-- No node overwrites an initializer made up. -/
theorem const_not_bound (hn : (assemble g keeps plan).Valid) (hs : s ∈ plan)
    (hx : x ∈ (plan.flatMap Step.consts).map Prod.fst) : x ∉ shape.bound s.block := by
  intro hb
  have hknown : x ∈ (assemble g keeps plan).known := by
    rw [Graph.known, initializerNames_assemble]
    exact List.mem_append_right _ (List.mem_append_right _ hx)
  have hbound : x ∈ shape.bound (assemble g keeps plan).nodes := by
    change x ∈ shape.bound (plan.flatMap Step.block)
    rw [Shape.bound, List.flatMap_assoc]
    exact List.mem_flatMap.mpr ⟨s, hs, hb⟩
  exact (List.nodup_append.mp hn.names).2.2 x hknown x hbound rfl

theorem stocked_run (hn : (assemble g keeps plan).Valid) (hs : s ∈ plan) (he : Stocked plan e) :
    Stocked plan ((sumMeaning I).run e s.block) := by
  intro x hx
  rw [Shape.Meaning.run_of_not_bound (const_not_bound hn hs hx)]
  exact he x hx

theorem stocked_start (hn : (assemble g keeps plan).Valid) (feed : String → Option Tensor) :
    Stocked plan ((assemble g keeps plan).start feed) := by
  intro x hx
  have hnames := (List.nodup_append.mp (List.nodup_append.mp hn.names).1).2.1
  rw [initializerNames_assemble] at hnames
  have hkept : x ∉ g.initializerNames.filter keeps := fun hk =>
    (List.nodup_append.mp hnames).2.2 x hk x hx rfl
  have hnone : (if keeps x then g.initializer? x else none) = none := by
    split
    · rename_i hk
      refine lookup_eq_none.mpr fun hinit => hkept (List.mem_filter.mpr ⟨hinit, hk⟩)
    · rfl
  obtain ⟨t, ht⟩ := Option.isSome_iff_exists.mp (lookup_isSome.mpr hx)
  rw [Graph.start, initializer?_assemble, hnone, ht]
  rfl

/-- An initializer of one chain is the one stored under its name. -/
theorem lookup_site (hn : (assemble g keeps plan).Valid) (hs : s ∈ plan)
    (hsite : s.site = some site) (hx : x ∈ site.consts.map Prod.fst) :
    (plan.flatMap Step.consts).lookup x = site.consts.lookup x := by
  obtain ⟨t, ht⟩ := Option.isSome_iff_exists.mp (lookup_isSome.mpr hx)
  have hnames := (List.nodup_append.mp (List.nodup_append.mp hn.names).1).2.1
  rw [initializerNames_assemble] at hnames
  rw [ht]
  refine lookup_of_mem (List.nodup_append.mp hnames).2.1 (List.mem_flatMap.mpr ⟨s, hs, ?_⟩)
  rw [Step.consts, hsite]
  exact mem_of_lookup ht

/-- A chain of the rewritten graph leaves its value under the name of its node's output. -/
theorem run_site (hg : g.Valid) (hp : Planned g keeps endings plan)
    (hn : (assemble g keeps plan).Valid) (hs : s ∈ plan) (hsite : s.site = some site)
    (hy : s.node.outputs = [y]) (he : Stocked plan e) :
    (sumMeaning I).run e s.block y =
      chainValue I site.consts site.stages (operand e site.activation) := by
  obtain ⟨y', hy', hne, hstages, hmap⟩ := outputs_eq hg hp hs hsite
  obtain rfl : y = y' := by simpa [hy] using hy'
  have hlast : (site.stages.getLast hstages).output = y := by
    have hout := (hp.fits s hs site hsite).output y hy
    rw [List.getLast?_eq_some_getLast hstages] at hout
    simpa using hout
  have hbound : shape.bound s.block = site.stages.map Stage.output := by
    rw [bound_block hg hp hs, hmap]
    simp [shape, hy, hne]
  have hblock : s.block = chain site.activation site.stages := by
    rw [Step.block, hsite]
  rw [hblock, ← hlast]
  refine run_chain hstages (outputs_ne hg hp hs hsite) fun st hst x hx => ?_
  have hconst := ((hp.fits s hs site hsite).stages st hst).2 x hx
  have hall := mem_consts hs hsite hconst
  refine ⟨made_ne hp (made_of_consts hall), ?_, ?_⟩
  · rw [he x hall, lookup_site hn hs hsite hconst]
  · rw [← hbound]
    exact const_not_bound hn hs hall

/-- A product of ONNX itself with a matrix. -/
theorem applySum_matMul {n : Node} {w : Tensor} (hop : n.opType = "MatMul")
    (hstd : n.isStandard = true) (hw : w.dims.length = 2) (v : Option Tensor)
    (caps : List (Option Tensor)) :
    applySum I n [v, some w] caps = [v.bind fun a => matmul? a w] := by
  simp [applySum, applyNode, hop, hstd, hw]

/-- The node a chain stands for computes the chain's value. -/
theorem exec_site (hg : g.Valid) (hp : Planned g keeps endings plan) (hs : s ∈ plan)
    (hsite : s.site = some site) (hstd : s.node.isStandard = true) (hy : s.node.outputs = [y]) :
    (stepMeaning I).exec s e y =
      chainValue I site.consts site.stages (operand e site.activation) := by
  have hfit := hp.fits s hs site hsite
  obtain ⟨w, rest, hin⟩ := hfit.inputs
  obtain ⟨-, -, -, hschema⟩ := hg.matMul s.node (hp.nodes ▸ List.mem_map_of_mem hs) hfit.matMul
  obtain ⟨a, w', hin', -⟩ := hschema hstd
  obtain rfl : rest = [] := by
    rw [hin] at hin'
    simp only [List.cons.injEq] at hin'
    exact hin'.2.2
  change execWith (s.apply I) s.node e y = _
  have happly (caps : List (Option Tensor)) :
      s.apply I [operand e site.activation, operand e w] caps =
        [chainValue I site.consts site.stages (operand e site.activation)] := by
    simp only [Step.apply, hsite, hfit.computes]
    exact applySum_matMul hfit.matMul hstd hfit.matrix _ caps
  rw [execWith, hin, hy]
  change (([y].zip (s.apply I [operand e site.activation, operand e w] _)).lookup y).join = _
  rw [happly, lookup_zip_singleton]
  rfl

/-- What a step of the original graph computes, its block computes in the rewritten one. -/
theorem step_agrees (hg : g.Valid) (hp : Planned g keeps endings plan)
    (h : Harmless g keeps plan) (hs : s ∈ plan) (heq : ∀ x, Tracked g keeps plan x → e x = e' x)
    (he : Stocked plan e') (hx : Tracked g keeps plan x) :
    (stepMeaning I).step e s x = (sumMeaning I).run e' s.block x := by
  have hn := valid_assemble hg hp h
  obtain ⟨before, behind, hplan⟩ := List.append_of_mem hs
  cases hsite : s.site with
  | none =>
      have hreads : ∀ z ∈ shape.reads s.node, e z = e' z := by
        intro z hz
        exact heq z (tracked_reads hg hp h hplan hz (Or.inl hsite)).2
      have happly : s.apply I = applySum I s.node := by
        funext args caps
        simp only [Step.apply, hsite]
      rw [Step.block, hsite]
      change (if x ∈ shape.binds s.node then execWith (s.apply I) s.node e x else e x) =
        if x ∈ shape.binds s.node then execWith (applySum I s.node) s.node e' x else e' x
      rw [happly, execWith_congr hreads, heq x hx]
  | some site =>
      obtain ⟨y, hy, hne, -, hmap⟩ := outputs_eq hg hp hs hsite
      have hbinds : stepShape.binds s = [y] := by
        simp [stepShape, shape, hy, hne]
      have hoperand : operand e site.activation = operand e' site.activation := by
        by_cases ha : site.activation = ""
        · rw [operand, operand, if_pos ha, if_pos ha]
        · rw [operand, operand, if_neg ha, if_neg ha]
          exact heq _ (tracked_reads hg hp h hplan (activation_mem_reads hp hs hsite ha)
            (Or.inr ⟨site, hsite, rfl⟩)).2
      by_cases hxy : x = y
      · subst hxy
        have hstd := h.standard s hs (by rw [hsite]; rfl)
        rw [Shape.Meaning.step_of_mem (by simp [hbinds]), exec_site hg hp hs hsite hstd hy,
          run_site hg hp hn hs hsite hy he, hoperand]
      · have hbound : x ∉ shape.bound s.block := by
          have hbinds' : shape.binds s.node = [y] := hbinds
          rw [bound_block hg hp hs, hbinds', List.mem_append, List.mem_singleton, not_or]
          exact ⟨fun ht => hx.1 (List.mem_flatMap.mpr ⟨s, hs, ht⟩), hxy⟩
        rw [Shape.Meaning.step_of_not_mem (by simpa [hbinds] using hxy),
          Shape.Meaning.run_of_not_bound hbound, heq x hx]

/-- The rewritten graph computes every tracked value as the original one with its
weights replaced. -/
theorem evaluateSums_eq (hg : g.Valid) (hp : Planned g keeps endings plan)
    (h : Harmless g keeps plan) (I : Interp) (feed : String → Option Tensor)
    (hx : Tracked g keeps plan x) :
    evaluateSums I (assemble g keeps plan) feed x = reference I g plan feed x := by
  have hn := valid_assemble hg hp h
  refine ((Shape.Meaning.run_agree (sumMeaning I) (K := Tracked g keeps plan) (I := Stocked plan)
    (fun s hs e e' heq he => ?_) (fun z hz => hz.2 feed) (stocked_start hn feed)).1 x hx).symm
  exact ⟨fun z hz => step_agrees hg hp h hs heq he hz, stocked_run hn hs he⟩

/-- The value a chain leaves is the one the rewritten graph ends with. -/
theorem evaluate_output (hg : g.Valid) (hp : Planned g keeps endings plan)
    (hn : (assemble g keeps plan).Valid) {before behind : List Step}
    (hplan : plan = before ++ s :: behind) (hsite : s.site = some site)
    (hy : s.node.outputs = [y]) (feed : String → Option Tensor) :
    ∃ v, evaluateSums I (assemble g keeps plan) feed y =
      chainValue I site.consts site.stages v := by
  have hs : s ∈ plan := by simp [hplan]
  have hnodes : (assemble g keeps plan).nodes =
      before.flatMap Step.block ++ (s.block ++ behind.flatMap Step.block) := by
    change plan.flatMap Step.block = _
    rw [hplan, List.flatMap_append, List.flatMap_cons]
  have hstocked : Stocked plan ((sumMeaning I).run ((assemble g keeps plan).start feed)
      (before.flatMap Step.block)) := by
    intro x hx
    rw [Shape.Meaning.run_of_not_bound]
    · exact stocked_start hn feed x hx
    · rw [Shape.bound, List.flatMap_assoc]
      intro hb
      obtain ⟨t, ht, hb⟩ := List.mem_flatMap.mp hb
      exact const_not_bound hn (by simp [hplan, ht]) hx hb
  have hlater : y ∉ shape.bound (behind.flatMap Step.block) := by
    obtain ⟨y', hy', hne, -⟩ := outputs_eq hg hp hs hsite
    obtain rfl : y = y' := by simpa [hy] using hy'
    have hnames := (List.nodup_append.mp hn.names).2.1
    rw [hnodes, Shape.bound_append, Shape.bound_append] at hnames
    have hblock : y ∈ shape.bound s.block := by
      rw [bound_block hg hp hs]
      exact List.mem_append_right _ (mem_binds.mpr ⟨by simp [hy], hne⟩)
    intro hb
    exact (List.nodup_append.mp (List.nodup_append.mp hnames).2.1).2.2 y hblock y hb rfl
  refine ⟨operand ((sumMeaning I).run ((assemble g keeps plan).start feed)
    (before.flatMap Step.block)) site.activation, ?_⟩
  rw [evaluateSums, hnodes, Shape.Meaning.run_append, Shape.Meaning.run_append,
    Shape.Meaning.run_of_not_bound hlater]
  exact run_site hg hp hn hs hsite hy hstocked

/-- The value a node leaves is the one the original graph ends with. -/
theorem reference_output (hg : g.Valid) (hp : Planned g keeps endings plan)
    {before behind : List Step} (hplan : plan = before ++ s :: behind)
    (hy : y ∈ shape.binds s.node) (feed : String → Option Tensor) :
    ∃ e, reference I g plan feed y = (stepMeaning I).exec s e y := by
  have hbound (ps : List Step) : stepShape.bound ps = shape.bound (ps.map Step.node) := by
    rw [Shape.bound, Shape.bound, List.flatMap_map]
    rfl
  have hlater : y ∉ stepShape.bound behind := by
    have hnames := (List.nodup_append.mp hg.names).2.1
    rw [← hp.nodes, hplan, List.map_append, List.map_cons, Shape.bound_append,
      Shape.bound_cons] at hnames
    rw [hbound]
    intro hb
    exact (List.nodup_append.mp (List.nodup_append.mp hnames).2.1).2.2 y hy y hb rfl
  refine ⟨(stepMeaning I).run (g.start feed) before, ?_⟩
  rw [reference, hplan, Shape.Meaning.run_append, Shape.Meaning.run_cons,
    Shape.Meaning.run_of_not_bound hlater]
  exact Shape.Meaning.step_of_mem hy

theorem dims_matmul? {a w t : Tensor} (h : matmul? a w = some t) : t.dims ≠ [] := by
  rw [matmul?] at h
  split at h
  · split at h
    · cases h
      simp
    · cases h
  · cases h

/-- The single number one. -/
def scalarOne : Tensor := ⟨[], [1], rfl⟩

/-- An interpretation where every operator without a fixed meaning gives a number. -/
def scalarInterp : Interp := ⟨⟨none, none⟩, fun _ _ _ => [some scalarOne]⟩

/-- A converted node is one of ONNX itself when its meaning is preserved: the operator
of another domain could give a number, which no product with a matrix is. -/
theorem standard_of_preserves (hg : g.Valid) (hp : Planned g keeps endings plan)
    (h : Preserves g plan (assemble g keeps plan)) (hs : s ∈ plan) (hsite : s.site = some site) :
    s.node.isStandard = true := by
  by_contra hstd
  have hfit := hp.fits s hs site hsite
  obtain ⟨y, hy, hne, -⟩ := outputs_eq hg hp hs hsite
  have hbinds : y ∈ shape.binds s.node := mem_binds.mpr ⟨by simp [hy], hne⟩
  obtain ⟨before, behind, hplan⟩ := List.append_of_mem hs
  obtain ⟨v, hv⟩ := evaluate_output (I := scalarInterp) hg hp h.valid hplan hsite hy fun _ => none
  obtain ⟨e, he⟩ := reference_output (I := scalarInterp) hg hp hplan hbinds fun _ => none
  have hbound : y ∈ shape.bound g.nodes :=
    List.mem_flatMap.mpr ⟨s.node, hp.nodes ▸ List.mem_map_of_mem hs, hbinds⟩
  have hagree := h.agrees scalarInterp (fun _ => none) y (List.mem_append_right _ hbound)
  have hexec : (stepMeaning scalarInterp).exec s e y = some scalarOne := by
    obtain ⟨w, rest, hin⟩ := hfit.inputs
    have happly (args caps : List (Option Tensor)) :
        applySum scalarInterp s.node args caps = [some scalarOne] := by
      simp [applySum, applyNode, hfit.matMul, hstd, scalarInterp]
    change execWith (s.apply scalarInterp) s.node e y = _
    rw [execWith, hin, hy]
    simp [Step.apply, hsite, happly]
  rw [hv, he, hexec, hfit.computes] at hagree
  obtain ⟨a, -, ha⟩ := Option.bind_eq_some_iff.mp hagree
  exact dims_matmul? ha rfl

/-- A rewriting by chains preserves the graph's meaning just when it is harmless. -/
theorem preserves_iff (hg : g.Valid) (hp : Planned g keeps endings plan) :
    Preserves g plan (assemble g keeps plan) ↔ Harmless g keeps plan := by
  constructor
  · intro h
    obtain ⟨hdistinct, hunused⟩ := (names_nodup_iff hg hp).mp h.valid.names
    obtain ⟨hconsts, htemps⟩ := (unshadowed_assemble hg hp).mp h.valid.unshadowed
    refine ⟨fun s hs hsome => ?_, hdistinct, hunused, hconsts, htemps, fun x hx t ht hk => ?_⟩
    · obtain ⟨site, hsite⟩ := Option.isSome_iff_exists.mp hsome
      exact standard_of_preserves hg hp h hs hsite
    · have hstored := h.keepsInputs x hx t ht
      rw [initializer?_assemble, hk] at hstored
      simpa using hstored
  · intro h
    refine ⟨valid_assemble hg hp h, fun s hs hsite => ?_, fun x hx t ht => ?_,
      fun I feed x hx => evaluateSums_eq hg hp h I feed ?_⟩
    · refine List.mem_flatMap.mpr ⟨s, hs, ?_⟩
      rw [Step.block, hsite]
      exact List.mem_singleton_self _
    · rw [initializer?_assemble]
      by_cases hk : keeps x = true
      · rw [if_pos hk, ht]
        rfl
      · rw [if_neg hk, h.stored x hx t ht (Bool.eq_false_iff.mpr hk)]
        rfl
    · rcases List.mem_append.mp hx with hx | hx
      · rcases List.mem_append.mp hx with hout | hread
        · rcases List.mem_append.mp (hg.outputs x hout) with hk | hb
          · exact (tracked_known hp h hk (h.stored x hx)).2
          · exact tracked_bound hg h hb
        · obtain ⟨s, hs, hread⟩ := List.mem_flatMap.mp hread
          obtain ⟨before, behind, hplan⟩ := List.append_of_mem hs
          cases hsite : s.site with
          | some site => simp [hsite] at hread
          | none =>
              rw [hsite] at hread
              exact (tracked_reads hg hp h hplan hread (Or.inl hsite)).2
      · exact tracked_bound hg h hx

end Runs

end Plan

end JetsonVoice.W8A16
