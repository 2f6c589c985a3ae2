import JetsonVoice.Foundation.DerivedNames
import JetsonVoice.Onnx.Model
import Mathlib.Data.List.Perm.Basic

/-!
# Replacing nodes of a model by blocks

Some nodes of a model become blocks of nodes, over values and initializers under
names that a stem and fixed endings make. The new model is valid, without two things
of one name, just when the stems differ and the names they make are free.
-/

namespace JetsonVoice.Onnx.Replacing

open Foundation.SingleAssignment Foundation.DerivedNames

variable {V : Type}

/-- The block a node becomes, with its initializers and the values it binds beside the
node's own. -/
structure Site (V : Type) where
  stem : String
  block : List Node
  consts : List (String × V)
  temps : List String

structure Step (V : Type) where
  node : Node
  site : Option (Site V)

namespace Step

def block (s : Step V) : List Node :=
  match s.site with
  | none => [s.node]
  | some site => site.block

def consts (s : Step V) : List (String × V) :=
  match s.site with
  | none => []
  | some site => site.consts

def temps (s : Step V) : List String :=
  match s.site with
  | none => []
  | some site => site.temps

/-- The names of values and initializers a step makes up. -/
def made (s : Step V) : List String := s.consts.map Prod.fst ++ s.temps

/-- The names of nodes a step makes up. -/
def madeNodes (s : Step V) : List String :=
  match s.site with
  | none => []
  | some site => site.block.map Node.name

/-- The name of a node that stays, unless it has none. -/
def keptNode (s : Step V) : List String :=
  match s.site with
  | none => [s.node.name].filter (· ≠ "")
  | some _ => []

end Step

/-- The model with every step's block in the place of its node. -/
def assemble (g : Model V) (plan : List (Step V)) : Model V :=
  { g with
    initializers := g.initializers ++ plan.flatMap Step.consts
    nodes := plan.flatMap Step.block }

def stems (plan : List (Step V)) : List String := plan.filterMap fun s => s.site.map Site.stem

/-- The names of nodes, but for those that have none. -/
def nodeNames (g : Model V) : List String := (g.nodes.map Node.name).filter (· ≠ "")

/-- A block binds its node's outputs beside its own values, reads what its node reads and its
own initializers, and has no bodies; its names are the stem's. -/
structure Fits (endings nodeEndings : List String) (n : Node) (site : Site V) : Prop where
  made : site.consts.map Prod.fst ++ site.temps = endings.map (site.stem ++ ·)
  bound : shape.bound site.block = site.temps ++ shape.binds n
  inScope : ∀ known, (∀ x ∈ shape.reads n, x ∈ known) →
    (∀ x ∈ site.consts.map Prod.fst, x ∈ known) → shape.Scoped known site.block
  bodies : ∀ m ∈ site.block, m.inner = []
  nodes : site.block.map Node.name = nodeEndings.map (site.stem ++ ·)

/-- Endings that keep the names of different stems apart. -/
structure Endings (endings : List String) : Prop where
  separate : Separate (endings.map String.toList)
  nonempty : endings ≠ []
  named : "" ∉ endings

structure Planned (g : Model V) (endings nodeEndings : List String) (plan : List (Step V)) :
    Prop where
  nodes : plan.map Step.node = g.nodes
  ends : Endings endings
  nodeEnds : Endings nodeEndings
  fits : ∀ s ∈ plan, ∀ site, s.site = some site → Fits endings nodeEndings s.node site

/-- The stems differ, and the names made are those of no value, no initializer and no body
that stays behind them. -/
structure Fresh (g : Model V) (plan : List (Step V)) : Prop where
  distinct : (stems plan).Nodup
  unused : ∀ x ∈ plan.flatMap Step.made, x ∉ g.known ++ shape.bound g.nodes
  constsUnshadowed : ∀ x ∈ (plan.flatMap Step.consts).map Prod.fst, ∀ s ∈ plan, s.site = none →
    x ∉ s.node.inner
  tempsUnshadowed : ∀ before s behind, plan = before ++ s :: behind → s.site = none →
    ∀ x ∈ before.flatMap Step.temps, x ∉ s.node.inner

/-- Where every node is replaced, no body stays. -/
theorem Fresh.of_all {g : Model V} {plan : List (Step V)}
    (hall : ∀ s ∈ plan, s.site.isSome = true) (hdistinct : (stems plan).Nodup)
    (hunused : ∀ x ∈ plan.flatMap Step.made, x ∉ g.known ++ shape.bound g.nodes) :
    Fresh g plan where
  distinct := hdistinct
  unused := hunused
  constsUnshadowed _ _ s hs hnone := by
    have := hall s hs
    rw [hnone] at this
    cases this
  tempsUnshadowed before s behind hplan hnone := by
    have := hall s (by simp [hplan])
    rw [hnone] at this
    cases this

section Names
variable {g : Model V} {endings nodeEndings : List String} {plan ps : List (Step V)} {s : Step V}
  {site : Site V} {x : String}

/-- Names made of stems are different just when the stems are. -/
theorem nodup_derived (he : Endings endings) (stems : List String) :
    (stems.flatMap fun stem => endings.map (stem ++ ·)).Nodup ↔ stems.Nodup := by
  have hinj : Function.Injective String.toList := fun _ _ => String.toList_inj.mp
  have hlists : (stems.flatMap fun stem => endings.map (stem ++ ·)).map String.toList =
      (stems.map String.toList).flatMap (derive (endings.map String.toList)) := by
    simp [List.map_flatMap, List.flatMap_map, derive, Function.comp_def]
  have hne : endings.map String.toList ≠ [] := by simpa using he.nonempty
  rw [← List.nodup_map_iff hinj, hlists, nodup_flatMap_derive he.separate hne,
    List.nodup_map_iff hinj]

theorem derived_ne (he : Endings endings) {stem : String}
    (hx : x ∈ endings.map (stem ++ ·)) : x ≠ "" := by
  obtain ⟨ending, hmem, rfl⟩ := List.mem_map.mp hx
  intro h
  have hempty := congrArg String.toList h
  rw [String.toList_append, String.toList_empty, List.append_eq_nil_iff] at hempty
  exact he.named (String.toList_eq_nil_iff.mp hempty.2 ▸ hmem)

/-- What the steps make of their stems, all together. -/
theorem flatMap_stems {f : Step V → List String} {ends : List String}
    (hnone : ∀ s, s.site = none → f s = [])
    (hsome : ∀ s ∈ plan, ∀ site, s.site = some site → f s = ends.map (site.stem ++ ·)) :
    plan.flatMap f = (stems plan).flatMap fun stem => ends.map (stem ++ ·) := by
  induction plan with
  | nil => rfl
  | cons s plan ih =>
      have hrest := ih fun t ht => hsome t (List.mem_cons_of_mem s ht)
      rw [List.flatMap_cons, hrest, stems, stems]
      cases hsite : s.site with
      | none => rw [hnone s hsite, List.filterMap_cons_none (by rw [hsite]; rfl), List.nil_append]
      | some site =>
          rw [hsome s List.mem_cons_self site hsite,
            List.filterMap_cons_some (by rw [hsite]; rfl), List.flatMap_cons]

theorem made_eq (hp : Planned g endings nodeEndings plan) :
    plan.flatMap Step.made = (stems plan).flatMap fun stem => endings.map (stem ++ ·) := by
  refine flatMap_stems (fun s hs => ?_) fun s hs site hsite => ?_
  · rw [Step.made, Step.consts, Step.temps, hs]
    rfl
  · rw [Step.made, Step.consts, Step.temps, hsite]
    exact (hp.fits s hs site hsite).made

theorem madeNodes_eq (hp : Planned g endings nodeEndings plan) :
    plan.flatMap Step.madeNodes =
      (stems plan).flatMap fun stem => nodeEndings.map (stem ++ ·) := by
  refine flatMap_stems (fun s hs => ?_) fun s hs site hsite => ?_
  · rw [Step.madeNodes, hs]
  · rw [Step.madeNodes, hsite]
    exact (hp.fits s hs site hsite).nodes

theorem made_perm (plan : List (Step V)) :
    ((plan.flatMap Step.consts).map Prod.fst ++ plan.flatMap Step.temps).Perm
      (plan.flatMap Step.made) := by
  rw [List.map_flatMap]
  exact List.flatMap_append_perm plan _ _

theorem bound_block (hp : Planned g endings nodeEndings plan) (hs : s ∈ plan) :
    shape.bound s.block = s.temps ++ shape.binds s.node := by
  cases hsite : s.site with
  | none => simp [Step.block, Step.temps, hsite]
  | some site =>
      rw [Step.block, Step.temps, hsite]
      exact (hp.fits s hs site hsite).bound

/-- What some blocks bind: names made up, and what their nodes bound. -/
theorem bound_blocks (hp : Planned g endings nodeEndings plan) (hps : ∀ s ∈ ps, s ∈ plan) :
    (shape.bound (ps.flatMap Step.block)).Perm
      (ps.flatMap Step.temps ++ shape.bound (ps.map Step.node)) := by
  have heq : shape.bound (ps.flatMap Step.block) =
      ps.flatMap fun s => s.temps ++ shape.binds s.node := by
    rw [Shape.bound, List.flatMap_assoc]
    exact List.flatMap_congr fun s hs => bound_block hp (hps s hs)
  have hnodes : shape.bound (ps.map Step.node) = ps.flatMap fun s => shape.binds s.node := by
    rw [Shape.bound, List.flatMap_map]
  rw [heq, hnodes]
  exact (List.flatMap_append_perm ps _ _).symm

theorem bound_assemble (hp : Planned g endings nodeEndings plan) :
    (shape.bound (assemble g plan).nodes).Perm
      (plan.flatMap Step.temps ++ shape.bound g.nodes) := by
  rw [← hp.nodes]
  exact bound_blocks hp fun _ h => h

theorem initializerNames_assemble (g : Model V) (plan : List (Step V)) :
    (assemble g plan).initializerNames =
      g.initializerNames ++ (plan.flatMap Step.consts).map Prod.fst := List.map_append

theorem known_assemble (g : Model V) (plan : List (Step V)) :
    (assemble g plan).known = g.known ++ (plan.flatMap Step.consts).map Prod.fst := by
  rw [Model.known, initializerNames_assemble, Model.known, List.append_assoc]
  rfl

theorem mem_made : x ∈ plan.flatMap Step.made ↔
    x ∈ (plan.flatMap Step.consts).map Prod.fst ∨ x ∈ plan.flatMap Step.temps := by
  rw [← (made_perm plan).mem_iff, List.mem_append]

end Names

section Validity
variable {g : Model V} {endings nodeEndings : List String} {plan before behind : List (Step V)}
  {s : Step V} {site : Site V} {x : String}

/-- What is known before a node of the model is known before its block. -/
theorem known_before (hp : Planned g endings nodeEndings plan)
    (hplan : plan = before ++ s :: behind) :
    x ∈ (assemble g plan).known ++ shape.bound (before.flatMap Step.block) ↔
      x ∈ g.known ++ shape.bound (before.map Step.node) ∨
        x ∈ (plan.flatMap Step.consts).map Prod.fst ∨ x ∈ before.flatMap Step.temps := by
  have hblocks := (bound_blocks hp fun t (ht : t ∈ before) => by simp [hplan, ht]).mem_iff (a := x)
  rw [List.mem_append, known_assemble, List.mem_append, hblocks, List.mem_append, List.mem_append]
  tauto

theorem inScope_assemble (hg : g.Valid) (hp : Planned g endings nodeEndings plan) :
    shape.Scoped (assemble g plan).known (assemble g plan).nodes := by
  refine Shape.atEach_flatMap.mpr fun before s behind hplan => ?_
  have hreads : ∀ x ∈ shape.reads s.node,
      x ∈ (assemble g plan).known ++ shape.bound (before.flatMap Step.block) := by
    intro x hx
    refine (known_before hp hplan).mpr (.inl ?_)
    refine Shape.atEach_iff.mp hg.inScope (before.map Step.node) s.node (behind.map Step.node) ?_
      x hx
    rw [← hp.nodes, hplan, List.map_append, List.map_cons]
  cases hsite : s.site with
  | none =>
      rw [Step.block, hsite]
      exact ⟨hreads, trivial⟩
  | some site =>
      have hs : s ∈ plan := by simp [hplan]
      rw [Step.block, hsite]
      refine (hp.fits s hs site hsite).inScope _ hreads fun x hx => ?_
      refine (known_before hp hplan).mpr (.inr (.inl ?_))
      rw [List.map_flatMap]
      exact List.mem_flatMap.mpr ⟨s, hs, by rw [Step.consts, hsite]; exact hx⟩

theorem unshadowed_of_bodies {ns : List Node} {known : List String} (h : ∀ n ∈ ns, n.inner = []) :
    shape.Unshadowed known ns := by
  refine Shape.atEach_iff.mpr fun before n behind hns x hx => ?_
  have hinner : shape.hides n = [] := h n (by simp [hns])
  rw [hinner] at hx
  exact (List.not_mem_nil hx).elim

/-- The bodies that stay shadow nothing new just when they bind none of the names made
before them. -/
theorem unshadowed_assemble (hg : g.Valid) (hp : Planned g endings nodeEndings plan) :
    shape.Unshadowed (assemble g plan).known (assemble g plan).nodes ↔
      (∀ x ∈ (plan.flatMap Step.consts).map Prod.fst, ∀ s ∈ plan, s.site = none →
        x ∉ s.node.inner) ∧
      ∀ before s behind, plan = before ++ s :: behind → s.site = none →
        ∀ x ∈ before.flatMap Step.temps, x ∉ s.node.inner := by
  constructor
  · intro h
    have hstep {before behind : List (Step V)} {s : Step V} (hplan : plan = before ++ s :: behind)
        (hsite : s.site = none) : ∀ x ∈ s.node.inner,
          x ∉ (assemble g plan).known ++ shape.bound (before.flatMap Step.block) := by
      have hs := Shape.atEach_flatMap.mp h before s behind hplan
      rw [Step.block, hsite] at hs
      exact hs.1
    constructor
    · intro x hx s hs hsite hin
      obtain ⟨before, behind, hplan⟩ := List.append_of_mem hs
      exact hstep hplan hsite x hin ((known_before hp hplan).mpr (.inr (.inl hx)))
    · intro before s behind hplan hsite x hx hin
      exact hstep hplan hsite x hin ((known_before hp hplan).mpr (.inr (.inr hx)))
  · rintro ⟨hconsts, htemps⟩
    refine Shape.atEach_flatMap.mpr fun before s behind hplan => ?_
    have hs : s ∈ plan := by simp [hplan]
    cases hsite : s.site with
    | some site =>
        rw [Step.block, hsite]
        exact unshadowed_of_bodies (hp.fits s hs site hsite).bodies
    | none =>
        rw [Step.block, hsite]
        refine ⟨fun x hx hmem => ?_, trivial⟩
        rcases (known_before hp hplan).mp hmem with hold | hconst | htemp
        · refine Shape.atEach_iff.mp hg.unshadowed (before.map Step.node) s.node
            (behind.map Step.node) ?_ x hx hold
          rw [← hp.nodes, hplan, List.map_append, List.map_cons]
        · exact hconsts x hconst s hs hsite hx
        · exact htemps before s behind hplan hsite x htemp hx

theorem nodup_made (hp : Planned g endings nodeEndings plan) :
    (plan.flatMap Step.made).Nodup ↔ (stems plan).Nodup := by
  rw [made_eq hp, nodup_derived hp.ends]

theorem Fresh.not_mem (h : Fresh g plan) (hx : x ∈ (plan.flatMap Step.consts).map Prod.fst ∨
    x ∈ plan.flatMap Step.temps) : x ∉ g.known ∧ x ∉ shape.bound g.nodes := by
  have := h.unused x (mem_made.mpr hx)
  rwa [List.mem_append, not_or] at this

theorem Fresh.valid (h : Fresh g plan) (hg : g.Valid) (hp : Planned g endings nodeEndings plan) :
    (assemble g plan).Valid := by
  have hbound := bound_assemble hp
  have hnodup := (made_perm plan).nodup_iff.mpr ((nodup_made hp).mpr h.distinct)
  rw [List.nodup_append] at hnodup
  refine {
    inputs := hg.inputs
    initializers := ?_
    bound := ?_
    new := fun x hx hmem => ?_
    named := ?_
    inScope := inScope_assemble hg hp
    unshadowed := (unshadowed_assemble hg hp).mpr ⟨h.constsUnshadowed, h.tempsUnshadowed⟩
    outputs := fun x hx => ?_ }
  · rw [initializerNames_assemble, List.nodup_append]
    exact ⟨hg.initializers, hnodup.1, fun x hx y hy hxy =>
      (h.not_mem (.inl hy)).1 (hxy ▸ List.mem_append_right _ hx)⟩
  · rw [hbound.nodup_iff, List.nodup_append]
    exact ⟨hnodup.2.1, hg.bound, fun x hx y hy hxy => (h.not_mem (.inr hx)).2 (hxy ▸ hy)⟩
  · rw [known_assemble] at hmem
    rcases List.mem_append.mp (hbound.mem_iff.mp hx) with htemp | hb
    · rcases List.mem_append.mp hmem with hk | hconst
      · exact (h.not_mem (.inr htemp)).1 hk
      · exact hnodup.2.2 x hconst x htemp rfl
    · rcases List.mem_append.mp hmem with hk | hconst
      · exact hg.new x hb hk
      · exact (h.not_mem (.inl hconst)).2 hb
  · rw [known_assemble, List.mem_append, not_or]
    refine ⟨hg.named, fun hconst => ?_⟩
    have hmem := mem_made.mpr (.inl hconst)
    rw [made_eq hp] at hmem
    obtain ⟨stem, -, hx⟩ := List.mem_flatMap.mp hmem
    exact derived_ne hp.ends hx rfl
  · rw [List.mem_append, known_assemble, hbound.mem_iff, List.mem_append, List.mem_append]
    rcases List.mem_append.mp (hg.outputs x hx) with hk | hb
    · exact .inl (.inl hk)
    · exact .inr (.inr hb)

/-- No input of the model gets an initializer. -/
theorem Fresh.inputs (h : Fresh g plan) (hx : x ∈ g.inputs)
    (hmem : x ∈ (assemble g plan).initializerNames) : x ∈ g.initializerNames := by
  rw [initializerNames_assemble] at hmem
  rcases List.mem_append.mp hmem with hi | hconst
  · exact hi
  · exact absurd (List.mem_append_left _ hx) (h.not_mem (.inl hconst)).1

/-- The new model is valid, and no input gets an initializer, just when the names are fresh. -/
theorem valid_assemble_iff (hg : g.Valid) (hp : Planned g endings nodeEndings plan) :
    (assemble g plan).Valid ∧
      (∀ x ∈ g.inputs, x ∈ (assemble g plan).initializerNames → x ∈ g.initializerNames) ↔
      Fresh g plan := by
  refine ⟨?_, fun h => ⟨h.valid hg hp, fun x => h.inputs⟩⟩
  rintro ⟨h, hinputs⟩
  have hbound := bound_assemble hp
  have hinit := h.initializers
  rw [initializerNames_assemble, List.nodup_append] at hinit
  have hvalues := hbound.nodup_iff.mp h.bound
  rw [List.nodup_append] at hvalues
  have hnew : ∀ x, x ∈ plan.flatMap Step.temps ∨ x ∈ shape.bound g.nodes →
      x ∉ g.known ∧ x ∉ (plan.flatMap Step.consts).map Prod.fst := by
    intro x hx
    have := h.new x (hbound.mem_iff.mpr (List.mem_append.mpr hx))
    rwa [known_assemble, List.mem_append, not_or] at this
  obtain ⟨hconsts, htemps⟩ := (unshadowed_assemble hg hp).mp h.unshadowed
  refine ⟨(nodup_made hp).mp ?_, fun x hx hmem => ?_, hconsts, htemps⟩
  · rw [← (made_perm plan).nodup_iff, List.nodup_append]
    exact ⟨hinit.2.1, hvalues.1, fun x hx y hy hxy => (hnew y (.inl hy)).2 (hxy ▸ hx)⟩
  · rcases mem_made.mp hx with hconst | htemp
    · rcases List.mem_append.mp hmem with hknown | hb
      · have hstored : x ∈ g.initializerNames := by
          rcases List.mem_append.mp hknown with hin | hi
          · refine hinputs x hin ?_
            rw [initializerNames_assemble]
            exact List.mem_append_right _ hconst
          · exact hi
        exact hinit.2.2 x hstored x hconst rfl
      · exact (hnew x (.inr hb)).2 hconst
    · rcases List.mem_append.mp hmem with hknown | hb
      · exact (hnew x (.inl htemp)).1 hknown
      · exact hvalues.2.2 x htemp x hb rfl

/-- The nodes that have names have different ones just when those that stay have, the stems
differ, and no node that stays has a name made of a stem. -/
theorem nodeNames_assemble (hp : Planned g endings nodeEndings plan) :
    (nodeNames (assemble g plan)).Nodup ↔
      (stems plan).Nodup ∧ (plan.flatMap Step.keptNode).Nodup ∧
        ∀ x ∈ plan.flatMap Step.madeNodes, x ∉ plan.flatMap Step.keptNode := by
  have hmade : (plan.flatMap Step.madeNodes).Nodup ↔ (stems plan).Nodup := by
    rw [madeNodes_eq hp, nodup_derived hp.nodeEnds]
  have hperm : (nodeNames (assemble g plan)).Perm
      (plan.flatMap Step.madeNodes ++ plan.flatMap Step.keptNode) := by
    have hnames : nodeNames (assemble g plan) =
        plan.flatMap fun s => s.madeNodes ++ s.keptNode := by
      rw [nodeNames, assemble, List.map_flatMap, List.filter_flatMap]
      refine List.flatMap_congr fun s hs => ?_
      rw [Step.madeNodes, Step.keptNode, Step.block]
      cases hsite : s.site with
      | none => rfl
      | some site =>
          rw [List.append_nil, List.filter_eq_self]
          intro x hx
          rw [(hp.fits s hs site hsite).nodes] at hx
          simpa using derived_ne hp.nodeEnds hx
    rw [hnames]
    exact (List.flatMap_append_perm plan _ _).symm
  rw [hperm.nodup_iff, List.nodup_append, hmade]
  constructor
  · rintro ⟨hstems, hkept, hne⟩
    exact ⟨hstems, hkept, fun x hx hx' => hne x hx x hx' rfl⟩
  · rintro ⟨hstems, hkept, hne⟩
    exact ⟨hstems, hkept, fun x hx y hy hxy => hne x hx (hxy ▸ hy)⟩

end Validity

section Values
variable {g : Model V} {endings nodeEndings : List String} {plan : List (Step V)}
  {s : Step V} {site : Site V} {x : String} {v : V}

theorem mem_initializers (hs : s ∈ plan) (hsite : s.site = some site) (hx : (x, v) ∈ site.consts) :
    (x, v) ∈ (assemble g plan).initializers := by
  refine List.mem_append_right _ (List.mem_flatMap.mpr ⟨s, hs, ?_⟩)
  rw [Step.consts, hsite]
  exact hx

theorem mem_nodes (hs : s ∈ plan) {n : Node} (hn : n ∈ s.block) : n ∈ (assemble g plan).nodes :=
  List.mem_flatMap.mpr ⟨s, hs, hn⟩

/-- The initializers made for a block keep their values. -/
theorem evaluate_const (hg : g.Valid) (hp : Planned g endings nodeEndings plan)
    (hf : Fresh g plan) (hs : s ∈ plan) (hsite : s.site = some site) (hx : (x, v) ∈ site.consts)
    (ops : Ops V) (feed : String → Option V) : (assemble g plan).evaluate ops feed x = some v := by
  have hv := hf.valid hg hp
  refine hv.evaluate_initializer (lookup_of_mem hv.initializers (mem_initializers hs hsite hx))
    (fun hin => ?_) ops feed
  refine hf.unused x (mem_made.mpr (.inl ?_)) (List.mem_append_left _ (List.mem_append_left _ hin))
  rw [List.map_flatMap]
  refine List.mem_flatMap.mpr ⟨s, hs, List.mem_map.mpr ⟨(x, v), ?_, rfl⟩⟩
  rw [Step.consts, hsite]
  exact hx

/-- What the model knows before its first node, the new one starts with. -/
theorem start_assemble (hf : Fresh g plan) (hx : x ∈ g.known) (feed : String → Option V) :
    (assemble g plan).start feed x = g.start feed x := by
  have hconst : (plan.flatMap Step.consts).lookup x = none :=
    lookup_eq_none.mpr fun hc =>
      hf.unused x (mem_made.mpr (.inl hc)) (List.mem_append_left _ hx)
  have hlookup : (assemble g plan).initializer? x = g.initializer? x := by
    rw [Model.initializer?, assemble, List.lookup_append, hconst, Option.or_none]
    rfl
  rw [Model.start, Model.start, hlookup]
  rfl

/-- When every block gives its node's values, both models compute the same. -/
theorem evaluate_assemble (hg : g.Valid) (hp : Planned g endings nodeEndings plan)
    (hf : Fresh g plan) (ops : Ops V) (feed : String → Option V)
    (hblocks : ∀ s ∈ plan, s.site.isSome = true →
      (∀ y ∈ shape.reads s.node,
        g.evaluate ops feed y = (assemble g plan).evaluate ops feed y) →
      ∀ x ∈ shape.binds s.node,
        g.evaluate ops feed x = (assemble g plan).evaluate ops feed x) :
    ∀ x ∈ g.known ++ shape.bound g.nodes,
      g.evaluate ops feed x = (assemble g plan).evaluate ops feed x := by
  have hv := hf.valid hg hp
  refine hg.inScope.agree (fun x hx => ?_) fun n hn hreads x hx => ?_
  · have hknown : x ∈ (assemble g plan).known := by
      rw [known_assemble]
      exact List.mem_append_left _ hx
    rw [Model.evaluate, Model.evaluate,
      Shape.Meaning.run_of_not_bound fun hb => hg.new x hb hx,
      Shape.Meaning.run_of_not_bound fun hb => hv.new x hb hknown, start_assemble hf hx]
  · rw [← hp.nodes] at hn
    obtain ⟨s, hs, rfl⟩ := List.mem_map.mp hn
    cases hsite : s.site with
    | some site => exact hblocks s hs (by rw [hsite]; rfl) hreads x hx
    | none =>
        have hmem : s.node ∈ (assemble g plan).nodes :=
          mem_nodes hs (by rw [Step.block, hsite]; exact List.mem_singleton_self _)
        rw [hg.solves ops feed s.node (hp.nodes ▸ List.mem_map_of_mem hs) x hx,
          hv.solves ops feed s.node hmem x hx, ops.meaning.exec_congr s.node _ _ hreads]

end Values

end JetsonVoice.Onnx.Replacing
