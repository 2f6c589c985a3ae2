import JetsonVoice.Foundation.ChunkedSteps
import JetsonVoice.Foundation.Plumbing

/-!
# Streaming through a pass

A stage of a pass streams when what it has given for a prefix of its input, and the
states it leaves behind, are functions of that prefix, however it was cut into
chunks. Stages that stream make up passes that stream.

## Implementation notes

A stage may be told the offset of a chunk, which counts the items that entered the
whole pass. Its own items come at some pace: so many for each of those.
-/

namespace JetsonVoice.Foundation

variable {A B C D K V X Y Z : Type*}

/-- A place between two stages: how items are handed over there, and how many there are for
each item that enters the pass. -/
structure Port (A X : Type*) where
  present : List A → X
  pace : Nat
  pos : 0 < pace

/-- A stage whose output and whose states after a prefix `x` are `out x` and `held x`. It finds
its states at the cursor, whatever lies behind them. -/
structure Carried (p : Port A X) (q : Port B Y) (rate : Nat)
    (f : List V → Nat → X → Nat × List V → Option (Y × Nat × List V))
    (out : List A → List B) (held : List A → List V) : Prop where
  nil : out [] = []
  width : ∀ x, (held x).length = (held []).length
  step : ∀ x c n, c ≠ [] → x.length = p.pace * n →
    ∃ y, out (x ++ c) = out x ++ y ∧ y.length = rate * c.length ∧
      ∀ {states cursor rest next}, states.drop cursor = held x ++ rest →
        f states n (p.present c) (cursor, next) =
          some (q.present y, cursor + (held x).length, next ++ held (x ++ c))

/-- A stage that streams from the states `init`. -/
def Streams (p : Port A X) (q : Port B Y) (init : List V)
    (f : List V → Nat → X → Nat × List V → Option (Y × Nat × List V)) : Prop :=
  ∃ rate out held, 0 < rate ∧ q.pace = rate * p.pace ∧ held [] = init ∧
    Carried p q rate f out held

namespace Carried
variable {p : Port A X} {q : Port B Y} {r : Port C Z} {rate rate' : Nat}
  {f : List V → Nat → X → Nat × List V → Option (Y × Nat × List V)}
  {g : List V → Nat → Y → Nat × List V → Option (Z × Nat × List V)}
  {out : List A → List B} {held : List A → List V} {out' : List B → List C}
  {held' : List B → List V}

theorem length_out (h : Carried p q rate f out held) (x : List A) :
    (out x).length = rate * x.length := by
  by_cases hx : x = []
  · simp [hx, h.nil]
  · obtain ⟨y, hy, hlen, -⟩ := h.step [] x 0 hx (by simp)
    rw [List.nil_append, h.nil, List.nil_append] at hy
    rw [hy, hlen]

/-- One stage after another. -/
theorem bind (h : Carried p q rate f out held) (h' : Carried q r rate' g out' held')
    (hrate : 0 < rate) (hpace : q.pace = rate * p.pace) :
    Carried p r (rate' * rate) (fun states n x w => (f states n x w).bind fun t => g states n t.1 t.2)
      (fun x => out' (out x)) fun x => held x ++ held' (out x) where
  nil := by rw [h.nil, h'.nil]
  width x := by rw [List.length_append, List.length_append, h.width, h'.width, h.nil, h'.width]
  step x c n hc hx := by
    obtain ⟨y, hy, hlen, hf⟩ := h.step x c n hc hx
    have hne : y ≠ [] := by
      intro hnil
      rw [hnil, List.length_nil] at hlen
      exact absurd hlen (Nat.mul_pos hrate (List.length_pos_iff.mpr hc)).ne
    obtain ⟨z, hz, hlen', hg⟩ := h'.step (out x) y n hne (by rw [h.length_out, hx, hpace, mul_assoc])
    refine ⟨z, by rw [hy, hz], by rw [hlen', hlen, mul_assoc], ?_⟩
    intro states cursor rest next hdrop
    rw [List.append_assoc] at hdrop
    have hrest : states.drop (cursor + (held x).length) = held' (out x) ++ rest := by
      rw [← List.drop_drop, hdrop, List.drop_left]
    rw [hf hdrop, Option.bind_some, hg hrest, ← hy, List.length_append, Nat.add_assoc,
      List.append_assoc]

end Carried

namespace Streams
variable {p : Port A X} {q : Port B Y} {r : Port C Z} {init init' : List V}
  {f : List V → Nat → X → Nat × List V → Option (Y × Nat × List V)}
  {g : List V → Nat → Y → Nat × List V → Option (Z × Nat × List V)}

/-- A stage without a state. -/
theorem free {F : X → Option Y} (rate : Nat) (out : List A → List B) (hrate : 0 < rate)
    (hpace : q.pace = rate * p.pace) (hnil : out [] = [])
    (h : ∀ x c, c ≠ [] → ∃ y, out (x ++ c) = out x ++ y ∧ y.length = rate * c.length ∧
      F (p.present c) = some (q.present y)) :
    Streams p q ([] : List V) fun _ _ x w => (F x).map fun y => (y, w) := by
  refine ⟨rate, out, fun _ => [], hrate, hpace, rfl, hnil, fun _ => rfl, ?_⟩
  intro x c _ hc _
  obtain ⟨y, hy, hlen, hF⟩ := h x c hc
  refine ⟨y, hy, hlen, ?_⟩
  intro states cursor rest next _
  rw [hF, List.append_nil]
  rfl

/-- A stage that works on one item at a time. -/
theorem stateless {F : X → Option Y} {φ : A → B} (hpace : q.pace = p.pace)
    (h : ∀ c, c ≠ [] → F (p.present c) = some (q.present (c.map φ))) :
    Streams p q ([] : List V) fun _ _ x w => (F x).map fun y => (y, w) :=
  .free 1 (List.map φ) Nat.one_pos (by rw [hpace, one_mul]) rfl fun _ c hc =>
    ⟨c.map φ, List.map_append, by rw [List.length_map, one_mul], h c hc⟩

/-- A stage with one state. -/
theorem use (rate : Nat) (out : List A → List B) {k : K} {step : X → V → Option (Y × V)}
    {state : List A → V} (hrate : 0 < rate) (hpace : q.pace = rate * p.pace) (hnil : out [] = [])
    (h : ∀ x c, c ≠ [] → ∃ y, out (x ++ c) = out x ++ y ∧ y.length = rate * c.length ∧
      step (p.present c) (state x) = some (q.present y, state (x ++ c))) :
    Streams p q [state []] fun states _ x w => (positional (K := K) states).use k (step x) w := by
  refine ⟨rate, out, fun x => [state x], hrate, hpace, rfl, hnil, fun _ => rfl, ?_⟩
  intro x c _ hc _
  obtain ⟨y, hy, hlen, hstep⟩ := h x c hc
  refine ⟨y, hy, hlen, ?_⟩
  intro states cursor rest next hdrop
  have hat : states[cursor]? = some (state x) := by
    rw [← List.head?_drop, hdrop]
    rfl
  simp [Access.use, positional, hat, hstep]

/-- A stage with two states that is told the offset, where items come one by one. -/
theorem useTwo (out : List A → List B) {k k' : K} {step : Nat → X → V → V → Option (Y × V × V)}
    {state state' : List A → V} (hp : p.pace = 1) (hq : q.pace = 1) (hnil : out [] = [])
    (h : ∀ x c, c ≠ [] → ∃ y, out (x ++ c) = out x ++ y ∧ y.length = c.length ∧
      step x.length (p.present c) (state x) (state' x) =
        some (q.present y, state (x ++ c), state' (x ++ c))) :
    Streams p q [state [], state' []] fun states n x w =>
      (positional (K := K) states).useTwo k k' (step n x) w := by
  refine ⟨1, out, fun x => [state x, state' x], Nat.one_pos, by rw [hp, hq], rfl, hnil, fun _ => rfl, ?_⟩
  intro x c n hc hx
  obtain rfl : x.length = n := by rw [hx, hp, one_mul]
  obtain ⟨y, hy, hlen, hstep⟩ := h x c hc
  refine ⟨y, hy, by rw [hlen, one_mul], ?_⟩
  intro states cursor rest next hdrop
  have hat : states[cursor]? = some (state x) := by
    rw [← List.head?_drop, hdrop]
    rfl
  have hat' : states[cursor + 1]? = some (state' x) := by
    rw [← List.head?_drop, ← List.drop_drop, hdrop]
    rfl
  simp [Access.useTwo, positional, hat, hat', hstep]

theorem bind (h : Streams p q init f) (h' : Streams q r init' g) :
    Streams p r (init ++ init')
      fun states n x w => (f states n x w).bind fun t => g states n t.1 t.2 := by
  obtain ⟨rate, out, held, hrate, hpace, rfl, hf⟩ := h
  obtain ⟨rate', out', held', hrate', hpace', rfl, hg⟩ := h'
  refine ⟨rate' * rate, _, _, Nat.mul_pos hrate' hrate, ?_, ?_, hf.bind hg hrate hpace⟩
  · rw [hpace', hpace, mul_assoc]
  · rw [hf.nil]

/-- What a stage gives meets its own input again. -/
theorem join {G : X → Y → Option Z} {φ : A → B → C} (h : Streams p q init f)
    (hq : q.pace = p.pace) (hr : r.pace = p.pace)
    (hG : ∀ c y, c ≠ [] → y.length = c.length →
      G (p.present c) (q.present y) = some (r.present (List.zipWith φ c y))) :
    Streams p r init fun states n x w =>
      (f states n x w).bind fun t => (G x t.1).map fun z => (z, t.2) := by
  obtain ⟨rate, out, held, hrate, hpace, rfl, hf⟩ := h
  obtain rfl : rate = 1 := Nat.eq_of_mul_eq_mul_right p.pos (by rw [← hpace, hq, one_mul])
  refine ⟨1, fun x => List.zipWith φ x (out x), held, Nat.one_pos, by rw [hr, one_mul], rfl, by simp,
    hf.width, ?_⟩
  intro x c n hc hx
  obtain ⟨y, hy, hlen, hstep⟩ := hf.step x c n hc hx
  rw [one_mul] at hlen
  refine ⟨List.zipWith φ c y, ?_, by rw [List.length_zipWith, hlen, min_self, one_mul], ?_⟩
  · rw [hy, List.zipWith_append (by rw [hf.length_out, one_mul])]
  · intro states cursor rest next hdrop
    rw [hstep hdrop, Option.bind_some, hG c y hc hlen]
    rfl

/-- What comes into a stage is changed item by item before. -/
theorem premap {o : Port D W} {F : W → X} {φ : D → A} (h : Streams p q init f)
    (hpace : p.pace = o.pace) (hF : ∀ c, F (o.present c) = p.present (c.map φ)) :
    Streams o q init fun states n x w => f states n (F x) w := by
  obtain ⟨rate, out, held, hrate, hq, rfl, hf⟩ := h
  refine ⟨rate, fun x => out (x.map φ), fun x => held (x.map φ), hrate, by rw [hq, hpace], rfl,
    hf.nil, fun x => hf.width _, ?_⟩
  intro x c n hc hx
  obtain ⟨y, hy, hlen, hstep⟩ := hf.step (x.map φ) (c.map φ) n (by simpa using hc)
    (by rw [List.length_map, hx, hpace])
  rw [← List.map_append] at hy hstep
  refine ⟨y, hy, by rw [hlen, List.length_map], ?_⟩
  intro states cursor rest next hdrop
  rw [hF, hstep hdrop]

section Pass
variable {J : Type*}

/-- The stages of a list lead from one port to another. -/
def Joined (joins : J → D → J → Prop) : J → List D → J → Prop
  | j, [], j' => j = j'
  | j, d :: ds, j' => ∃ mid, joins j d mid ∧ Joined joins mid ds j'

theorem joined_of_forall {P : J → D → Prop} (j : J) (ds : List D) (h : ∀ d ∈ ds, P j d) :
    Joined (fun j d j' => j = j' ∧ P j d) j ds j := by
  induction ds with
  | nil => rfl
  | cons d ds ih =>
      exact ⟨j, ⟨rfl, h d List.mem_cons_self⟩, ih fun e he => h e (List.mem_cons_of_mem _ he)⟩

/-- A pass over stages that stream, each of them from the port that the one before leads to. -/
theorem pass (port : J → Port A X) (joins : J → D → J → Prop) (init : D → List V)
    (step : List V → Nat → D → X → Nat × List V → Option (X × Nat × List V))
    (h : ∀ j d j', joins j d j' →
      Streams (port j) (port j') (init d) fun states n => step states n d) {j j' : J} {ds : List D}
    (hjoined : Joined joins j ds j') :
    Streams (port j) (port j') (ds.flatMap init)
      fun states n x w => Foundation.pass (step states n) ds x w := by
  induction ds generalizing j with
  | nil =>
      obtain rfl : j = j' := hjoined
      exact stateless (F := some) (φ := id) rfl fun c _ => by rw [List.map_id]
  | cons d ds ih =>
      obtain ⟨mid, hd, hds⟩ := hjoined
      exact (h j d mid hd).bind (ih hds)

end Pass

end Streams

end JetsonVoice.Foundation
