import Mathlib.Data.List.Basic
import Mathlib.Logic.Function.Basic

/-!
# States by position and states by name

A pass over a chain of stateful modules takes the state of each module and puts
its next one. By position, states are taken from a list at a cursor and the next
ones are appended to another list. By name, every module is given its own state
and leaves its next one under its own name. A part of the chain is plumbed when
the two agree on every list that holds its states in the order of its keys.
-/

namespace JetsonVoice.Foundation

variable {K V W X Y A : Type*}

/-- A list given under distinct keys is read by them. -/
theorem exists_map_of_nodup [DecidableEq K] [Nonempty V] {keys : List K} {vs : List V}
    (h : keys.Nodup) (hlen : keys.length = vs.length) : ∃ state : K → V, keys.map state = vs := by
  induction keys generalizing vs with
  | nil =>
      obtain rfl := List.length_eq_zero_iff.mp hlen.symm
      exact ⟨fun _ => Classical.arbitrary V, rfl⟩
  | cons k keys ih =>
      obtain ⟨hk, hkeys⟩ := List.nodup_cons.mp h
      cases vs with
      | nil => cases hlen
      | cons v vs =>
          obtain ⟨state, rfl⟩ := ih hkeys (Nat.succ.inj hlen)
          refine ⟨Function.update state k v, ?_⟩
          rw [List.map_cons, Function.update_self]
          congr 1
          apply List.map_congr_left
          intro k' hk'
          exact Function.update_of_ne (ne_of_mem_of_not_mem hk' hk) _ _

/-- How a pass takes the state of a module and puts its next one. -/
structure Access (K V W : Type*) where
  take : K → W → Option (V × W)
  put : K → V → W → W

/-- States at a cursor, next states in order. -/
def positional (states : List V) : Access K V (Nat × List V) where
  take _ w := states[w.1]?.map fun v => (v, w.1 + 1, w.2)
  put _ v w := (w.1, w.2 ++ [v])

/-- Every key has its own state and leaves its own next state. -/
def named (state : K → V) : Access K V (List (K × V)) where
  take k w := some (state k, w)
  put k v w := w ++ [(k, v)]

namespace Access

/-- A module with one state. -/
def use (a : Access K V W) (k : K) (step : V → Option (X × V)) (w : W) : Option (X × W) :=
  (a.take k w).bind fun p => (step p.1).map fun q => (q.1, a.put k q.2 p.2)

/-- A module with two states. -/
def useTwo (a : Access K V W) (k k' : K) (step : V → V → Option (X × V × V)) (w : W) :
    Option (X × W) :=
  (a.take k w).bind fun p => (a.take k' p.2).bind fun p' =>
    (step p.1 p'.1).map fun q => (q.1, a.put k' q.2.2 (a.put k q.2.1 p'.2))

end Access

/-- The modules of a list, one after the other. -/
def pass (step : A → X → W → Option (X × W)) : List A → X → W → Option (X × W)
  | [], x, w => some (x, w)
  | a :: as, x, w => (step a x w).bind fun p => pass step as p.1 p.2

/-- A part `f` of a pass by position and the same part `g` by name, with the keys of
its states in order. `fits` is what the states by name have, and `sound` the condition
under which the next ones have it too; for that the input satisfies `pre`, and the
result then satisfies `post`. -/
structure Plumbed (fits : K → V → Prop) (state : K → V) (states : List V) (keys : List K)
    (pre : Prop) (post : X → Prop) (sound : Prop) (f : Nat × List V → Option (X × Nat × List V))
    (g : List (K × V) → Option (X × List (K × V))) : Prop where
  follows : ∀ {cursor rest next x next'}, states.drop cursor = keys.map state ++ rest →
    g next = some (x, next') →
    f (cursor, next.map Prod.snd) = some (x, cursor + keys.length, next'.map Prod.snd)
  counts : ∀ {w x w'}, f w = some (x, w') → w'.2.length = w.2.length + keys.length
  records : pre → (∀ k ∈ keys, fits k (state k)) → ∀ {next x next'}, g next = some (x, next') →
    post x ∧ ∃ made, next' = next ++ made ∧ made.map Prod.fst = keys ∧
      ((∀ r ∈ made, fits r.1 r.2) ↔ sound)

namespace Plumbed
variable {fits : K → V → Prop} {state : K → V} {states : List V} {keys keys' : List K}
  {pre : Prop} {post : X → Prop} {post' : Y → Prop} {sound sound' : Prop}
  {f : Nat × List V → Option (X × Nat × List V)} {g : List (K × V) → Option (X × List (K × V))}

/-- A module without a state. -/
theorem stateless {o : Option X} (hpost : pre → ∀ x, o = some x → post x) :
    Plumbed fits state states [] pre post True (fun w => o.map fun x => (x, w))
      (fun next => o.map fun x => (x, next)) where
  follows _ h := by
    obtain ⟨y, ho, heq⟩ := Option.map_eq_some_iff.mp h
    obtain ⟨rfl, rfl⟩ := Prod.mk.inj heq
    rw [ho]
    rfl
  counts h := by
    obtain ⟨_, -, heq⟩ := Option.map_eq_some_iff.mp h
    cases heq
    rfl
  records hpre _ next x next' h := by
    obtain ⟨y, ho, heq⟩ := Option.map_eq_some_iff.mp h
    obtain ⟨rfl, rfl⟩ := Prod.mk.inj heq
    exact ⟨hpost hpre y ho, [], by simp⟩

theorem use {k : K} {step : V → Option (X × V)}
    (hpost : pre → ∀ x v, fits k (state k) → step (state k) = some (x, v) →
      post x ∧ (fits k v ↔ sound)) :
    Plumbed fits state states [k] pre post sound ((positional states).use k step)
      ((named state).use k step) where
  follows {cursor rest next x next'} hdrop h := by
    have hat : states[cursor]? = some (state k) := by
      rw [← List.head?_drop, hdrop]
      rfl
    obtain ⟨⟨y, v⟩, hstep, heq⟩ := Option.map_eq_some_iff.mp h
    obtain ⟨rfl, rfl⟩ := Prod.mk.inj heq
    simp [Access.use, positional, named, hat, hstep]
  counts h := by
    obtain ⟨p, hp, h⟩ := Option.bind_eq_some_iff.mp h
    obtain ⟨v, -, rfl⟩ := Option.map_eq_some_iff.mp hp
    obtain ⟨q, -, heq⟩ := Option.map_eq_some_iff.mp h
    cases heq
    simp [positional]
  records hpre hfits next x next' h := by
    obtain ⟨q, hq, heq⟩ := Option.map_eq_some_iff.mp h
    cases heq
    obtain ⟨hx, hiff⟩ := hpost hpre q.1 q.2 (hfits k List.mem_cons_self) hq
    exact ⟨hx, [(k, q.2)], rfl, rfl, by simpa using hiff⟩

theorem useTwo {k k' : K} {step : V → V → Option (X × V × V)}
    (hpost : pre → ∀ x v v', fits k (state k) → fits k' (state k') →
      step (state k) (state k') = some (x, v, v') →
      post x ∧ (fits k v ∧ fits k' v' ↔ sound)) :
    Plumbed fits state states [k, k'] pre post sound ((positional states).useTwo k k' step)
      ((named state).useTwo k k' step) where
  follows {cursor rest next x next'} hdrop h := by
    have hat : states[cursor]? = some (state k) := by
      rw [← List.head?_drop, hdrop]
      rfl
    have hat' : states[cursor + 1]? = some (state k') := by
      rw [← List.head?_drop, ← List.drop_drop, hdrop]
      rfl
    obtain ⟨⟨y, v, v'⟩, hstep, heq⟩ := Option.map_eq_some_iff.mp h
    obtain ⟨rfl, rfl⟩ := Prod.mk.inj heq
    simp [Access.useTwo, positional, named, hat, hat', hstep]
  counts h := by
    obtain ⟨p, hp, h⟩ := Option.bind_eq_some_iff.mp h
    obtain ⟨v, -, rfl⟩ := Option.map_eq_some_iff.mp hp
    obtain ⟨p', hp', h⟩ := Option.bind_eq_some_iff.mp h
    obtain ⟨v', -, rfl⟩ := Option.map_eq_some_iff.mp hp'
    obtain ⟨q, -, heq⟩ := Option.map_eq_some_iff.mp h
    cases heq
    simp [positional]
  records hpre hfits next x next' h := by
    obtain ⟨q, hq, heq⟩ := Option.map_eq_some_iff.mp h
    cases heq
    obtain ⟨hx, hiff⟩ := hpost hpre q.1 q.2.1 q.2.2 (hfits k List.mem_cons_self)
      (hfits k' (List.mem_cons_of_mem _ List.mem_cons_self)) hq
    exact ⟨hx, [(k, q.2.1), (k', q.2.2)], by simp [named], rfl, by simpa using hiff⟩

theorem congr (h : Plumbed fits state states keys pre post sound f g) (hs : sound ↔ sound') :
    Plumbed fits state states keys pre post sound' f g :=
  propext hs ▸ h

theorem weaken {post' : X → Prop} (h : Plumbed fits state states keys pre post sound f g)
    (hpost : ∀ x, post x → post' x) : Plumbed fits state states keys pre post' sound f g where
  follows := h.follows
  counts := h.counts
  records hpre hfits _ _ _ hs :=
    have ⟨hx, hmade⟩ := h.records hpre hfits hs
    ⟨hpost _ hx, hmade⟩

/-- One part after another. -/
theorem bind (h : Plumbed fits state states keys pre post sound f g)
    {f' : X × Nat × List V → Option (Y × Nat × List V)}
    {g' : X × List (K × V) → Option (Y × List (K × V))}
    (h' : ∀ x, Plumbed fits state states keys' (post x) post' sound' (fun w => f' (x, w))
      (fun next => g' (x, next))) :
    Plumbed fits state states (keys ++ keys') pre post' (sound ∧ sound')
      (fun w => (f w).bind f') (fun next => (g next).bind g') where
  follows {cursor rest next y next''} hdrop hs := by
    obtain ⟨⟨x, next'⟩, hg, hs⟩ := Option.bind_eq_some_iff.mp hs
    rw [List.map_append, List.append_assoc] at hdrop
    have hrest : states.drop (cursor + keys.length) = keys'.map state ++ rest := by
      rw [← List.drop_drop, hdrop, ← List.length_map (f := state), List.drop_left]
    calc
      (f (cursor, next.map Prod.snd)).bind f' =
          f' (x, cursor + keys.length, next'.map Prod.snd) := by
        rw [h.follows hdrop hg, Option.bind_some]
      _ = some (y, cursor + keys.length + keys'.length, next''.map Prod.snd) :=
        (h' x).follows hrest hs
      _ = some (y, cursor + (keys ++ keys').length, next''.map Prod.snd) := by
        rw [List.length_append, Nat.add_assoc]
  counts {w y w''} hs := by
    obtain ⟨⟨x, w'⟩, hf, hs⟩ := Option.bind_eq_some_iff.mp hs
    rw [(h' x).counts hs, h.counts hf, List.length_append, Nat.add_assoc]
  records hpre hfits next y next'' hs := by
    obtain ⟨⟨x, next'⟩, hg, hs⟩ := Option.bind_eq_some_iff.mp hs
    obtain ⟨hkeys, hkeys'⟩ := List.forall_mem_append.mp hfits
    obtain ⟨hx, made, rfl, hmade, hsound⟩ := h.records hpre hkeys hg
    obtain ⟨hy, made', rfl, hmade', hsound'⟩ := (h' x).records hx hkeys' hs
    refine ⟨hy, made ++ made', List.append_assoc _ _ _, ?_, ?_⟩
    · rw [List.map_append, hmade, hmade']
    · rw [List.forall_mem_append, hsound, hsound']

/-- What a part gives may go on through something without a state. -/
theorem andThen (h : Plumbed fits state states keys pre post sound f g) (o : X → Option Y)
    (hpost : ∀ x, post x → ∀ y, o x = some y → post' y) :
    Plumbed fits state states keys pre post' sound
      (fun w => (f w).bind fun p => (o p.1).map fun y => (y, p.2))
      (fun next => (g next).bind fun p => (o p.1).map fun y => (y, p.2)) := by
  have hlast (x : X) : Plumbed fits state states [] (post x) post' True
      (fun w => (o x).map fun y => (y, w)) (fun next => (o x).map fun y => (y, next)) :=
    stateless (hpost x)
  have hboth : Plumbed fits state states (keys ++ []) pre post' (sound ∧ True)
      (fun w => (f w).bind fun p => (o p.1).map fun y => (y, p.2))
      (fun next => (g next).bind fun p => (o p.1).map fun y => (y, p.2)) :=
    h.bind fun x => hlast x
  rwa [List.append_nil, and_true] at hboth

/-- A list of parts, each keeping what the next one needs. -/
theorem pass {as : List A} {inv : X → Prop} {keysOf : A → List K} {soundOf : A → Prop}
    {step : A → X → Nat × List V → Option (X × Nat × List V)}
    {step' : A → X → List (K × V) → Option (X × List (K × V))}
    (h : ∀ a ∈ as, ∀ x, Plumbed fits state states (keysOf a) (inv x) inv (soundOf a)
      (step a x) (step' a x)) (x : X) :
    Plumbed fits state states (as.flatMap keysOf) (inv x) inv (∀ a ∈ as, soundOf a)
      (Foundation.pass step as x) (Foundation.pass step' as x) := by
  induction as generalizing x with
  | nil =>
      have hnil : Plumbed fits state states [] (inv x) inv True
          (fun w => (some x).map fun x => (x, w)) fun next => (some x).map fun x => (x, next) :=
        stateless fun hx y hy => Option.some.inj hy ▸ hx
      have hall : (∀ a ∈ [], soundOf a) = True := by simp
      rw [List.flatMap_nil, hall]
      exact hnil
  | cons a as ih =>
      have hhead := h a List.mem_cons_self x
      have htail := ih fun b hb => h b (List.mem_cons_of_mem _ hb)
      have hall : (∀ b ∈ a :: as, soundOf b) = (soundOf a ∧ ∀ b ∈ as, soundOf b) :=
        propext List.forall_mem_cons
      rw [List.flatMap_cons, hall]
      exact hhead.bind fun y => htail y

end Plumbed

end JetsonVoice.Foundation
