import JetsonVoice.Foundation.TransitionSystem
import JetsonVoice.Tts.SlotPool

/-!
# Who owns a slot

The pool is shared by callers that release only slots they have claimed, bind at
most one id to a slot they hold, and unbind it before the release. Its claim
flags are changed under the pool mutex and its map under the map mutex, so a
call of `acquireOrExisting` looks its id up, claims a slot and binds the id in
three steps: no other claim or release comes between them, but a `bind` or an
`unbind` can.

## Implementation notes

`claims` is the callers' side: who holds which slot, and the id bound to it. The
pool does not know it. A call that finds its id bound returns the slot of the id
and claims nothing. The slot that `acquireOrExisting` claims counts as bound to
the id at once, since its caller is inside the call until the map has the entry.
-/

namespace JetsonVoice.Tts

open Foundation

/-- A slot that a caller has claimed and not released. -/
structure Claim (κ : Type) where
  slot : Nat
  owner : κ
  id : Option String
  deriving DecidableEq

/-- A call of `acquireOrExisting` that has not found its id and holds the pool
mutex; `claimed` is the slot it has claimed and is about to bind. -/
structure OpenCall (κ : Type) where
  caller : κ
  id : String
  claimed : Option Nat
  deriving DecidableEq

/-- What a call has done or returned; no slot stands for -1. -/
inductive PoolEvent (κ : Type) where
  | acquired (k : κ) (slot : Option Nat)
  | existing (k : κ) (id : String) (slot : Option Nat)
  | bound (id : String)
  | unbound (id : String)
  | released (slot : Nat)
  deriving DecidableEq

structure PoolState (κ : Type) where
  pool : SlotPool
  claims : List (Claim κ)
  call : Option (OpenCall κ)
  log : List (PoolEvent κ)
  deriving DecidableEq

inductive PoolLabel (κ : Type) where
  | acquireFree (k : κ)
  | acquireOrExisting (k : κ) (id : String)
  /-- The open call of `acquireOrExisting` goes on. -/
  | proceed
  | bind (k : κ) (id : String) (slot : Nat)
  | unbind (k : κ) (id : String)
  | release (k : κ) (slot : Nat)
  deriving DecidableEq

section System
variable {κ : Type} [DecidableEq κ]

namespace PoolState
variable (s : PoolState κ)

def init (κ : Type) (maxSlots : Nat) : PoolState κ := ⟨.create maxSlots, [], none, []⟩

/-- The caller is inside `acquireOrExisting`. -/
def busy (k : κ) : Bool := s.call.any fun c => c.caller = k

def note (e : PoolEvent κ) : PoolState κ := { s with log := s.log ++ [e] }

/-- `acquireFreeLocked` for `acquireFree`. -/
def acquireFree (k : κ) : PoolState κ :=
  match s.pool.acquireFree with
  | none => s.note (.acquired k none)
  | some (slot, pool) =>
      { s.note (.acquired k (some slot)) with
        pool := pool
        claims := s.claims ++ [⟨slot, k, none⟩] }

/-- `acquireOrExisting` up to its first access under the map mutex. -/
def acquireOrExisting (k : κ) (id : String) : PoolState κ :=
  match s.pool.idToSlot.lookup id with
  | some slot => s.note (.existing k id (some slot))
  | none => { s with call := some ⟨k, id, none⟩ }

/-- The rest of `acquireOrExisting`: the claim, and then the binding. -/
def proceed (c : OpenCall κ) : PoolState κ :=
  match c.claimed with
  | some slot =>
      { s.note (.existing c.caller c.id (some slot)) with
        pool := s.pool.bind c.id slot
        call := none }
  | none =>
      match s.pool.acquireFree with
      | none => { s.note (.existing c.caller c.id none) with call := none }
      | some (slot, pool) =>
          { s with
            pool := pool
            claims := s.claims ++ [⟨slot, c.caller, some c.id⟩]
            call := some { c with claimed := some slot } }

end PoolState

/-- The pool under callers that keep to the contract, with all interleavings. -/
def poolSystem (κ : Type) [DecidableEq κ] (maxSlots : Nat) :
    TransitionSystem (PoolState κ) (PoolLabel κ) where
  start := .init κ maxSlots
  step s
    | .acquireFree k => if s.call = none then some (s.acquireFree k) else none
    | .acquireOrExisting k id => if s.call = none then some (s.acquireOrExisting k id) else none
    | .proceed => s.call.map s.proceed
    | .bind k id slot =>
        if s.busy k = false ∧ ⟨slot, k, none⟩ ∈ s.claims then
          some { s.note (.bound id) with
            pool := s.pool.bind id slot
            claims := s.claims.map fun c => if c = ⟨slot, k, none⟩ then ⟨slot, k, some id⟩ else c }
        else none
    | .unbind k id =>
        if s.busy k = false then
          some { s.note (.unbound id) with
            pool := s.pool.unbind id
            claims := s.claims.map fun c =>
              if c.owner = k ∧ c.id = some id then { c with id := none } else c }
        else none
    | .release k slot =>
        if s.call = none ∧ ⟨slot, k, none⟩ ∈ s.claims then
          some { s.note (.released slot) with
            pool := s.pool.release slot
            claims := s.claims.filter (· ≠ ⟨slot, k, none⟩) }
        else none

/-- Every way the pool can take a step. -/
inductive PoolStep (s : PoolState κ) : PoolLabel κ → PoolState κ → Prop
  | full {k : κ} (hn : s.pool.acquireFree = none) :
      PoolStep s (.acquireFree k) (s.note (.acquired k none))
  | acquire {k : κ} {slot : Nat} {pool : SlotPool}
      (hp : s.pool.acquireFree = some (slot, pool)) :
      PoolStep s (.acquireFree k)
        { s.note (.acquired k (some slot)) with
          pool := pool
          claims := s.claims ++ [⟨slot, k, none⟩] }
  | reuse {k : κ} {id : String} {slot : Nat} (hc : s.call = none)
      (hl : s.pool.idToSlot.lookup id = some slot) :
      PoolStep s (.acquireOrExisting k id) (s.note (.existing k id (some slot)))
  | miss {k : κ} {id : String} (hc : s.call = none) (hl : s.pool.idToSlot.lookup id = none) :
      PoolStep s (.acquireOrExisting k id) { s with call := some ⟨k, id, none⟩ }
  | claimFull {k : κ} {id : String} (hc : s.call = some ⟨k, id, none⟩)
      (hn : s.pool.acquireFree = none) :
      PoolStep s .proceed { s.note (.existing k id none) with call := none }
  | claim {k : κ} {id : String} {slot : Nat} {pool : SlotPool} (hc : s.call = some ⟨k, id, none⟩)
      (hp : s.pool.acquireFree = some (slot, pool)) :
      PoolStep s .proceed { s with
        pool := pool
        claims := s.claims ++ [⟨slot, k, some id⟩]
        call := some ⟨k, id, some slot⟩ }
  | bindClaimed {k : κ} {id : String} {slot : Nat} (hc : s.call = some ⟨k, id, some slot⟩) :
      PoolStep s .proceed
        { s.note (.existing k id (some slot)) with pool := s.pool.bind id slot, call := none }
  | bind {k : κ} {id : String} {slot : Nat} (hk : s.busy k = false)
      (hm : ⟨slot, k, none⟩ ∈ s.claims) :
      PoolStep s (.bind k id slot)
        { s.note (.bound id) with
          pool := s.pool.bind id slot
          claims := s.claims.map fun c => if c = ⟨slot, k, none⟩ then ⟨slot, k, some id⟩ else c }
  | unbind {k : κ} {id : String} (hk : s.busy k = false) :
      PoolStep s (.unbind k id)
        { s.note (.unbound id) with
          pool := s.pool.unbind id
          claims := s.claims.map fun c =>
            if c.owner = k ∧ c.id = some id then { c with id := none } else c }
  | release {k : κ} {slot : Nat} (hc : s.call = none) (hm : ⟨slot, k, none⟩ ∈ s.claims) :
      PoolStep s (.release k slot)
        { s.note (.released slot) with
          pool := s.pool.release slot
          claims := s.claims.filter (· ≠ ⟨slot, k, none⟩) }

theorem poolStep_cases {maxSlots : Nat} {s t : PoolState κ} {l : PoolLabel κ}
    (h : (poolSystem κ maxSlots).step s l = some t) : PoolStep s l t := by
  cases l with
  | acquireFree k =>
      simp only [poolSystem, Option.ite_none_right_eq_some, Option.some.injEq] at h
      obtain ⟨-, rfl⟩ := h
      rw [PoolState.acquireFree]
      split
      · rename_i hn
        exact .full hn
      · rename_i hp
        exact .acquire hp
  | acquireOrExisting k id =>
      simp only [poolSystem, Option.ite_none_right_eq_some, Option.some.injEq] at h
      obtain ⟨hc, rfl⟩ := h
      rw [PoolState.acquireOrExisting]
      split
      · rename_i hl
        exact .reuse hc hl
      · rename_i hl
        exact .miss hc hl
  | proceed =>
      obtain ⟨⟨k, id, claimed⟩, hc, rfl⟩ := Option.map_eq_some_iff.mp h
      cases claimed with
      | some slot => exact .bindClaimed hc
      | none =>
          simp only [PoolState.proceed]
          split
          · rename_i hn
            exact .claimFull hc hn
          · rename_i hp
            exact .claim hc hp
  | bind k id slot =>
      simp only [poolSystem, Option.ite_none_right_eq_some, Option.some.injEq] at h
      obtain ⟨⟨hk, hm⟩, rfl⟩ := h
      exact .bind hk hm
  | unbind k id =>
      simp only [poolSystem, Option.ite_none_right_eq_some, Option.some.injEq] at h
      obtain ⟨hk, rfl⟩ := h
      exact .unbind hk
  | release k slot =>
      simp only [poolSystem, Option.ite_none_right_eq_some, Option.some.injEq] at h
      obtain ⟨⟨hc, hm⟩, rfl⟩ := h
      exact .release hc hm

/-- The pool agrees with its callers' claims. -/
structure Owned (maxSlots : Nat) (s : PoolState κ) : Prop where
  length : s.pool.inUse.length = maxSlots
  slots : (s.claims.map Claim.slot).Nodup
  inUse : ∀ i, s.pool.inUse[i]? = some true ↔ ∃ c ∈ s.claims, c.slot = i
  entry : ∀ ⦃id i⦄, s.pool.idToSlot.lookup id = some i → ∃ k, ⟨i, k, some id⟩ ∈ s.claims
  call : ∀ ⦃k id i⦄, s.call = some ⟨k, id, some i⟩ → ⟨i, k, some id⟩ ∈ s.claims

section Owned
variable {maxSlots : Nat} {s t : PoolState κ} {l : PoolLabel κ}

omit [DecidableEq κ] in
theorem Owned.init : Owned maxSlots (PoolState.init κ maxSlots) where
  length := List.length_replicate
  slots := List.nodup_nil
  inUse i := by simp [PoolState.init, SlotPool.create, List.getElem?_replicate]
  entry := nofun
  call := nofun

omit [DecidableEq κ] in
/-- A slot has one claim. -/
theorem Owned.unique (hs : Owned maxSlots s) {c c' : Claim κ} (hc : c ∈ s.claims)
    (hc' : c' ∈ s.claims) (h : c.slot = c'.slot) : c = c' :=
  List.inj_on_of_nodup_map hs.slots hc hc' h

omit [DecidableEq κ] in
/-- Claiming a free slot adds a claim for a slot that had none. -/
theorem Owned.claim (hs : Owned maxSlots s) {slot : Nat} {pool : SlotPool} {c : Claim κ}
    (hp : s.pool.acquireFree = some (slot, pool)) (hc : c.slot = slot) {call : Option (OpenCall κ)}
    {log : List (PoolEvent κ)}
    (hcall : ∀ ⦃k id i⦄, call = some ⟨k, id, some i⟩ → ⟨i, k, some id⟩ ∈ s.claims ++ [c]) :
    Owned maxSlots ⟨pool, s.claims ++ [c], call, log⟩ := by
  obtain ⟨hfree, rfl⟩ := SlotPool.acquireFree_some hp
  have hnew : ∀ c' ∈ s.claims, c'.slot ≠ slot := by
    intro c' hc' heq
    have := (hs.inUse slot).mpr ⟨c', hc', heq⟩
    rw [hfree] at this
    cases this
  exact {
    length := (List.length_set ..).trans hs.length
    slots := by
      rw [List.map_append, List.nodup_append]
      refine ⟨hs.slots, List.nodup_singleton _, ?_⟩
      intro a ha b hb heq
      obtain ⟨c', hc', rfl⟩ := List.mem_map.mp ha
      obtain rfl : c.slot = b := by simpa [eq_comm] using hb
      exact hnew c' hc' (heq.trans hc)
    inUse := fun i => by
      simp only [List.mem_append, List.mem_singleton, or_and_right, exists_or]
      by_cases hi : i = slot
      · subst hi
        rw [getElem?_set_same hfree]
        exact ⟨fun _ => .inr ⟨c, rfl, hc⟩, fun _ => rfl⟩
      · rw [getElem?_set_other hi, hs.inUse i]
        constructor
        · exact .inl
        · rintro (h | ⟨c', rfl, hc'⟩)
          · exact h
          · exact absurd (hc'.symm.trans hc) hi
    entry := fun id i hl => by
      obtain ⟨k, hk⟩ := hs.entry hl
      exact ⟨k, List.mem_append_left _ hk⟩
    call := hcall }

omit [DecidableEq κ] in
/-- Rewriting the ids of the claims keeps the slots. -/
theorem Owned.rename (hs : Owned maxSlots s) {f : Claim κ → Claim κ}
    (hf : ∀ c, (f c).slot = c.slot) {table : Table String Nat} {log : List (PoolEvent κ)}
    {call : Option (OpenCall κ)}
    (hentry : ∀ ⦃id i⦄, table.lookup id = some i → ∃ c ∈ s.claims, ∃ k, f c = ⟨i, k, some id⟩)
    (hcall : ∀ ⦃k id i⦄, call = some ⟨k, id, some i⟩ → ⟨i, k, some id⟩ ∈ s.claims.map f) :
    Owned maxSlots ⟨⟨s.pool.inUse, table⟩, s.claims.map f, call, log⟩ where
  length := hs.length
  slots := by
    rw [List.map_map, show Claim.slot ∘ f = Claim.slot from funext hf]
    exact hs.slots
  inUse i := by
    rw [hs.inUse i]
    simp [hf]
  entry id i hl := by
    obtain ⟨c, hc, k, hk⟩ := hentry hl
    exact ⟨k, hk ▸ List.mem_map_of_mem hc⟩
  call := hcall

theorem not_busy {k k' : κ} {id : String} {claimed : Option Nat} (hk : s.busy k = false)
    (hc : s.call = some ⟨k', id, claimed⟩) : k' ≠ k := by
  simpa [PoolState.busy, hc] using hk

theorem Owned.step (hs : Owned maxSlots s) (h : PoolStep s l t) : Owned maxSlots t := by
  cases h with
  | full | reuse => exact ⟨hs.length, hs.slots, hs.inUse, hs.entry, hs.call⟩
  | miss | claimFull => exact ⟨hs.length, hs.slots, hs.inUse, hs.entry, nofun⟩
  | acquire hp =>
      exact hs.claim hp rfl fun k id i hc => List.mem_append_left _ (hs.call hc)
  | claim hc hp =>
      refine hs.claim hp rfl fun k id i hc' => List.mem_append_right _ ?_
      cases hc'
      exact List.mem_singleton_self _
  | @bindClaimed k id slot hc =>
      refine ⟨hs.length, hs.slots, hs.inUse, ?_, nofun⟩
      intro id' i hl
      simp only [SlotPool.bind, Table.lookup_insert_cases] at hl
      split at hl
      · rename_i hid
        subst hid
        cases hl
        exact ⟨k, hs.call hc⟩
      · exact hs.entry hl
  | @bind k id slot hk hm =>
      refine hs.rename (fun c => by split <;> simp_all) ?_ ?_
      · intro id' i hl
        simp only [Table.lookup_insert_cases] at hl
        split at hl
        · rename_i hid
          cases hl
          exact ⟨_, hm, k, by simp [hid]⟩
        · obtain ⟨k', hk'⟩ := hs.entry hl
          exact ⟨_, hk', k', by simp⟩
      · intro k' id' i hc
        exact List.mem_map.mpr ⟨_, hs.call hc, by simp⟩
  | @unbind k id hk =>
      refine hs.rename (fun c => by split <;> rfl) ?_ ?_
      · intro id' i hl
        simp only [Table.lookup_erase_cases] at hl
        split at hl
        · cases hl
        · rename_i hid
          obtain ⟨k', hk'⟩ := hs.entry hl
          exact ⟨_, hk', k', by simp [hid]⟩
      · intro k' id' i hc
        exact List.mem_map.mpr ⟨_, hs.call hc, by simp [not_busy hk hc]⟩
  | @release k slot hc hm =>
      have hkeep : ∀ c ∈ s.claims, c.slot ≠ slot → c ∈ s.claims.filter (· ≠ ⟨slot, k, none⟩) := by
        intro c hmem hne
        refine List.mem_filter.mpr ⟨hmem, ?_⟩
        simp only [decide_eq_true_eq]
        rintro rfl
        exact hne rfl
      refine ⟨(List.length_set ..).trans hs.length, ?_, ?_, ?_, ?_⟩
      · exact hs.slots.sublist (List.filter_sublist.map _)
      · intro i
        have hclaimed : s.pool.inUse[slot]? = some true := (hs.inUse slot).mpr ⟨_, hm, rfl⟩
        by_cases hi : i = slot
        · subst hi
          rw [SlotPool.release_inUse, getElem?_set_same hclaimed]
          refine ⟨nofun, ?_⟩
          rintro ⟨c, hmem, hslot⟩
          obtain ⟨hc', hne⟩ := List.mem_filter.mp hmem
          simp only [decide_eq_true_eq] at hne
          exact absurd (hs.unique hc' hm hslot) hne
        · rw [SlotPool.release_inUse, getElem?_set_other hi, hs.inUse i]
          constructor
          · rintro ⟨c, hmem, rfl⟩
            exact ⟨c, hkeep c hmem hi, rfl⟩
          · rintro ⟨c, hmem, rfl⟩
            exact ⟨c, List.mem_of_mem_filter hmem, rfl⟩
      · intro id i hl
        obtain ⟨k', hk'⟩ := hs.entry hl
        refine ⟨k', List.mem_filter.mpr ⟨hk', by simp⟩⟩
      · intro k' id i hc'
        cases hc.symm.trans hc'

theorem owned_invariant (κ : Type) [DecidableEq κ] (maxSlots : Nat) :
    (poolSystem κ maxSlots).Invariant (Owned maxSlots) where
  start := Owned.init
  step hs h := hs.step (poolStep_cases h)

end Owned

/-- The event ends what a call of `acquireOrExisting` that returned `slot` for
`id` promises to the next one. -/
def PoolEvent.touches (id : String) (slot : Nat) : PoolEvent κ → Bool
  | .bound id' | .unbound id' => id' = id
  | .released slot' => slot' = slot
  | _ => false

/-- The last word of the log on an id: a call returned `slot` for it, and neither
has been touched since. -/
def Latest (log : List (PoolEvent κ)) (id : String) (slot : Nat) : Prop :=
  ∃ before k after, log = before ++ .existing k id (some slot) :: after ∧
    ∀ e ∈ after, e.touches id slot = false

/-- Two calls of `acquireOrExisting` for one id with nothing in between that
touches it return the same slot. -/
def Agreed (log : List (PoolEvent κ)) : Prop :=
  ∀ ⦃before k id slot between k' r after⦄,
    log = before ++ .existing k id (some slot) :: (between ++ .existing k' id r :: after) →
    (∀ e ∈ between, e.touches id slot = false) → r = some slot

section Log
variable {log : List (PoolEvent κ)} {e : PoolEvent κ} {id : String} {slot : Nat}

omit [DecidableEq κ] in
theorem latest_append (h : Latest (log ++ [e]) id slot) :
    (∃ k, e = .existing k id (some slot)) ∨ (Latest log id slot ∧ e.touches id slot = false) := by
  obtain ⟨before, k, after, hlog, hafter⟩ := h
  rcases List.eq_nil_or_concat after with rfl | ⟨rest, e', rfl⟩
  · have := List.append_inj' hlog rfl
    exact .inl ⟨k, List.singleton_inj.mp this.2⟩
  · rw [List.concat_eq_append, ← List.cons_append, ← List.append_assoc] at hlog
    have hsplit := List.append_inj' hlog rfl
    obtain rfl := List.singleton_inj.mp hsplit.2
    refine .inr ⟨⟨before, k, rest, hsplit.1, fun x hx => hafter x ?_⟩, hafter e ?_⟩
    · simp [hx]
    · simp

omit [DecidableEq κ] in
theorem Agreed.append (h : Agreed log)
    (he : ∀ ⦃k id r⦄, e = .existing k id r → ∀ slot, Latest log id slot → r = some slot) :
    Agreed (log ++ [e]) := by
  intro before k id slot between k' r after hlog hbetween
  rcases List.eq_nil_or_concat after with rfl | ⟨rest, e', rfl⟩
  · have hassoc : before ++ .existing k id (some slot) :: (between ++ [.existing k' id r]) =
        (before ++ .existing k id (some slot) :: between) ++ [.existing k' id r] := by simp
    have hsplit := List.append_inj' (hlog.trans hassoc) rfl
    exact he (List.singleton_inj.mp hsplit.2) slot ⟨before, k, between, hsplit.1, hbetween⟩
  · have hassoc : before ++ .existing k id (some slot) ::
          (between ++ .existing k' id r :: rest.concat e') =
        (before ++ .existing k id (some slot) :: (between ++ .existing k' id r :: rest)) ++ [e'] := by
      simp
    exact h (List.append_inj' (hlog.trans hassoc) rfl).1 hbetween

end Log

/-- What the log promises is what the map says; an id that an open call has not
found has no promise. -/
structure Remembered (s : PoolState κ) : Prop where
  latest : ∀ ⦃id slot⦄, Latest s.log id slot → s.pool.idToSlot.lookup id = some slot
  missed : ∀ ⦃c⦄, s.call = some c → ∀ slot, ¬ Latest s.log c.id slot
  agreed : Agreed s.log

section Remembered
variable {maxSlots : Nat} {s t : PoolState κ} {l : PoolLabel κ}

omit [DecidableEq κ] in
/-- A step whose event is no return of `acquireOrExisting`, and whose change of
the map is covered by the event. -/
theorem Remembered.quiet (hs : Remembered s) {e : PoolEvent κ}
    (hlog : t.log = s.log ++ [e]) (he : ∀ k id r, e ≠ .existing k id r)
    (hcall : t.call = s.call)
    (hmap : ∀ ⦃id slot⦄, e.touches id slot = false → s.pool.idToSlot.lookup id = some slot →
      t.pool.idToSlot.lookup id = some slot) : Remembered t := by
  have hold : ∀ ⦃id slot⦄, Latest t.log id slot →
      Latest s.log id slot ∧ e.touches id slot = false := by
    intro id slot h
    rw [hlog] at h
    rcases latest_append h with ⟨k, rfl⟩ | h'
    · exact absurd rfl (he k id (some slot))
    · exact h'
  refine ⟨fun id slot h => hmap (hold h).2 (hs.latest (hold h).1), ?_, ?_⟩
  · intro c hc slot h
    exact hs.missed (hcall ▸ hc) slot (hold h).1
  · rw [hlog]
    exact hs.agreed.append fun k id r heq => absurd heq (he k id r)

omit [DecidableEq κ] in
/-- A call of `acquireOrExisting` returns what the map says from now on, and
what was promised for the id before. -/
theorem Remembered.answer (hs : Remembered s) {k : κ} {id : String} {r : Option Nat}
    (hlog : t.log = s.log ++ [.existing k id r]) (hcall : t.call = none)
    (hnew : ∀ slot, Latest s.log id slot → r = some slot)
    (hret : ∀ slot, r = some slot → t.pool.idToSlot.lookup id = some slot)
    (hmap : ∀ ⦃id'⦄, id' ≠ id → t.pool.idToSlot.lookup id' = s.pool.idToSlot.lookup id') :
    Remembered t := by
  refine ⟨?_, fun c hc => by simp [hcall] at hc, ?_⟩
  · intro id' slot h
    rw [hlog] at h
    rcases latest_append h with ⟨k', heq⟩ | ⟨h', -⟩
    · cases heq
      exact hret slot rfl
    · by_cases hid : id' = id
      · subst hid
        exact hret slot (hnew slot h')
      · rw [hmap hid]
        exact hs.latest h'
  · rw [hlog]
    refine hs.agreed.append ?_
    rintro k' id' r' heq slot h
    cases heq
    exact hnew slot h

theorem Remembered.step (hs : Remembered s) (h : PoolStep s l t) : Remembered t := by
  cases h with
  | full => exact hs.quiet rfl nofun rfl fun _ _ _ hl => hl
  | acquire hp =>
      obtain ⟨-, rfl⟩ := SlotPool.acquireFree_some hp
      exact hs.quiet rfl nofun rfl fun _ _ _ hl => hl
  | @reuse k id slot hc hl =>
      refine hs.answer rfl hc (fun slot' h => ?_) (fun slot' hr => ?_) fun _ _ => rfl
      · exact hl.symm.trans (hs.latest h)
      · cases hr
        exact hl
  | @miss k id hc hl =>
      refine ⟨hs.latest, fun c hc' slot h => ?_, hs.agreed⟩
      cases hc'
      cases hl.symm.trans (hs.latest h)
  | @claimFull k id hc hn =>
      exact hs.answer rfl rfl (fun slot h => absurd h (hs.missed hc slot)) nofun fun _ _ => rfl
  | @claim k id slot pool hc hp =>
      obtain ⟨-, rfl⟩ := SlotPool.acquireFree_some hp
      refine ⟨hs.latest, fun c hc' => ?_, hs.agreed⟩
      cases hc'
      have hmissed := hs.missed hc
      exact hmissed
  | @bindClaimed k id slot hc =>
      refine hs.answer rfl rfl (fun slot' h => absurd h (hs.missed hc slot')) ?_ ?_
      · intro slot' hr
        cases hr
        exact AList.lookup_insert _
      · intro id' hid
        exact AList.lookup_insert_ne hid
  | @bind k id slot =>
      refine hs.quiet rfl nofun rfl fun id' slot' ht hl => ?_
      have hne : id' ≠ id := fun heq => by simp [PoolEvent.touches, heq] at ht
      exact (AList.lookup_insert_ne hne).trans hl
  | @unbind k id =>
      refine hs.quiet rfl nofun rfl fun id' slot' ht hl => ?_
      have hne : id' ≠ id := fun heq => by simp [PoolEvent.touches, heq] at ht
      exact (AList.lookup_erase_ne hne).trans hl
  | release => exact hs.quiet rfl nofun rfl fun _ _ _ hl => hl

theorem remembered_invariant (κ : Type) [DecidableEq κ] (maxSlots : Nat) :
    (poolSystem κ maxSlots).Invariant Remembered where
  start := by
    have hnone : ∀ id slot, ¬ Latest ([] : List (PoolEvent κ)) id slot := by
      rintro id slot ⟨before, k, after, h, -⟩
      simp at h
    exact ⟨fun id slot h => absurd h (hnone id slot), nofun, fun _ _ _ _ _ _ _ _ h => by
      simp [poolSystem, PoolState.init] at h⟩
  step hs h := hs.step (poolStep_cases h)

end Remembered

/-- Exclusive ownership of the slots. -/
structure Exclusive (maxSlots : Nat) (s : PoolState κ) : Prop where
  /-- A slot is claimed by one caller between its acquire and its release, and it
  is in use just then. -/
  owner : (s.claims.map Claim.slot).Nodup
  inUse : ∀ i, s.pool.inUse[i]? = some true ↔ ∃ c ∈ s.claims, c.slot = i
  /-- A call returns -1 only when all slots are in use. -/
  saturated : ∀ ⦃l t e⦄, (poolSystem κ maxSlots).step s l = some t → t.log = s.log ++ [e] →
    (∃ k, e = .acquired k none ∨ ∃ id, e = .existing k id none) →
    ∀ i < maxSlots, s.pool.inUse[i]? = some true
  mapped : ∀ ⦃id i⦄, s.pool.idToSlot.lookup id = some i → s.pool.inUse[i]? = some true
  distinct : ∀ ⦃x y i⦄, s.pool.idToSlot.lookup x = some i → s.pool.idToSlot.lookup y = some i →
    x = y
  same : Agreed s.log

omit [DecidableEq κ] in
theorem saturated_of_none {maxSlots : Nat} {s : PoolState κ} (hs : Owned maxSlots s)
    (hn : s.pool.acquireFree = none) : ∀ i < maxSlots, s.pool.inUse[i]? = some true := by
  intro i hi
  have hlt : i < s.pool.inUse.length := hs.length.symm ▸ hi
  rw [List.getElem?_eq_getElem hlt, SlotPool.acquireFree_none hn _ (List.getElem_mem hlt)]

theorem slots_exclusive {maxSlots : Nat} {s : PoolState κ}
    (h : (poolSystem κ maxSlots).Reachable s) : Exclusive maxSlots s := by
  have hs := (owned_invariant κ maxSlots).of_reachable h
  have hr := (remembered_invariant κ maxSlots).of_reachable h
  exact {
    owner := hs.slots
    inUse := hs.inUse
    saturated := by
      rintro l t e hstep hlog ⟨k, hnone⟩
      cases poolStep_cases hstep with
      | full hn | claimFull _ hn => exact saturated_of_none hs hn
      | miss | claim => simp at hlog
      | acquire | reuse | bindClaimed | bind | unbind | release =>
          have he := List.singleton_inj.mp (List.append_cancel_left hlog)
          subst he
          rcases hnone with hnone | ⟨id, hnone⟩ <;> cases hnone
    mapped := fun id i hl => by
      obtain ⟨k, hk⟩ := hs.entry hl
      exact (hs.inUse i).mpr ⟨_, hk, rfl⟩
    distinct := fun x y i hx hy => by
      obtain ⟨k, hk⟩ := hs.entry hx
      obtain ⟨k', hk'⟩ := hs.entry hy
      simpa using congrArg Claim.id (hs.unique hk hk' rfl)
    same := hr.agreed }

/-- Two callers: one call of `acquireOrExisting` is interrupted by a `bind` of the
same id, and the next one returns its slot. -/
def interleavedCalls : List (PoolLabel Nat) :=
  [.acquireFree 0, .acquireOrExisting 1 "a", .proceed, .bind 0 "a" 0, .proceed,
    .acquireOrExisting 0 "a"]

theorem slots_exclusive_of_interleaved :
    ∃ s, (poolSystem Nat 2).Reachable s ∧ Exclusive 2 s ∧
      s.log = [.acquired 0 (some 0), .bound "a", .existing 1 "a" (some 1),
        .existing 0 "a" (some 1)] := by
  obtain ⟨s, hr, hlog⟩ := TransitionSystem.exists_reachable (T := poolSystem Nat 2)
    (fun s => s.log = [.acquired 0 (some 0), .bound "a", .existing 1 "a" (some 1),
      .existing 0 "a" (some 1)]) interleavedCalls (by decide)
  exact ⟨s, hr, slots_exclusive hr, hlog⟩

end System

end JetsonVoice.Tts
