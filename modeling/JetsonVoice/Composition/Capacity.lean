import JetsonVoice.Composition.Link
import JetsonVoice.Moss.Admission
import JetsonVoice.Tts.Cancellation
import JetsonVoice.Tts.RequestLog
import JetsonVoice.WorkerIO.Abandonment
import Mathlib.Data.List.Flatten

/-!
# The capacity the client and its worker agree on

The Qwen3-TTS worker refuses a request when no slot is free, the MOSS worker
when its controls are full. Both free the place of a request after they have
written the event that ends it, so the next request of the client can arrive in
between.
-/

namespace JetsonVoice.Composition

open Foundation Protocol TransitionSystem WorkerIO

/-- An event with a string for its id. -/
theorem Proper.of_rid {ids : List String} {e : Json} {id n : String} (hid : rid e = some (.str id))
    (hn : name e = some n) (hexit : n ≠ "_worker_exit")
    (hstatus : e.field? "status" = none ∨ e.field? "status" = some (.int 409))
    (hends : isTerminal e = true → id ∈ ids ∧ id ≠ "") : Proper ids e where
  routable := raises_of_named hid hn
  named := by simpa [hn] using hexit
  unsaturated := by
    rcases hstatus with hstatus | hstatus
    · simp [saturated, hstatus]
    · simp [saturated, hstatus]
  ends hterm := ⟨id, (hends hterm).1, key_of_rid hid (hends hterm).2⟩

namespace Server.Moves

variable {V : Server} {new : List String} {w w' : V.State}

/-- A step that writes nothing. -/
theorem silent (hout : V.out w' = V.out w) (hplaced : (V.placed w').Subperm (new ++ V.placed w)) :
    V.Moves new w w' :=
  ⟨⟨[], by rw [hout, List.append_nil], nofun⟩, hplaced⟩

/-- A step that writes one event. -/
theorem writes {e : Json} (hout : V.out w' = V.out w ++ [e]) (he : Proper (new ++ V.placed w) e)
    (hplaced : (V.placed w').Subperm (new ++ V.placed w)) : V.Moves new w w' := by
  refine ⟨⟨[e], hout, ?_⟩, hplaced⟩
  intro e' he'
  exact List.mem_singleton.mp he' ▸ he

end Server.Moves

section Moss

/-- The MOSS worker; a request holds a place while it is in the controls. -/
def mossServer (c : Moss.Config) : Server where
  State := Moss.Worker
  Label := Moss.Label
  system := Moss.system c
  line item := .line (.ok item)
  own
    | .main | .thread _ _ => true
    | _ => false
  out w := w.out.map (·.2)
  placed w := w.controls.keys
  capacity := c.maxSlots

/-- The controls hold exactly the requests in progress, which have ids. -/
structure MossKeeps (c : Moss.Config) (w : Moss.Worker) : Prop where
  admitted : Moss.Admitted c w
  named : "" ∉ w.controls.keys

variable {c : Moss.Config} {w w' : Moss.Worker} {ids : List String}

/-- An event of the MOSS worker carries its id in one field. -/
theorem Proper.of_id {n id : String} {fields : List (String × Json)}
    (hrid : fields.lookup "request_id" = none) (hexit : n ≠ "_worker_exit")
    (hstatus : fields.lookup "status" = none ∨ fields.lookup "status" = some (.int 409))
    (hends : n ∈ ["done", "cancelled", "error"] → id ∈ ids ∧ id ≠ "") :
    Proper ids (event n (("id", .str id) :: fields)) := by
  have hr : rid (event n (("id", .str id) :: fields)) = some (.str id) := by
    have hnone : (event n (("id", .str id) :: fields)).field? "request_id" = none := hrid
    rw [rid, hnone]
    rfl
  have hname : name (event n (("id", .str id) :: fields)) = some n := rfl
  exact .of_rid hr hname hexit hstatus fun hterm => hends (by simpa using hterm)

/-- What a request writes carries its id. -/
theorem moss_handle_proper {item : Json} {id : String} {t0 : Int} {cancelled : Bool}
    {free : Option Nat} {a : Moss.Answer} {phase next : Moss.Phase} {e : Json}
    (h : Moss.handle c item id t0 cancelled free a phase = some (next, .emit e))
    (hid : id ∈ ids) (hne : id ≠ "") : Proper ids e := by
  cases phase with
  | conclude ending =>
      have he : e = ending.event id t0 := by
        simp only [Moss.handle] at h
        split at h <;> cases h <;> rfl
      subst he
      cases ending with
      | beforeStart | cancelled | done => exact .of_id rfl (by decide) (.inl rfl) fun _ => ⟨hid, hne⟩
  | report | announce =>
      cases h
      exact .of_id rfl (by decide) (.inl rfl) fun _ => ⟨hid, hne⟩
  | chunk g last audio =>
      simp only [Moss.handle] at h
      split at h <;> cases h <;> exact .of_id rfl (by decide) (.inl rfl) fun _ => ⟨hid, hne⟩
  | _ =>
      -- The remaining stages write nothing.
      simp only [Moss.handle] at h
      (repeat' split at h) <;> cases h

theorem moss_isCancelLine_iff {item : Json} (hobj : item.isObject = true) :
    Moss.isCancelLine item = .ok true ↔ item.str? "type" = some "cancel" := by
  rw [← Json.valueStr_eq_ok_iff (d := "") (by decide), Moss.isCancelLine, if_pos hobj]
  cases item.valueStr "type" "" with
  | error e => simp [Except.map]
  | ok t => simp [Except.map]

theorem moss_line {item : Json} {id : String} (hw : MossKeeps c w)
    (hid : item.str? "id" = some id) (hne : id ≠ "")
    (hfree : requestId? item ≠ none → w.controls.keys.length < c.maxSlots)
    (hs : (Moss.system c).step w (.line (.ok item)) = some w') :
    MossKeeps c w' ∧ (mossServer c).Moves (requestId? item).toList w w' := by
  have hcontains := Json.contains_of_str? hid
  have hcancel := moss_isCancelLine_iff (Json.isObject_of_contains hcontains)
  have hadmitted : Moss.Admitted c w' := by
    apply hw.admitted.step _ (Moss.step_cases hs)
    simp [Moss.acceptsUnnamed, hcontains]
  simp only [Moss.system, Option.ite_none_right_eq_some, Option.some.injEq] at hs
  obtain ⟨reading, rfl⟩ := hs
  simp only [Moss.readLine, Json.valueStr_of_str? _ hid] at hadmitted ⊢
  by_cases hc : Moss.isCancelLine item = .ok true
  · simp only [hc] at hadmitted ⊢
    obtain ⟨-, -, hcontrols, -, hout⟩ := Moss.trip_frame id reading
    refine ⟨⟨hadmitted, hcontrols ▸ hw.named⟩, .silent (congrArg (List.map _) hout) ?_⟩
    change (Moss.trip w id).controls.keys.Subperm _
    rw [hcontrols]
    exact (List.sublist_append_right _ _).subperm
  · have hnew : requestId? item = some id := by
      rw [requestId?, if_neg (hcancel.not.mp hc), hid]
    have hmem : id ∈ (requestId? item).toList ++ w.controls.keys := by simp [hnew]
    have hkept : w.controls.keys.Subperm ((requestId? item).toList ++ w.controls.keys) :=
      (List.sublist_append_right _ _).subperm
    cases hcase : Moss.isCancelLine item with
    | error e =>
        simp only [hcase] at hadmitted ⊢
        refine ⟨⟨hadmitted, hw.named⟩, .writes List.map_append ?_ hkept⟩
        exact .of_id rfl (by decide) (.inl rfl) fun _ => ⟨hmem, hne⟩
    | ok isCancel =>
        obtain rfl : isCancel = false := by
          cases isCancel with
          | false => rfl
          | true => exact absurd hcase hc
        simp only [hcase, Moss.accept] at hadmitted ⊢
        split
        · rename_i hdup
          rw [if_pos hdup] at hadmitted
          refine ⟨⟨hadmitted, hw.named⟩, .writes List.map_append ?_ hkept⟩
          exact .of_id rfl (by decide) (.inr rfl) fun _ => ⟨hmem, hne⟩
        · rename_i hfresh
          rw [if_neg hfresh] at hadmitted
          have hroom : ¬ c.maxSlots ≤ w.controls.size := by
            have hlt := hfree (by simp [hnew])
            simpa [Table.size, AList.keys, List.keys] using hlt
          rw [if_neg hroom] at hadmitted ⊢
          have hkeys : (Moss.register w id item).controls.keys = id :: w.controls.keys.erase id :=
            AList.keys_insert _
          have hsub : (id :: w.controls.keys.erase id).Sublist (id :: w.controls.keys) :=
            List.erase_sublist.cons_cons _
          refine ⟨⟨hadmitted, ?_⟩, .silent rfl ?_⟩
          · rw [hkeys]
            intro hempty
            rcases List.mem_cons.mp (hsub.subset hempty) with hempty | hempty
            · exact hne hempty.symm
            · exact hw.named hempty
          · change (Moss.register w id item).controls.keys.Subperm _
            rw [hkeys, hnew]
            exact hsub.subperm

/-- A request in progress is in the controls. -/
theorem moss_id_mem (ha : Moss.Admitted c w) {task : Moss.Task} (ht : task ∈ w.pending) :
    task.id ∈ w.controls.keys := by
  have hentry : task.entry ∈ w.controls.entries :=
    ha.entries.mem_iff.mpr (List.mem_map_of_mem ht)
  exact List.mem_keys_of_mem hentry

theorem moss_own {l : Moss.Label} (hw : MossKeeps c w) (hl : (mossServer c).own l = true)
    (hs : (Moss.system c).step w l = some w') : MossKeeps c w' ∧ (mossServer c).Moves [] w w' := by
  have hstep := Moss.step_cases hs
  have hadmitted : Moss.Admitted c w' := by
    apply hw.admitted.step _ hstep
    cases l with
    | line | eof => cases hl
    | main | thread => rfl
  have hquiet (hcontrols : w'.controls = w.controls) (hout : w'.out = w.out) :
      MossKeeps c w' ∧ (mossServer c).Moves [] w w' := by
    refine ⟨⟨hadmitted, hcontrols ▸ hw.named⟩, .silent (congrArg (List.map _) hout) ?_⟩
    change w'.controls.keys.Subperm _
    rw [hcontrols]
    exact .refl _
  cases hstep with
  | refuse | trip | enrol | eof => cases hl
  | enqueue | join | pickUp | exit => exact hquiet rfl rfl
  | @ack id tripped hm =>
      refine ⟨⟨hadmitted, hw.named⟩, .writes List.map_append ?_ (.refl _)⟩
      exact .of_id rfl (by decide) (.inl rfl) (by simp)
  | @finish i a task id t0 hi =>
      obtain ⟨-, hcontrols⟩ := hw.admitted.finish hi
      have hsub : (w.controls.erase task.id).keys.Sublist w.controls.keys := by
        rw [AList.keys_erase]
        exact List.erase_sublist
      have hout := (Moss.unregister_frame w id task.control).2.2.2
      refine ⟨⟨hadmitted, ?_⟩, .silent (congrArg (List.map _) hout) ?_⟩
      · intro hempty
        exact hw.named (hsub.subset (hcontrols ▸ hempty))
      · exact (hcontrols ▸ hsub).subperm
  | @handle i a task id t0 phase next effect hi hh =>
      cases effect with
      | emit e =>
          have hpending : task ∈ w.pending :=
            (Moss.pending_finish hi).mem_iff.mpr List.mem_cons_self
          have hid := hw.admitted.running hi
          have hmem : id ∈ w.controls.keys := hid ▸ moss_id_mem hw.admitted hpending
          refine ⟨⟨hadmitted, hw.named⟩, .writes List.map_append ?_ (.refl _)⟩
          apply moss_handle_proper hh hmem
          rintro rfl
          exact hw.named hmem
      | _ => exact hquiet rfl rfl

theorem moss_lawful (c : Moss.Config) : (mossServer c).Lawful (MossKeeps c) where
  start := ⟨.init c, List.not_mem_nil⟩
  out_start := rfl
  placed_start := rfl
  own := moss_own
  line := moss_line

end Moss

section Qwen3

/-- The id of a request that carries one. -/
def workId (work : Tts.Work) : String := (work.item.str? "id").getD ""

/-- The Qwen3-TTS worker; a request holds a place while a slot is claimed for it. -/
def qwen3Server (c : Tts.Qwen3.Config) (maxSlots : Nat) : Server where
  State := Tts.Worker (Tts.Qwen3.engine c)
  Label := Tts.Label (Tts.Qwen3.engine c)
  system := Tts.slotSystem (Tts.Qwen3.engine c) maxSlots
  line item := .line (.ok item)
  own
    | .main | .slot _ _ => true
    | _ => false
  out w := w.out.map (·.2)
  placed w := (List.range maxSlots).flatMap fun i => (w.requests i).map workId
  capacity := maxSlots

/-- Every slot has its flag and its thread, the requests have ids, and none has
been refused. -/
structure Qwen3Keeps (c : Tts.Qwen3.Config) (maxSlots : Nat)
    (w : Tts.Worker (Tts.Qwen3.engine c)) : Prop where
  tended : Tts.Tended w
  housed : Tts.Housed w
  inUse : w.pool.inUse.length = maxSlots
  slots : w.slots.length = maxSlots
  named : ∀ {i work}, work ∈ w.requests i → workId work ≠ ""
  accepted : ∀ id, w.main ≠ .reject id

variable {c : Tts.Qwen3.Config} {maxSlots : Nat} {w w' : Tts.Worker (Tts.Qwen3.engine c)}
  {ids : List String}

/-- An event of the Qwen3-TTS worker carries its id in two fields. -/
theorem Proper.of_tag {e : Json} {id n : String} (hrequest : e.field? "request_id" = some (.str id))
    (hid : e.field? "id" = some (.str id)) (hn : name e = some n) (hexit : n ≠ "_worker_exit")
    (hstatus : e.field? "status" = none ∨ e.field? "status" = some (.int 409))
    (hends : isTerminal e = true → id ∈ ids ∧ id ≠ "") : Proper ids e := by
  have hr : rid e = some (.str id) := by
    simp only [rid, hrequest, hid]
    split <;> rfl
  exact .of_rid hr hn hexit hstatus hends

theorem qwen3_report_proper {id : String} {o : Tts.Qwen3.Options} {report : Tts.Qwen3.Report}
    (hid : id ∈ ids) (hne : id ≠ "") : Proper ids (report.event c id o) := by
  cases report with
  | chunk | failed => exact .of_tag rfl rfl rfl (by decide) (.inl rfl) fun _ => ⟨hid, hne⟩

/-- What a request writes carries its id. -/
theorem qwen3_step_proper {item : Json} {id : String} {cancelled : Bool}
    {input : Tts.Qwen3.Input} {st next : Tts.Qwen3.State} {e : Json}
    (h : Tts.Qwen3.step c item id cancelled input st = some (next, .emit e))
    (hid : id ∈ ids) (hne : id ≠ "") : Proper ids e := by
  cases input with
  | request a =>
      rcases Tts.Qwen3.requestStep_emit h with ⟨report, o, rfl⟩ | ⟨ending, t, -, rfl, -⟩
      · exact qwen3_report_proper hid hne
      · cases ending with
        | cancelled | failed | done | error =>
            exact .of_tag rfl rfl rfl (by decide) (.inl rfl) fun _ => ⟨hid, hne⟩
  | vocoder outcome =>
      obtain ⟨report, o, rfl⟩ := Tts.Qwen3.vocoderStep_emit h
      exact qwen3_report_proper hid hne

/-- The request line that makes a place be taken. -/
def newIds : Tts.Label (Tts.Qwen3.engine c) → List String
  | .line (.ok item) => [(item.str? "id").getD ""]
  | _ => []

/-- A step takes at most one place, for the line it reads. -/
theorem qwen3_placed (maxSlots : Nat) {l : Tts.Label (Tts.Qwen3.engine c)} (h : Tts.Step w l w') :
    ((qwen3Server c maxSlots).placed w').Subperm (newIds l ++ (qwen3Server c maxSlots).placed w) := by
  have hkept (hsub : ∀ i, (w'.requests i).Sublist (w.requests i)) :
      ((qwen3Server c maxSlots).placed w').Subperm
        (newIds l ++ (qwen3Server c maxSlots).placed w) := by
    apply List.Sublist.subperm
    apply List.Sublist.trans _ (List.sublist_append_right _ _)
    exact List.Sublist.flatMap_right _ fun i _ => (hsub i).map workId
  cases h.requests with
  | keep hr => exact hkept fun i => hr i ▸ .refl _
  | @claim item id i hl hm hid hfree hr =>
      subst hl
      apply flatMap_range_subperm (k := i)
      intro j
      rw [hr j, List.map_append]
      split <;> rfl
  | @release i s work id hi hs hr hother =>
      apply hkept
      intro j
      by_cases hj : j = i
      · subst hj
        rw [hr]
        exact List.sublist_cons_self _ _
      · exact hother j hj ▸ .refl _

/-- A request on a slot was there before the step, or comes from the line it reads. -/
theorem qwen3_origin {l : Tts.Label (Tts.Qwen3.engine c)} (h : Tts.Step w l w') {i : Nat}
    {work : Tts.Work} (hm : work ∈ w'.requests i) :
    work ∈ w.requests i ∨ workId work ∈ newIds l := by
  cases h.requests with
  | keep hr => exact .inl (hr i ▸ hm)
  | @claim item id k hl _ hid hfree hr =>
      subst hl
      rw [hr i] at hm
      rcases List.mem_append.mp hm with hm | hm
      · exact .inl hm
      · split at hm
        · rw [List.mem_singleton.mp hm]
          exact .inr (List.mem_singleton_self _)
        · cases hm
  | @release k s work' id hi hs hr hother =>
      by_cases hik : i = k
      · subst hik
        exact .inl (hr ▸ List.mem_cons_of_mem _ hm)
      · exact .inl (hother i hik ▸ hm)

theorem qwen3_keeps {l : Tts.Label (Tts.Qwen3.engine c)} (hw : Qwen3Keeps c maxSlots w)
    (h : Tts.Step w l w') (hnew : "" ∉ newIds l) (haccepted : ∀ id, w'.main ≠ .reject id) :
    Qwen3Keeps c maxSlots w' where
  tended := hw.tended.step h
  housed := hw.housed.step h
  inUse := by
    cases h.requests with
    | keep _ hp => rw [hp, hw.inUse]
    | claim _ _ _ _ _ hp => rw [hp, List.length_set, hw.inUse]
    | release _ _ _ _ hp => rw [hp, List.length_set, hw.inUse]
  slots := h.slots_length.trans hw.slots
  named hm := by
    rcases qwen3_origin h hm with hm | hm
    · exact hw.named hm
    · intro hempty
      exact hnew (hempty ▸ hm)
  accepted := haccepted

/-- With fewer requests on the slots than slots, one is free. -/
theorem qwen3_free (hw : Qwen3Keeps c maxSlots w)
    (hlt : ((qwen3Server c maxSlots).placed w).length < maxSlots) : w.pool.acquireFree ≠ none := by
  intro hfull
  have htaken (i : Nat) (hi : i ∈ List.range maxSlots) :
      1 ≤ ((w.requests i).map workId).length := by
    have hlen : i < w.pool.inUse.length := by simpa [hw.inUse] using hi
    have huse : w.pool.inUse[i]? = some true := by
      rw [List.getElem?_eq_getElem hlen, Tts.SlotPool.acquireFree_none hfull _ (List.getElem_mem hlen)]
    rw [List.length_map]
    exact List.length_pos_iff.mpr (hw.housed.taken huse)
  have hsum : maxSlots ≤ ((List.range maxSlots).flatMap fun i => (w.requests i).map workId).length := by
    rw [List.length_flatMap]
    refine le_trans ?_ (List.length_le_sum_of_one_le _ ?_)
    · rw [List.length_map, List.length_range]
    · intro n hn
      obtain ⟨i, hi, rfl⟩ := List.mem_map.mp hn
      exact htaken i hi
  exact absurd hlt (Nat.not_lt.mpr hsum)

theorem slot_isCancelLine_iff {item : Json} (hobj : item.isObject = true) :
    Tts.isCancelLine item = some true ↔ item.str? "type" = some "cancel" := by
  rw [← Json.valueStr_eq_ok_iff (d := "") (by decide), Tts.isCancelLine, if_pos hobj]
  cases item.valueStr "type" "" with
  | error e => simp [Except.toOption]
  | ok t => simp [Except.toOption]

theorem qwen3_workId {work : Tts.Work} {id : String} (hid : work.item.valueStr "id" "" = .ok id)
    (hne : workId work ≠ "") : workId work = id := by
  have hcontains : work.item.contains "id" = true := by
    by_contra hno
    apply hne
    cases hs : work.item.str? "id" with
    | none => rw [workId, hs, Option.getD_none]
    | some id' => exact absurd (Json.contains_of_str? hs) hno
  rw [workId, Json.str?_of_valueStr hid hcontains, Option.getD_some]

theorem qwen3_line {item : Json} {id : String} (hw : Qwen3Keeps c maxSlots w)
    (hid : item.str? "id" = some id) (hne : id ≠ "")
    (hfree : requestId? item ≠ none → ((qwen3Server c maxSlots).placed w).length < maxSlots)
    (hs : (Tts.slotSystem (Tts.Qwen3.engine c) maxSlots).step w (.line (.ok item)) = some w') :
    Qwen3Keeps c maxSlots w' ∧
      (qwen3Server c maxSlots).Moves (requestId? item).toList w w' := by
  have hcancel := slot_isCancelLine_iff (Json.isObject_of_contains (Json.contains_of_str? hid))
  have hstep := Tts.step_cases hs
  have hplaced := qwen3_placed maxSlots hstep
  have hkeeps := qwen3_keeps hw hstep (by simpa [newIds, hid] using hne.symm)
  have hrequest (hc : Tts.isCancelLine item = some false) : requestId? item = some id := by
    rw [requestId?, if_neg (hcancel.not.mp (by simp [hc])), hid]
  have hkept (hr : ∀ j, w'.requests j = w.requests j) :
      ((qwen3Server c maxSlots).placed w').Subperm
        ((requestId? item).toList ++ (qwen3Server c maxSlots).placed w) := by
    apply List.Sublist.subperm
    apply List.Sublist.trans _ (List.sublist_append_right _ _)
    exact List.Sublist.flatMap_right _ fun i _ => hr i ▸ .refl _
  cases hstep with
  | miss reading =>
      refine ⟨hkeeps (by simp), .silent rfl (hkept fun j => ?_)⟩
      exact Tts.Worker.requests_congr rfl (by rw [reading]; rfl)
  | trip reading _ _ _ hi =>
      refine ⟨hkeeps (by simp), .silent rfl (hkept fun j => ?_)⟩
      exact Tts.Worker.requests_setSlot hi rfl (by rw [reading]; rfl) rfl
  | saturated reading hc _ full =>
      exact absurd full (qwen3_free hw (hfree (by simp [hrequest hc])))
  | claim reading hc _ free =>
      refine ⟨hkeeps (by simp), .silent rfl ?_⟩
      simpa [newIds, hid, hrequest hc] using hplaced

theorem qwen3_own {l : Tts.Label (Tts.Qwen3.engine c)} (hw : Qwen3Keeps c maxSlots w)
    (hl : (qwen3Server c maxSlots).own l = true)
    (hs : (Tts.slotSystem (Tts.Qwen3.engine c) maxSlots).step w l = some w') :
    Qwen3Keeps c maxSlots w' ∧ (qwen3Server c maxSlots).Moves [] w w' := by
  have hstep := Tts.step_cases hs
  have hnew : newIds l = [] := by
    cases l with
    | line | eof => cases hl
    | main | slot => rfl
  have hplaced := qwen3_placed maxSlots hstep
  rw [hnew] at hplaced
  have hkeeps := qwen3_keeps hw hstep (by simp [hnew])
  cases hstep with
  | answer | miss | trip | saturated | claim | eof => cases hl
  | @ack id tripped hm =>
      refine ⟨hkeeps (by simp), .writes List.map_append ?_ hplaced⟩
      refine .of_tag rfl rfl rfl (by decide) (.inl rfl) ?_
      simp [Tts.cancelAck]
  | reject hm => exact absurd hm (hw.accepted _)
  | bind | enqueue | shutdown | stopped | join => exact ⟨hkeeps (by simp), .silent rfl hplaced⟩
  | @engine i input s work id state next action hi ht hf hstep =>
      cases action with
      | emit e =>
          refine ⟨hkeeps hw.accepted, .writes List.map_append ?_ hplaced⟩
          have hthread : s.thread.work? = some (work, id) := by
            rw [ht]
            rfl
          have hwork := Tts.Worker.mem_requests hi hthread
          have hid := qwen3_workId ((hw.tended.fit hi).named hthread) (hw.named hwork)
          have hmem : id ∈ (qwen3Server c maxSlots).placed w := by
            apply List.mem_flatMap.mpr
            refine ⟨i, List.mem_range.mpr (hw.slots ▸ lt_of_getElem? hi), ?_⟩
            exact hid ▸ List.mem_map_of_mem hwork
          exact qwen3_step_proper hstep hmem (hid ▸ hw.named hwork)
      | none | raise | note => exact ⟨hkeeps hw.accepted, .silent rfl hplaced⟩
  | pickUp | exit | arm | register | leave | unregister | clean | release =>
      exact ⟨hkeeps hw.accepted, .silent rfl hplaced⟩

theorem qwen3_lawful (c : Tts.Qwen3.Config) (maxSlots : Nat) :
    (qwen3Server c maxSlots).Lawful (Qwen3Keeps c maxSlots) where
  start := by
    refine ⟨.init _ _, .init _ _, List.length_replicate, List.length_replicate, ?_, ?_⟩
    · intro i work hm
      have hnone := Tts.Housed.requests_init (Tts.Qwen3.engine c) maxSlots i
      have hm' : work ∈ (Tts.Worker.init (Tts.Qwen3.engine c) maxSlots).requests i := hm
      rw [hnone] at hm'
      cases hm'
    · intro id hrejected
      cases hrejected
  out_start := rfl
  placed_start := by
    apply List.flatMap_eq_nil_iff.mpr
    intro i _
    exact congrArg (List.map workId) (Tts.Housed.requests_init (Tts.Qwen3.engine c) maxSlots i)
  own := qwen3_own
  line := qwen3_line

end Qwen3

/-- While no request line is read when more than the spare places are held by
requests whose terminal event is out, neither worker refuses a request of its
only client, as long as it has a place for each permit of the client. -/
theorem client_never_refused {concurrency : Int} :
    (∀ (c : Tts.Qwen3.Config) (maxSlots : Nat), 0 < maxSlots → concurrency ≤ maxSlots →
      ∀ s, (roomySystem (qwen3Server c maxSlots) concurrency).Reachable s →
        ∀ e ∈ (qwen3Server c maxSlots).out s.worker, saturated e = false) ∧
    (∀ c : Moss.Config, concurrency ≤ c.maxSlots →
      ∀ s, (roomySystem (mossServer c) concurrency).Reachable s →
        ∀ e ∈ (mossServer c).out s.worker, saturated e = false) := by
  constructor
  · intro c maxSlots hpos hC s h
    exact unsaturated_of_lawful (qwen3_lawful c maxSlots) hpos hC h
  · intro c hC s h
    exact unsaturated_of_lawful (moss_lawful c) c.maxSlots_pos hC h

section Runs
variable {V : Server}

/-- A request whose text is no string, up to the wait for its first event. -/
def call (i : Nat) (id : String) : List (Link.Label V) :=
  .client (.sendRequest id (.obj [("text", .int 1)])) :: (begin i).map .client

/-- A request is given an error, is left and gives its permit back. -/
def leave (i : Nat) : List (Link.Label V) :=
  ([.reader, .reader, .task i true, .cancel i, .task i true, .task i true] :
    List WorkerIO.Label).map .client

def smallConfig : Tts.Qwen3.Config := ⟨true, 24000⟩

/-- The only slot takes a request and refuses its text. -/
def refuseText : List (Link.Label (qwen3Server smallConfig 1)) :=
  ([.main, .main, .slot 0 none, .slot 0 none, .slot 0 none, .slot 0 (some (.request .ok)),
    .slot 0 (some (.request (.clock 0)))] : List (Tts.Label (Tts.Qwen3.engine smallConfig))).map
      .worker

/-- The slot is given back. -/
def giveBack : List (Link.Label (qwen3Server smallConfig 1)) :=
  List.replicate 4 (.worker (.slot 0 none))

/-- The only thread takes a request and refuses its text. -/
def mossRefuseText : List (Link.Label (mossServer Moss.oneSlot)) :=
  ([.main, .thread 0 {}, .thread 0 {}, .thread 0 {}] : List Moss.Label).map .worker

/-- A request line arrives when the place of the request before it is given
back, and neither worker refuses it. -/
theorem client_not_refused_after_release :
    (∃ s, (roomySystem (qwen3Server smallConfig 1) 1).Reachable s ∧ s.received = 2 ∧
      ∀ e ∈ (qwen3Server smallConfig 1).out s.worker, saturated e = false) ∧
    (∃ s, (roomySystem (mossServer Moss.oneSlot) 1).Reachable s ∧ s.received = 2 ∧
      ∀ e ∈ (mossServer Moss.oneSlot).out s.worker, saturated e = false) := by
  constructor
  · obtain ⟨s, hr, hread⟩ := exists_reachable (T := roomySystem (qwen3Server smallConfig 1) 1)
      (fun s => s.received = 2)
      (call 0 "a" ++ [.deliver] ++ refuseText ++ giveBack ++ leave 0 ++ call 1 "b" ++ [.deliver]) rfl
    exact ⟨s, hr, hread, client_never_refused.1 smallConfig 1 (by decide) (by decide) s hr⟩
  · obtain ⟨s, hr, hread⟩ := exists_reachable (T := roomySystem (mossServer Moss.oneSlot) 1)
      (fun s => s.received = 2)
      (call 0 "a" ++ [.deliver] ++ mossRefuseText ++ [.worker (.thread 0 {})] ++ leave 0 ++
        call 1 "b" ++ [.deliver]) rfl
    exact ⟨s, hr, hread, client_never_refused.2 Moss.oneSlot (by decide) s hr⟩

/-- A client with one permit and a worker with one place: the second request
arrives after the error of the first one and before its place is given back, and
is refused. -/
theorem client_refused :
    (∃ s, (contractSystem (qwen3Server smallConfig 1) 1).Reachable s ∧
      ∃ e ∈ (qwen3Server smallConfig 1).out s.worker, saturated e = true ∧ key e = some "b") ∧
    (∃ s, (contractSystem (mossServer Moss.oneSlot) 1).Reachable s ∧
      ∃ e ∈ (mossServer Moss.oneSlot).out s.worker, saturated e = true ∧ key e = some "b") := by
  constructor
  · exact exists_reachable (fun s : Link (qwen3Server smallConfig 1) =>
      ∃ e ∈ (qwen3Server smallConfig 1).out s.worker, saturated e = true ∧ key e = some "b")
      (call 0 "a" ++ [.deliver] ++ refuseText ++ leave 0 ++ call 1 "b" ++ [.deliver, .worker .main])
      rfl
  · exact exists_reachable (fun s : Link (mossServer Moss.oneSlot) =>
      ∃ e ∈ (mossServer Moss.oneSlot).out s.worker, saturated e = true ∧ key e = some "b")
      (call 0 "a" ++ [.deliver] ++ mossRefuseText ++ leave 0 ++ call 1 "b" ++ [.deliver]) rfl

end Runs

end JetsonVoice.Composition
