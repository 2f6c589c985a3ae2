import JetsonVoice.Foundation.Regrouping
import JetsonVoice.Tts.Qwen3Trace

/-!
# The chunks of a Qwen3-TTS request

The runtime calls back with frames of its own chunk size; the worker puts later
ones together to chunks of another size. What it delivers is the regrouping of
what it was called back with.
-/

namespace JetsonVoice.Tts.Qwen3

open Foundation TransitionSystem

/-- The size later chunks are put together to, unless every chunk is relayed. -/
def Options.steady (o : Options) : Option Int :=
  if o.subsequentChunkFrames > o.firstChunkFrames then some o.subsequentChunkFrames else none

/-- The buffer is emptied when the callback returns. -/
def Control.clears : Control → Bool
  | .vocoding _ clear | .emitting _ clear => clear
  | _ => false

/-- The aggregation of a request; what is about to be emptied is no longer kept back. -/
def State.regroup (st : State) : Regroup Frame where
  started := st.firstChunkDelivered
  buffer := if st.control.clears then [] else st.aggBuffer

/-- The chunk delivered for a group of frames. -/
def State.jobOf (st : State) (isFinal : Bool) (frames : List Frame) : VocodeJob :=
  ⟨frames, isFinal, st.chunkIndex⟩

/-- What a callback does with the group of frames it passes on, if any. -/
structure Delivers (c : Config) (st : State) (r : Regroup Frame) (job : Option VocodeJob)
    (next : State) : Prop where
  regroup : next.regroup = r
  chunkIndex : next.chunkIndex = st.chunkIndex + job.toList.length
  delivered : st.deliveredTo next = job.toList
  options : next.options = st.options
  vocodeError : next.vocodeError = st.vocodeError
  vocoder : next.vocoder = st.vocoder
  queue : next.vocodeQ = st.vocodeQ ++ if c.useAsyncVocode then (job.map some).toList else []
  control : next.control = .generating ∧ (c.useAsyncVocode = true ∨ job = none) ∨
    c.useAsyncVocode = false ∧ ∃ j clear, job = some j ∧ next.control = .vocoding j clear

section Callbacks
variable {c : Config} {st : State} {o : Options}

theorem delivers_deliverChunk (st : State) {s : State} (hc : s.control = .generating)
    (hi : s.chunkIndex = st.chunkIndex) (ho : s.options = st.options)
    (he : s.vocodeError = st.vocodeError) (hv : s.vocoder = st.vocoder)
    (hq : s.vocodeQ = st.vocodeQ) (frames : List Frame) (isFinal clear : Bool) :
    Delivers c st ⟨s.firstChunkDelivered, if clear then [] else s.aggBuffer⟩
      (some (st.jobOf isFinal frames)) (s.deliverChunk c frames isFinal clear) := by
  by_cases ha : c.useAsyncVocode = true
  · have hd : s.deliverChunk c frames isFinal clear = { s with
        chunkIndex := s.chunkIndex + 1
        vocodeQ := s.vocodeQ ++ [some ⟨frames, isFinal, s.chunkIndex⟩]
        aggBuffer := if clear then [] else s.aggBuffer } := by
      rw [State.deliverChunk, if_pos ha]
    rw [hd]
    constructor
    · cases clear <;> simp [State.regroup, hc, Control.clears]
    · simp [hi]
    · simp [State.deliveredTo, hi, hc, State.jobOf]
    · exact ho
    · exact he
    · exact hv
    · simp [hq, ha, State.jobOf, hi]
    · exact .inl ⟨hc, .inl ha⟩
  · have hd : s.deliverChunk c frames isFinal clear = { s with
        chunkIndex := s.chunkIndex + 1
        control := .vocoding ⟨frames, isFinal, s.chunkIndex⟩ clear } := by
      rw [State.deliverChunk, if_neg ha]
    rw [hd]
    constructor
    · cases clear <;> simp [State.regroup, Control.clears]
    · simp [hi]
    · simp [State.deliveredTo, hi, State.jobOf]
    · exact ho
    · exact he
    · exact hv
    · simp [hq, ha]
    · exact .inr ⟨by simpa using ha, _, clear, rfl, by simp [State.jobOf, hi]⟩

/-- The callback regroups the frames. -/
theorem onChunkReady_feed (hc : st.control = .generating) (codes : List Frame) (isFinal : Bool) :
    Delivers c st (st.regroup.feed o.steady codes isFinal).1
      ((st.regroup.feed o.steady codes isFinal).2.map (st.jobOf isFinal))
      (st.onChunkReady c o codes isFinal) := by
  have hr : st.regroup = ⟨st.firstChunkDelivered, st.aggBuffer⟩ := by
    simp [State.regroup, hc, Control.clears]
  rw [hr]
  by_cases hk : o.subsequentChunkFrames > o.firstChunkFrames
  · rw [State.onChunkReady, if_pos hk, Options.steady, if_pos hk]
    by_cases hfirst : st.firstChunkDelivered = true
    · have hd (isFinal) := delivers_deliverChunk (c := c) st
        (s := { st with aggBuffer := st.aggBuffer ++ codes })
        hc rfl rfl rfl rfl rfl (st.aggBuffer ++ codes) isFinal true
      rw [if_pos hfirst]
      by_cases hlast : isFinal = true
      · rw [Regroup.feed_full hfirst (.inl hlast)]
        subst hlast
        exact hd true
      · dsimp only
        rw [Bool.not_eq_true] at hlast
        subst hlast
        by_cases hsize : o.subsequentChunkFrames ≤ (st.aggBuffer ++ codes).length
        · rw [Regroup.feed_full hfirst (.inr hsize), if_neg Bool.false_ne_true, if_pos hsize]
          exact hd false
        · rw [Regroup.feed_keep hfirst (by simpa using hsize), if_neg Bool.false_ne_true,
            if_neg hsize]
          constructor
          · simp [State.regroup, hc, Control.clears]
          · simp
          · simp [State.deliveredTo]
          · rfl
          · rfl
          · rfl
          · simp
          · exact .inl ⟨hc, .inr rfl⟩
    · rw [if_neg hfirst, Regroup.feed_first (Bool.not_eq_true _ ▸ hfirst)]
      exact delivers_deliverChunk st (s := { st with firstChunkDelivered := true })
        hc rfl rfl rfl rfl rfl codes isFinal false
  · rw [State.onChunkReady, if_neg hk, Options.steady, if_neg hk, Regroup.feed_none]
    exact delivers_deliverChunk st hc rfl rfl rfl rfl rfl codes isFinal false

end Callbacks

/-- The chunks for a list of groups, with their indices. -/
def numbered (groups : List (List Frame × Bool)) : List VocodeJob :=
  groups.mapIdx fun i g => ⟨g.1, g.2, i⟩

theorem numbered_snoc (groups : List (List Frame × Bool)) (g : List Frame × Bool) :
    numbered (groups ++ [g]) = numbered groups ++ [⟨g.1, g.2, groups.length⟩] :=
  List.mapIdx_concat

@[simp]
theorem numbered_length (groups : List (List Frame × Bool)) :
    (numbered groups).length = groups.length :=
  List.length_mapIdx

theorem numbered_groups (groups : List (List Frame × Bool)) :
    (numbered groups).map (fun job => (job.frames, job.isFinal)) = groups := by
  apply List.ext_getElem
  · simp
  · intro i _ _
    simp [numbered]

theorem numbered_chunkIndex (groups : List (List Frame × Bool)) :
    (numbered groups).map VocodeJob.chunkIndex = List.range groups.length := by
  apply List.ext_getElem
  · simp
  · intro i _ _
    simp [numbered]

theorem numbered_frames (groups : List (List Frame × Bool)) :
    (numbered groups).flatMap VocodeJob.frames = groups.flatMap Prod.fst := by
  conv_rhs => rw [← numbered_groups groups, List.flatMap_map]

theorem numbered_isFinal (groups : List (List Frame × Bool)) :
    (numbered groups).map VocodeJob.isFinal = groups.map Prod.snd := by
  conv_rhs => rw [← numbered_groups groups, List.map_map]
  rfl

/-- The chunks delivered are the frames called back, regrouped. -/
structure Grouped (steady : Option Int) (t : Trace) : Prop where
  delivered : t.delivered = numbered (Regroup.run steady t.callbacks).2
  chunkIndex : t.st.chunkIndex = t.delivered.length
  regroup : t.st.control = .building ∨ t.st.control.rendering = true →
    t.st.regroup = (Regroup.run steady t.callbacks).1

theorem settle_chunkIndex (st : State) (exit : Exit) :
    (st.settle exit).chunkIndex = st.chunkIndex := by
  cases exit with
  | returned => simp only [State.settle]; split <;> rfl
  | threw => rfl

theorem drain_chunkIndex (st : State) (exit : Exit) : (st.drain exit).chunkIndex = st.chunkIndex := by
  rw [State.drain]
  split
  · exact settle_chunkIndex st exit
  · rfl

/-- Once the runtime is out of the way nothing is rendered any more. -/
theorem settle_rendering (st : State) (exit : Exit) :
    ¬ ((st.settle exit).control = .building ∨ (st.settle exit).control.rendering = true) := by
  rcases settle_cases st exit with ⟨ok, n, hc⟩ | ⟨ending, hc⟩
  all_goals simp [hc, Control.rendering]

theorem drain_rendering (st : State) (exit : Exit) :
    ¬ ((st.drain exit).control = .building ∨ (st.drain exit).control.rendering = true) := by
  rw [State.drain]
  split
  · exact settle_rendering st exit
  · simp [Control.rendering]

section Grouped
variable {c : Config} {item : Json} {id : String} {o : Options} {steady : Option Int} {t : Trace}

/-- A turn without a callback delivers nothing. -/
theorem Grouped.quiet {input : Input} {next : State} (hg : Grouped steady t)
    (hcalled : t.st.called input = []) (hindex : next.chunkIndex = t.st.chunkIndex)
    (hregroup : next.control = .building ∨ next.control.rendering = true →
      (t.st.control = .building ∨ t.st.control.rendering = true) ∧ next.regroup = t.st.regroup) :
    Grouped steady (t.extend input next) where
  delivered := by simp [Trace.extend, hcalled, State.deliveredTo, hindex, hg.delivered]
  chunkIndex := by simp [Trace.extend, State.deliveredTo, hindex, hg.chunkIndex]
  regroup := by
    intro hr
    obtain ⟨hr, he⟩ := hregroup hr
    simp only [Trace.extend, hcalled, List.append_nil]
    rw [he, hg.regroup hr]

/-- A callback delivers the group it completes. -/
theorem Grouped.called {codes : List Frame} {isFinal : Bool} (hg : Grouped o.steady t)
    (hc : t.st.control = .generating) :
    Grouped o.steady (t.extend (.request (.chunk codes isFinal)) (t.st.onChunkReady c o codes isFinal)) := by
  have hd := onChunkReady_feed (c := c) (o := o) hc codes isFinal
  have hcalled : t.st.called (.request (.chunk codes isFinal)) = [(codes, isFinal)] := by
    rw [State.called, if_pos hc]
  have hr := hg.regroup (.inr (by rw [hc]; rfl))
  rw [hr] at hd
  constructor
  · simp only [Trace.extend, hcalled, hd.delivered, Regroup.run_snoc]
    rw [hg.delivered]
    cases hfeed : ((Regroup.run o.steady t.callbacks).1.feed o.steady codes isFinal).2 with
    | none => simp
    | some group =>
        have hlen : t.st.chunkIndex = (Regroup.run o.steady t.callbacks).2.length := by
          rw [hg.chunkIndex, hg.delivered, numbered_length]
        simp [numbered_snoc, State.jobOf, hlen]
  · simp only [Trace.extend, hd.chunkIndex, hd.delivered, List.length_append, hg.chunkIndex]
  · intro _
    simp only [Trace.extend, hcalled, Regroup.run_snoc, hd.regroup]

theorem drain_options (st : State) (exit : Exit) : (st.drain exit).options = st.options := by
  rw [State.drain]
  split
  · exact settle_options exit
  · rfl

/-- The options are those of the request. -/
theorem Turn.options {st next : State} {input : Input} (h : Turn c item st input next)
    (ho : ∀ o, st.options = some o → buildRequest item = .ok o) :
    ∀ o, next.options = some o → buildRequest item = .ok o := by
  cases h with
  | built _ hbuild =>
      intro o h
      cases h
      exact hbuild
  | left => rwa [drain_options]
  | failed => rwa [drain_options]
  | joined => rwa [settle_options]
  | called hc => rwa [(onChunkReady_feed hc _ _).options]
  | spawned | vocoded | swallowed | reported | poisoned | decided | concluded => exact ho
  | took | ended | decoded | undecoded | wrote => exact ho

theorem called_eq_nil {st : State} {a : Answer}
    (h : ∀ codes isFinal, st.control = .generating → a ≠ .chunk codes isFinal) :
    st.called (.request a) = [] := by
  unfold State.called
  split
  · rename_i codes isFinal heq
    cases heq
    exact if_neg fun hc => h codes isFinal hc rfl
  · rfl

theorem called_eq_nil_of_ne {st : State} {a : Answer} (h : st.control ≠ .generating) :
    st.called (.request a) = [] :=
  called_eq_nil fun _ _ hc => absurd hc h

/-- Every turn keeps the grouping, as long as no callback's exception is swallowed. -/
theorem Turn.grouped {input : Input} {next : State}
    (hsteady : ∀ o, buildRequest item = .ok o → o.steady = steady)
    (hoptions : ∀ o, t.st.options = some o → buildRequest item = .ok o) (hg : Grouped steady t)
    (h : Turn c item t.st input next) (hs : t.st.swallows input = false) :
    Grouped steady (t.extend input next) := by
  cases h with
  | @built _ o' control hc _ hn =>
      apply hg.quiet
      · exact called_eq_nil_of_ne (by simp [hc])
      · rfl
      · intro _
        have hclears : control.clears = false := by
          rw [hn]
          split <;> rfl
        refine ⟨.inl hc, ?_⟩
        simp only [State.regroup, hc, hclears]
        rfl
  | left hc ha =>
      apply hg.quiet
      · exact called_eq_nil ha
      · exact drain_chunkIndex _ _
      · intro hr
        exact absurd hr (drain_rendering _ _)
  | failed hc =>
      apply hg.quiet
      · exact called_eq_nil_of_ne (by simp [hc])
      · exact drain_chunkIndex _ _
      · intro hr
        exact absurd hr (drain_rendering _ _)
  | joined hc =>
      apply hg.quiet
      · exact called_eq_nil_of_ne (by simp [hc])
      · exact settle_chunkIndex _ _
      · intro hr
        exact absurd hr (settle_rendering _ _)
  | called hc ho =>
      obtain rfl := hsteady _ (hoptions _ ho)
      exact hg.called hc
  | spawned hc =>
      apply hg.quiet
      · exact called_eq_nil_of_ne (by simp [hc])
      · rfl
      · intro _
        exact ⟨.inr (by rw [hc]; rfl), by simp [State.regroup, hc, Control.clears]⟩
  | vocoded hc =>
      apply hg.quiet
      · exact called_eq_nil_of_ne (by simp [hc])
      · rfl
      · intro _
        refine ⟨.inr (by rw [hc]; rfl), ?_⟩
        simp only [State.regroup, hc]
        rfl
  | swallowed hc hr => simp [State.swallows, State.throws, hc, hr, Except.isOk, Except.toBool] at hs
  | reported hc =>
      apply hg.quiet
      · exact called_eq_nil_of_ne (by simp [hc])
      · rfl
      · intro _
        exact ⟨.inr (by rw [hc]; rfl),
          by simp [State.regroup, State.callbackReturned, hc, Control.clears]⟩
  | poisoned hc =>
      exact hg.quiet (called_eq_nil_of_ne (by simp [hc])) rfl (by simp [Control.rendering])
  | decided hc =>
      exact hg.quiet (called_eq_nil_of_ne (by simp [hc])) rfl (by simp [Control.rendering])
  | concluded hc =>
      exact hg.quiet (called_eq_nil_of_ne (by simp [hc])) rfl (by simp [Control.rendering])
  | took | ended | decoded | undecoded | wrote => exact hg.quiet rfl rfl fun hr => ⟨hr, rfl⟩

/-- In every run in which no exception of a callback is swallowed, what has been
delivered is what has been called back, regrouped. -/
theorem grouped_of_reachable (hsteady : ∀ o, buildRequest item = .ok o → o.steady = steady)
    (h : (requestSystem c item id).Reachable t) (hs : t.swallowed = false) : Grouped steady t := by
  have inv : (requestSystem c item id).Invariant fun t =>
      (∀ o, t.st.options = some o → buildRequest item = .ok o) ∧
        (t.swallowed = false → Grouped steady t) := by
    apply invariant_of_turns
    · exact ⟨by simp [State.start], fun _ => ⟨rfl, rfl, fun _ => rfl⟩⟩
    · intro t input next hi hturn
      refine ⟨hturn.options hi.1, fun hs => ?_⟩
      obtain ⟨hs, hnow⟩ := Bool.or_eq_false_iff.mp hs
      exact hturn.grouped hsteady hi.1 (hi.2 hs) hnow
  exact (inv.of_reachable h).2 hs

end Grouped

/-- The frames the runtime calls back with are delivered in order, none lost and
none twice, in chunks numbered from 0 of which the last one only is final. Every
callback is one chunk unless later chunks are asked for larger than the first;
then the first callback is the first chunk, and later ones have at least as many
frames as asked for and less than one callback more. -/
theorem frames_conserved {c : Config} {item : Json} {id : String} {o : Options} {t : Trace}
    {blocks : List (List Frame)} {last : List Frame} (ho : buildRequest item = .ok o)
    (h : (requestSystem c item id).Reachable t) (hs : t.swallowed = false)
    (hblocks : ∀ block ∈ blocks, (block.length : Int) = o.firstChunkFrames)
    (ht : t.callbacks = blocks.map (fun block => (block, false)) ++ [(last, true)]) :
    t.delivered.flatMap VocodeJob.frames = blocks.flatten ++ last ∧
      t.delivered.map VocodeJob.isFinal =
        List.replicate (t.delivered.length - 1) false ++ [true] ∧
      t.delivered.map VocodeJob.chunkIndex = List.range t.delivered.length ∧
      (o.subsequentChunkFrames ≤ o.firstChunkFrames →
        t.delivered.map (fun job => (job.frames, job.isFinal)) = t.callbacks) ∧
      (o.firstChunkFrames < o.subsequentChunkFrames →
        (t.delivered.map fun job => (job.frames, job.isFinal)).head? = t.callbacks.head? ∧
          ∀ job ∈ t.delivered.tail, job.isFinal = false →
            o.subsequentChunkFrames ≤ job.frames.length ∧
              (job.frames.length : Int) < o.subsequentChunkFrames + o.firstChunkFrames) := by
  have hsteady : ∀ o', buildRequest item = .ok o' → o'.steady = o.steady := by
    intro o' ho'
    cases ho.symm.trans ho'
    rfl
  have hg := (grouped_of_reachable hsteady h hs).delivered
  obtain ⟨⟨out, hout⟩, hbuffer⟩ :=
    Regroup.run_last o.steady (blocks.map fun block => (block, false)) last
  rw [← ht] at hout hbuffer
  have hgroups : t.delivered.map (fun job => (job.frames, job.isFinal)) =
      (Regroup.run o.steady t.callbacks).2 := by
    rw [hg, numbered_groups]
  refine ⟨?_, ?_, ?_, ?_, ?_⟩
  · have hitems := Regroup.run_items o.steady t.callbacks
    rw [hbuffer, List.append_nil] at hitems
    rw [hg, numbered_frames, hitems, ht]
    simp [List.flatMap_map]
  · have hunmarked : ∀ group ∈ (Regroup.run o.steady (blocks.map fun block => (block, false))).2,
        group.2 = false := Regroup.run_unmarked _ (by simp)
    rw [hg, numbered_isFinal, numbered_length, hout, List.map_append, List.length_append]
    congr 1
    exact List.eq_replicate_iff.mpr ⟨by simp, by simpa using hunmarked⟩
  · rw [hg, numbered_chunkIndex, numbered_length]
  · intro hk
    rw [hgroups, Options.steady, if_neg (by omega), Regroup.run_none]
  · intro hk
    have hsteady : o.steady = some o.subsequentChunkFrames := if_pos hk
    refine ⟨?_, fun job hjob hfinal => ?_⟩
    · rw [hgroups, hsteady]
      exact (Regroup.run_begun _ t.callbacks).head
    · have hmem : (job.frames, job.isFinal) ∈ (Regroup.run o.steady t.callbacks).2.tail := by
        rw [← hgroups, ← List.map_tail]
        exact List.mem_map_of_mem hjob
      rw [hsteady, ht] at hmem
      exact Regroup.run_last_sizes hk (by simpa using hblocks) last _ hmem hfinal

/-- A request for chunks of one frame first and of two frames later. -/
def twoFrames : Json :=
  .obj [("id", .str "a"), ("text", .str "hello"), ("first_chunk_frames", .int 1),
    ("chunk_frames", .int 2)]

theorem frames_conserved_of_callbacks :
    ∃ t, (requestSystem ⟨true, 24000⟩ twoFrames "a").Reachable t ∧
      t.callbacks = [([[1]], false), ([[2]], false), ([[3]], false), ([[4]], false), ([], true)] ∧
      t.delivered.flatMap VocodeJob.frames = [[1], [2], [3], [4]] ∧
      t.delivered.map VocodeJob.isFinal = List.replicate (t.delivered.length - 1) false ++ [true] := by
  obtain ⟨t, h, hs, ht⟩ : ∃ t, (requestSystem ⟨true, 24000⟩ twoFrames "a").Reachable t ∧
      t.swallowed = false ∧
      t.callbacks = [([[1]], false), ([[2]], false), ([[3]], false), ([[4]], false), ([], true)] :=
    ⟨_, reachable_of_run [(false, .request .ok), (false, .request .ok),
      (false, .request (.chunk [[1]] false)), (false, .request (.chunk [[2]] false)),
      (false, .request (.chunk [[3]] false)), (false, .request (.chunk [[4]] false)),
      (false, .request (.chunk [] true))] rfl, rfl, rfl⟩
  have hblocks : t.callbacks =
      [[[1]], [[2]], [[3]], [[4]]].map (fun block => (block, false)) ++ [([], true)] := ht
  have hc := frames_conserved rfl h hs (by decide) hblocks
  exact ⟨t, h, ht, hc.1, hc.2.1⟩

end JetsonVoice.Tts.Qwen3
