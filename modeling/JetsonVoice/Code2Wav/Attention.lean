import JetsonVoice.Code2Wav.CausalConv
import Mathlib.Algebra.Field.Rat
import Mathlib.Algebra.Module.Pi
import Mathlib.Algebra.Order.Monoid.Unbundled.WithTop

/-!
# Streaming sliding-window attention

A query sees the keys of the last `slidingWindow` positions, its own included.
In streaming mode the keys and values of the last `slidingWindow - 1` positions
are carried from one chunk to the next.

## Implementation notes

Scores live in a type of their own, in which the smallest float can absorb what
it is added to. The projections, the rotation by an absolute position and the
exponential are fields of the module.
-/

set_option linter.unusedSectionVars false

namespace JetsonVoice.Code2Wav

open Foundation

structure SlidingWindowAttention (R S X Y : Type*) (kvHeads groups headDim : Nat) where
  slidingWindow : Nat
  qProj : X → Frame R (kvHeads * groups) headDim
  kProj : X → Frame R kvHeads headDim
  vProj : X → Frame R kvHeads headDim
  applyRotary : Int → (Fin headDim → R) → Fin headDim → R
  /-- The scaled product of a query and a key. -/
  score : (Fin headDim → R) → (Fin headDim → R) → S
  exp : S → R
  /-- The smallest float. -/
  minimum : S
  oProj : Frame R (kvHeads * groups) headDim → Y

structure AttentionState (R : Type*) (kvHeads headDim : Nat) where
  k : List (Frame R kvHeads headDim)
  v : List (Frame R kvHeads headDim)
  positions : List Int

def AttentionState.empty {R : Type*} {kvHeads headDim : Nat} : AttentionState R kvHeads headDim :=
  ⟨[], [], []⟩

/-- The positions from `start` on, `n` of them. -/
def arange (start : Int) (n : Nat) : List Int := (List.range n).map fun i : Nat => start + (i : Int)

/-- The slice `l[-n:]`, which is all of `l` when `n` is zero. -/
def lastItems {A : Type*} (n : Nat) (l : List A) : List A := if n = 0 then l else l.rtake n

/-- Every key-value head serves `groups` query heads. -/
def repeatKv {A : Type*} {kvHeads groups : Nat} (heads : Fin kvHeads → A) :
    Fin (kvHeads * groups) → A :=
  fun h => heads h.divNat

variable {R S X Y : Type*} [DivisionRing R] [AddZeroClass S] {H G D : Nat}

def softmax (exp : S → R) (row : List S) : List R :=
  row.map fun s => exp s / (row.map exp).sum

namespace SlidingWindowAttention
variable (m : SlidingWindowAttention R S X Y H G D)

def query (position : Int) (x : X) : Frame R (H * G) D := fun h => m.applyRotary position (m.qProj x h)

def key (position : Int) (x : X) : Frame R H D := fun h => m.applyRotary position (m.kProj x h)

/-- The mask of the reference. -/
def visible (qPos kPos : Int) : Bool :=
  decide (kPos > qPos - m.slidingWindow) && decide (kPos ≤ qPos)

/-- The mask of the exported module, whose first keys have negative positions. -/
def exportVisible (qPos kPos : Int) : Bool := decide (kPos ≥ 0) && m.visible qPos kPos

/-- Put the keys, the values and the positions of a chunk after those of the state. -/
def extend (hidden : List X) (state : AttentionState R H D) (positions : List Int) :
    AttentionState R H D where
  k := state.k ++ List.zipWith m.key positions hidden
  v := state.v ++ hidden.map m.vProj
  positions := state.positions ++ positions

/-- One head of one query. -/
def attendHead (q : Fin D → R) (k v : List (Fin D → R)) (mask : List S) : Fin D → R :=
  let attn := List.zipWith (fun k mask => m.score q k + mask) k mask
  (List.zipWith (fun weight v => weight • v) (softmax m.exp attn) v).sum

/-- The queries of a chunk against all keys, those that are not valid masked out. -/
def attend (valid : Int → Int → Bool) (hidden : List X) (positions : List Int)
    (all : AttentionState R H D) : List Y :=
  List.zipWith (fun qPos x =>
    let mask := all.positions.map fun kPos => if valid qPos kPos then 0 else m.minimum
    m.oProj fun h => m.attendHead (m.query qPos x h) (all.k.map (repeatKv · h))
      (all.v.map (repeatKv · h)) mask) positions hidden

/-- The attention of a whole sequence under the mask. -/
def maskedAttention (x : List X) : List Y :=
  let positions := arange 0 x.length
  m.attend m.visible x positions (m.extend x .empty positions)

/-- The positions, keys and values a query attends to. -/
def attended (valid : Int → Int → Bool) (qPos : Int) (all : AttentionState R H D) :
    List (Int × Frame R H D × Frame R H D) :=
  (all.positions.zip (all.k.zip all.v)).filter fun entry => valid qPos entry.1

end SlidingWindowAttention

variable (m : SlidingWindowAttention R S X Y H G D)

/-- The step of the reference, whose state grows up to the window. -/
def attentionStep (hidden : List X) (state : AttentionState R H D) (positionOffset : Nat) :
    List Y × AttentionState R H D :=
  let positions := arange positionOffset hidden.length
  let all := m.extend hidden state positions
  let out := m.attend m.visible hidden positions all
  let keep := m.slidingWindow - 1
  if keep ≠ 0 then
    (out, ⟨all.k.rtake keep, all.v.rtake keep, all.positions.rtake keep⟩)
  else (out, .empty)

def attentionStream (hidden : List X) (chunks : List Nat) : Option (List Y) :=
  streamChunks (fun _ offset state part => some (attentionStep m part state offset)) .empty hidden
    chunks

/-- The step on the real weights, which gets the positions from its caller. -/
def gateAttentionStep (hidden : List X) (state : AttentionState R H D) (positions : List Int) :
    List Y × AttentionState R H D :=
  let all := m.extend hidden state positions
  let out := m.attend m.visible hidden positions all
  let keep := m.slidingWindow - 1
  (out, ⟨lastItems keep all.k, lastItems keep all.v, lastItems keep all.positions⟩)

/-- All keys of an exported step: those of the state end right before the offset. -/
def exportAll (hidden : List X) (kState vState : List (Frame R H D)) (positionOffset : Nat) :
    AttentionState R H D :=
  let keep := m.slidingWindow - 1
  m.extend hidden ⟨kState, vState, arange ((positionOffset : Int) - keep) keep⟩
    (arange positionOffset hidden.length)

/-- The exported step, whose state has a fixed size. -/
def exportAttentionStep (hidden : List X) (kState vState : List (Frame R H D))
    (positionOffset : Nat) : List Y × List (Frame R H D) × List (Frame R H D) :=
  let keep := m.slidingWindow - 1
  let all := exportAll m hidden kState vState positionOffset
  let out := m.attend m.exportVisible hidden (arange positionOffset hidden.length) all
  (out, lastItems keep all.k, lastItems keep all.v)

section Arange
variable {a : Int} {n k : Nat}

@[simp] theorem length_arange : (arange a n).length = n := by
  rw [arange, List.length_map, List.length_range]

theorem arange_add : arange a (n + k) = arange a n ++ arange (a + n) k := by
  rw [arange, List.range_add, List.map_append, List.map_map, arange, arange]
  congr 1
  apply List.map_congr_left
  intro i _
  rw [Function.comp_apply, Nat.cast_add, add_assoc]

theorem arange_eq_mapIdx {A : Type*} {x : List A} :
    arange a x.length = x.mapIdx fun i _ => a + (i : Int) := by
  apply List.ext_getElem
  · rw [length_arange, List.length_mapIdx]
  · intro i hi hi'
    rw [List.getElem_mapIdx, List.getElem_of_eq rfl]
    simp only [arange, List.getElem_map, List.getElem_range]

/-- Working through items with their positions. -/
theorem zipWith_arange {A B : Type*} {f : Int → A → B} {x : List A} :
    List.zipWith f (arange a x.length) x = x.mapIdx fun i item => f (a + i) item := by
  rw [arange_eq_mapIdx]
  apply List.ext_getElem
  · rw [List.length_zipWith, List.length_mapIdx, List.length_mapIdx, min_self]
  · intro i hi hi'
    rw [List.getElem_zipWith, List.getElem_mapIdx, List.getElem_mapIdx]

theorem rtake_map {A B : Type*} {f : A → B} {l : List A} :
    (l.map f).rtake n = (l.rtake n).map f := by
  rw [List.rtake, List.rtake, List.length_map, List.map_drop]

end Arange

/-- The columns of a list of positions, keys and values. -/
def AttentionState.ofEntries (l : List (Int × Frame R H D × Frame R H D)) :
    AttentionState R H D :=
  ⟨l.map fun entry => entry.2.1, l.map fun entry => entry.2.2, l.map fun entry => entry.1⟩

namespace SlidingWindowAttention
variable {m : SlidingWindowAttention R S X Y H G D} {x p c : List X} {q : Nat}
  {l : List (Int × Frame R H D × Frame R H D)} {valid : Int → Int → Bool} {start : Int}

/-- What a frame at a position leaves for later queries. -/
def entry (m : SlidingWindowAttention R S X Y H G D) (position : Int) (frame : X) :
    Int × Frame R H D × Frame R H D :=
  (position, m.key position frame, m.vProj frame)

/-- The entries of a sequence whose first frame is at the position `start`. -/
def entries (m : SlidingWindowAttention R S X Y H G D) (start : Int) (x : List X) :
    List (Int × Frame R H D × Frame R H D) :=
  x.mapIdx fun i frame => m.entry (start + i) frame

/-- What the query at a position sees: itself and the positions of the window before it. -/
def windowOf (m : SlidingWindowAttention R S X Y H G D) (x : List X) (q : Nat) :
    List (Int × Frame R H D × Frame R H D) :=
  slice (m.entries 0 x) (q + 1 - m.slidingWindow) (q + 1)

/-- A query that attends to the given keys and values alone. -/
def attendTo (m : SlidingWindowAttention R S X Y H G D) (qPos : Int) (frame : X)
    (l : List (Int × Frame R H D × Frame R H D)) : Y :=
  m.oProj fun h =>
    let weigh := fun entry : Int × Frame R H D × Frame R H D =>
      m.exp (m.score (m.query qPos frame h) (repeatKv entry.2.1 h))
    (l.map fun entry => (weigh entry / (l.map weigh).sum) • repeatKv entry.2.2 h).sum

@[simp] theorem length_entries : (m.entries start x).length = x.length := List.length_mapIdx

theorem entries_append :
    m.entries start (p ++ c) = m.entries start p ++ m.entries (start + p.length) c := by
  rw [entries, List.mapIdx_append, entries, entries]
  congr 1
  apply List.ext_getElem?
  intro i
  rw [List.getElem?_mapIdx, List.getElem?_mapIdx, Nat.cast_add, add_comm (i : Int), add_assoc]

theorem map_entries {B : Type*} {g : Int × Frame R H D × Frame R H D → B} :
    (m.entries start c).map g = c.mapIdx fun i frame => g (m.entry (start + i) frame) := by
  apply List.ext_getElem
  · rw [List.length_map, length_entries, List.length_mapIdx]
  · intro i hi hi'
    simp only [entries, List.getElem_map, List.getElem_mapIdx]

theorem extend_entries :
    m.extend c (.ofEntries l) (arange start c.length) = .ofEntries (l ++ m.entries start c) := by
  have hv : c.map m.vProj = c.mapIdx fun _ frame => m.vProj frame := by
    apply List.ext_getElem
    · rw [List.length_map, List.length_mapIdx]
    · intro i hi hi'
      rw [List.getElem_map, List.getElem_mapIdx]
  rw [extend, zipWith_arange, arange_eq_mapIdx, hv]
  simp only [AttentionState.ofEntries, List.map_append, map_entries, entry]

theorem attended_entries :
    attended valid start (.ofEntries l) = l.filter fun entry => valid start entry.1 := by
  rw [attended, AttentionState.ofEntries, List.zip_map', List.zip_map', List.map_id']

/-- Items that weigh nothing can be left out of a sum. -/
theorem sum_map_filter {A M : Type*} [AddMonoid M] {f : A → M} {P : A → Bool} {l : List A}
    (h : ∀ a ∈ l, P a = false → f a = 0) : ((l.filter P).map f).sum = (l.map f).sum := by
  induction l with
  | nil => rfl
  | cons a l ih =>
      have hl := ih fun b hb => h b (List.mem_cons_of_mem a hb)
      by_cases ha : P a = true
      · rw [List.filter_cons_of_pos ha, List.map_cons, List.map_cons, List.sum_cons, List.sum_cons,
          hl]
      · have hzero : f a = 0 := h a List.mem_cons_self (Bool.eq_false_iff.mpr ha)
        rw [List.filter_cons_of_neg ha, List.map_cons, List.sum_cons, hzero, zero_add, hl]

/-- Keys that are masked out have no weight. -/
theorem attendHead_entries (hmask : ∀ s, m.exp (s + m.minimum) = 0) (P : Int → Bool)
    (query : Fin D → R) (h : Fin (H * G)) :
    m.attendHead query ((AttentionState.ofEntries l).k.map (repeatKv · h))
        ((AttentionState.ofEntries l).v.map (repeatKv · h))
        ((AttentionState.ofEntries l).positions.map fun kPos => if P kPos then 0 else m.minimum) =
      let seen := l.filter fun entry => P entry.1
      let weigh := fun entry : Int × Frame R H D × Frame R H D =>
        m.exp (m.score query (repeatKv entry.2.1 h))
      (seen.map fun entry => (weigh entry / (seen.map weigh).sum) • repeatKv entry.2.2 h).sum := by
  let masked := fun entry : Int × Frame R H D × Frame R H D =>
    m.exp (m.score query (repeatKv entry.2.1 h) + if P entry.1 then 0 else m.minimum)
  have hout : ∀ entry ∈ l, P entry.1 = false → masked entry = 0 := by
    intro entry _ hP
    simp only [masked, hP, Bool.false_eq_true, if_false, hmask]
  have hin : ∀ entry ∈ l.filter fun entry => P entry.1,
      m.exp (m.score query (repeatKv entry.2.1 h)) = masked entry := by
    intro entry hentry
    simp only [masked, (List.mem_filter.mp hentry).2, if_true, add_zero]
  have hsum : ((l.filter fun entry => P entry.1).map fun entry =>
      m.exp (m.score query (repeatKv entry.2.1 h))).sum = (l.map masked).sum := by
    rw [List.map_congr_left hin, sum_map_filter hout]
  calc
    _ = (l.map fun entry =>
        (masked entry / (l.map masked).sum) • repeatKv entry.2.2 h).sum := by
      simp only [attendHead, softmax, AttentionState.ofEntries, List.map_map, List.zipWith_map,
        List.zipWith_self, Function.comp_def, masked]
    _ = ((l.filter fun entry => P entry.1).map fun entry =>
        (masked entry / (l.map masked).sum) • repeatKv entry.2.2 h).sum := by
      rw [sum_map_filter]
      intro entry hentry hP
      rw [hout entry hentry hP, zero_div, zero_smul]
    _ = _ := by
      simp only [hsum]
      congr 1
      apply List.map_congr_left
      intro entry hentry
      rw [hin entry hentry]

theorem attend_entries (hmask : ∀ s, m.exp (s + m.minimum) = 0) :
    m.attend valid c (arange start c.length) (.ofEntries l) =
      c.mapIdx fun i frame =>
        m.attendTo (start + i) frame (l.filter fun entry => valid (start + i) entry.1) := by
  rw [attend, zipWith_arange]
  congr 1
  funext i frame
  simp only [attendTo]
  congr 1
  funext h
  exact attendHead_entries hmask (valid (start + i)) _ h

/-- The window, as positions with their keys and values. -/
theorem mem_windowOf {e : Int × Frame R H D × Frame R H D} :
    e ∈ m.windowOf x q ↔ ∃ (i : Nat) (frame : X), x[i]? = some frame ∧
      max 0 ((q : Int) - m.slidingWindow + 1) ≤ i ∧ (i : Int) ≤ q ∧ e = m.entry i frame := by
  rw [windowOf, List.mem_iff_getElem?]
  simp only [getElem?_slice, entries, List.getElem?_mapIdx, zero_add]
  constructor
  · rintro ⟨i, hi⟩
    split at hi
    · obtain ⟨frame, hframe, rfl⟩ := Option.map_eq_some_iff.mp hi
      exact ⟨_, frame, hframe, by omega, by omega, rfl⟩
    · cases hi
  · rintro ⟨i, frame, hframe, hlo, hhi, rfl⟩
    refine ⟨i - (q + 1 - m.slidingWindow), ?_⟩
    rw [Nat.add_sub_of_le (by omega), if_pos (by omega), hframe, Option.map_some]

/-- Entries before the window may be dropped, those after it are not seen yet. -/
theorem filter_window {n : Nat} (hn : n ≤ q + 1 - m.slidingWindow)
    (hvalid : ∀ i : Nat, valid q i = m.visible q i) :
    ((m.entries 0 x).drop n).filter (fun entry => valid q entry.1) = m.windowOf x q := by
  apply filter_drop_mapIdx _ hn
  intro i frame
  simp only [entry, zero_add, hvalid, visible, Bool.and_eq_true, decide_eq_true_eq]
  omega

/-- A query does not see what comes after it. -/
theorem windowOf_append (hq : q < p.length) : m.windowOf (p ++ c) q = m.windowOf p q := by
  rw [windowOf, entries_append, slice_append_left (by rwa [length_entries]), windowOf]

/-- What the queries of a prefix give. -/
def outputsOf (m : SlidingWindowAttention R S X Y H G D) (p : List X) : List Y :=
  p.mapIdx fun i frame => m.attendTo i frame (m.windowOf p i)

theorem outputsOf_append :
    m.outputsOf (p ++ c) = m.outputsOf p ++ c.mapIdx fun i frame =>
      m.attendTo (p.length + i : Nat) frame (m.windowOf (p ++ c) (p.length + i)) := by
  rw [outputsOf, List.mapIdx_append]
  congr 1
  · apply List.ext_getElem
    · rw [List.length_mapIdx, outputsOf, List.length_mapIdx]
    · intro i hi hi'
      rw [List.length_mapIdx] at hi
      simp only [outputsOf, List.getElem_mapIdx]
      rw [windowOf_append hi]
  · simp only [Nat.add_comm]

/-- A chunk whose queries see their windows goes on with the outputs of the prefix. -/
theorem attend_window (hmask : ∀ s, m.exp (s + m.minimum) = 0)
    (hl : ∀ i : Nat, l.filter (fun entry => valid (p.length + i : Nat) entry.1) =
      m.windowOf (p ++ c) (p.length + i)) :
    m.outputsOf (p ++ c) =
      m.outputsOf p ++ m.attend valid c (arange p.length c.length) (.ofEntries l) := by
  rw [attend_entries hmask, outputsOf_append]
  simp only [← Nat.cast_add, hl]

theorem maskedAttention_eq (hmask : ∀ s, m.exp (s + m.minimum) = 0) :
    m.maskedAttention x = m.outputsOf x := by
  have hall : m.extend x .empty (arange 0 x.length) = .ofEntries (m.entries 0 x) :=
    extend_entries (l := [])
  have hwindow : ∀ q : Nat, (m.entries 0 x).filter (fun entry => m.visible q entry.1) =
      m.windowOf x q := fun q => filter_window (Nat.zero_le _) fun _ => rfl
  simp only [maskedAttention, hall, attend_entries hmask, zero_add, hwindow, outputsOf]

section Growing

/-- The last entries of a prefix. -/
def lastEntries (m : SlidingWindowAttention R S X Y H G D) (p : List X) :
    List (Int × Frame R H D × Frame R H D) :=
  (m.entries 0 p).rtake (m.slidingWindow - 1)

theorem lastEntries_append : m.lastEntries p ++ m.entries p.length c =
    (m.entries 0 (p ++ c)).drop (p.length - (m.slidingWindow - 1)) := by
  rw [entries_append, zero_add, List.drop_append_of_le_length, lastEntries, List.rtake,
    length_entries]
  rw [length_entries]
  exact Nat.sub_le _ _

theorem lastEntries_keep : (m.lastEntries p ++ m.entries p.length c).rtake (m.slidingWindow - 1) =
    m.lastEntries (p ++ c) := by
  rw [lastEntries, rtake_rtake_append, lastEntries, entries_append, zero_add]

/-- The window is among the last entries and those of the chunk. -/
theorem lastEntries_window (i : Nat) :
    (m.lastEntries p ++ m.entries p.length c).filter
        (fun entry => m.visible (p.length + i : Nat) entry.1) =
      m.windowOf (p ++ c) (p.length + i) := by
  rw [lastEntries_append]
  exact filter_window (by omega) fun _ => rfl

end Growing

section Fixed

/-- The zeros an exported state starts from, right before the first position. -/
def zeroEntries (m : SlidingWindowAttention R S X Y H G D) :
    List (Int × Frame R H D × Frame R H D) :=
  (arange (-(m.slidingWindow - 1 : Nat)) (m.slidingWindow - 1)).map fun position => (position, 0, 0)

/-- The last entries of a prefix with zeros before it. -/
def paddedEntries (m : SlidingWindowAttention R S X Y H G D) (p : List X) :
    List (Int × Frame R H D × Frame R H D) :=
  (m.zeroEntries ++ m.entries 0 p).rtake (m.slidingWindow - 1)

theorem paddedEntries_keep :
    (m.paddedEntries p ++ m.entries p.length c).rtake (m.slidingWindow - 1) =
      m.paddedEntries (p ++ c) := by
  rw [paddedEntries, rtake_rtake_append, paddedEntries, entries_append, zero_add,
    List.append_assoc]

@[simp] theorem length_zeroEntries : m.zeroEntries.length = m.slidingWindow - 1 := by
  rw [zeroEntries, List.length_map, length_arange]

theorem paddedEntries_eq :
    m.paddedEntries p = (m.zeroEntries ++ m.entries 0 p).drop p.length := by
  rw [paddedEntries, List.rtake, List.length_append, length_zeroEntries, length_entries,
    Nat.add_sub_cancel_left]

theorem paddedEntries_append : m.paddedEntries p ++ m.entries p.length c =
    m.zeroEntries.drop p.length ++
      (m.entries 0 (p ++ c)).drop (p.length - (m.slidingWindow - 1)) := by
  rw [paddedEntries_eq, List.drop_append, length_zeroEntries, List.append_assoc]
  congr 1
  rw [entries_append, zero_add, List.drop_append_of_le_length]
  rw [length_entries]
  exact Nat.sub_le _ _

/-- The zeros have negative positions, which the mask leaves out. -/
theorem paddedEntries_window (i : Nat) :
    (m.paddedEntries p ++ m.entries p.length c).filter
        (fun entry => m.exportVisible (p.length + i : Nat) entry.1) =
      m.windowOf (p ++ c) (p.length + i) := by
  have hzeros : (m.zeroEntries.drop p.length).filter
      (fun entry => m.exportVisible (p.length + i : Nat) entry.1) = [] := by
    apply List.filter_eq_nil_iff.mpr
    intro entry hentry
    obtain ⟨position, hposition, rfl⟩ := List.mem_map.mp (List.mem_of_mem_drop hentry)
    obtain ⟨k, hk, rfl⟩ := List.mem_map.mp hposition
    rw [List.mem_range] at hk
    have hneg : ¬ (-(m.slidingWindow - 1 : Nat) + (k : Int) ≥ 0) := by omega
    simp [exportVisible, hneg]
  rw [paddedEntries_append, List.filter_append, hzeros, List.nil_append]
  apply filter_window (by omega)
  intro k
  simp [exportVisible]

/-- The keys of the state end right before the next position. -/
theorem paddedEntries_positions : (m.paddedEntries p).map (fun entry => entry.1) =
    arange ((p.length : Int) - (m.slidingWindow - 1 : Nat)) (m.slidingWindow - 1) := by
  have hzeros : m.zeroEntries.map (fun entry => entry.1) =
      arange (-(m.slidingWindow - 1 : Nat)) (m.slidingWindow - 1) := by
    rw [zeroEntries, List.map_map]
    exact List.map_id _
  have hentries : (m.entries 0 p).map (fun entry => entry.1) = arange 0 p.length := by
    rw [map_entries, arange_eq_mapIdx]
    rfl
  have hall : arange (-(m.slidingWindow - 1 : Nat)) (m.slidingWindow - 1) ++ arange 0 p.length =
      arange (-(m.slidingWindow - 1 : Nat)) p.length ++
        arange ((p.length : Int) - (m.slidingWindow - 1 : Nat)) (m.slidingWindow - 1) := by
    rw [← neg_add_cancel ((m.slidingWindow - 1 : Nat) : Int), ← arange_add, Nat.add_comm,
      arange_add, neg_add_eq_sub]
  rw [paddedEntries_eq, List.map_drop, List.map_append, hzeros, hentries, hall,
    List.drop_append_of_le_length (by rw [length_arange]), List.drop_of_length_le, List.nil_append]
  rw [length_arange]

end Fixed

section Steps

theorem ofEntries_rtake {n : Nat} :
    (⟨(AttentionState.ofEntries l).k.rtake n, (AttentionState.ofEntries l).v.rtake n,
      (AttentionState.ofEntries l).positions.rtake n⟩ : AttentionState R H D) =
      .ofEntries (l.rtake n) := by
  simp only [AttentionState.ofEntries, rtake_map]

/-- What the growing state holds after a prefix. -/
def growingStateOf (m : SlidingWindowAttention R S X Y H G D) (p : List X) :
    AttentionState R H D :=
  .ofEntries (m.lastEntries p)

theorem attentionStep_resumes (hwindow : 2 ≤ m.slidingWindow)
    (hmask : ∀ s, m.exp (s + m.minimum) = 0) :
    Resumes (fun offset state hidden => some (attentionStep m hidden state offset))
      m.growingStateOf m.outputsOf := by
  intro p c _
  refine ⟨_, congrArg some ?_, attend_window hmask lastEntries_window⟩
  simp only [attentionStep, growingStateOf, extend_entries, ofEntries_rtake, lastEntries_keep]
  rw [if_pos (by omega)]

theorem gateAttentionStep_resumes (hwindow : 2 ≤ m.slidingWindow)
    (hmask : ∀ s, m.exp (s + m.minimum) = 0) :
    Resumes (fun offset state hidden =>
      some (gateAttentionStep m hidden state (arange offset hidden.length)))
      m.growingStateOf m.outputsOf := by
  intro p c _
  refine ⟨_, congrArg some ?_, attend_window hmask lastEntries_window⟩
  have hkeep : m.slidingWindow - 1 ≠ 0 := by omega
  simp only [gateAttentionStep, growingStateOf, extend_entries, lastItems, if_neg hkeep,
    ofEntries_rtake, lastEntries_keep]

/-- What the state of a fixed size holds after a prefix. -/
def fixedStateOf (m : SlidingWindowAttention R S X Y H G D) (p : List X) :
    List (Frame R H D) × List (Frame R H D) :=
  ((m.paddedEntries p).map fun entry => entry.2.1, (m.paddedEntries p).map fun entry => entry.2.2)

theorem exportAll_eq : exportAll m c (m.fixedStateOf p).1 (m.fixedStateOf p).2 p.length =
    .ofEntries (m.paddedEntries p ++ m.entries p.length c) := by
  rw [exportAll, ← paddedEntries_positions, fixedStateOf, ← extend_entries]
  rfl

theorem exportAttentionStep_resumes (hwindow : 2 ≤ m.slidingWindow)
    (hmask : ∀ s, m.exp (s + m.minimum) = 0) :
    Resumes (fun offset state hidden =>
      some (exportAttentionStep m hidden state.1 state.2 offset)) m.fixedStateOf m.outputsOf := by
  intro p c _
  refine ⟨_, congrArg some ?_, attend_window hmask paddedEntries_window⟩
  have hkeep : m.slidingWindow - 1 ≠ 0 := by omega
  simp only [exportAttentionStep, exportAll_eq, lastItems, if_neg hkeep]
  simp only [AttentionState.ofEntries, rtake_map, paddedEntries_keep, fixedStateOf]

/-- However the chunks so far were cut, a step with its keys `all` gives the
attention of the whole sequence, and the queries of any next chunk attend to the
positions of their windows with the keys and values of these positions. -/
def StreamsWindow {T : Type*} (m : SlidingWindowAttention R S X Y H G D)
    (valid : Int → Int → Bool) (all : Nat → T → List X → AttentionState R H D)
    (step : Nat → T → List X → List Y × T) (start : T) : Prop :=
  ∀ cs : List (List X), (∀ c ∈ cs, c ≠ []) →
    ∃ ys s, runChunks (fun offset s c => some (step offset s c)) 0 start cs = some (ys, s) ∧
      ys.flatten = m.maskedAttention cs.flatten ∧
      ∀ (c : List X) (q : Nat), cs.flatten.length ≤ q → q < (cs.flatten ++ c).length →
        ∀ entry, entry ∈ attended valid q (all cs.flatten.length s c) ↔
          ∃ (k : Nat) (frame : X), (cs.flatten ++ c)[k]? = some frame ∧
            max 0 ((q : Int) - m.slidingWindow + 1) ≤ k ∧ (k : Int) ≤ q ∧
              entry = m.entry k frame

theorem streamsWindow_of_resumes {T : Type*} (hmask : ∀ s, m.exp (s + m.minimum) = 0)
    {all : Nat → T → List X → AttentionState R H D} {step : Nat → T → List X → List Y × T}
    {state : List X → T} {held : List X → List (Int × Frame R H D × Frame R H D)}
    (h : Resumes (fun offset s c => some (step offset s c)) state m.outputsOf)
    (hall : ∀ p c, all p.length (state p) c = .ofEntries (held p ++ m.entries p.length c))
    (hheld : ∀ p c i, (held p ++ m.entries p.length c).filter
      (fun entry => valid (p.length + i : Nat) entry.1) = m.windowOf (p ++ c) (p.length + i)) :
    m.StreamsWindow valid all step (state []) := by
  intro cs hcs
  obtain ⟨ys, hrun, hout, -⟩ := h.run [] hcs
  rw [List.nil_append] at hrun hout
  refine ⟨ys, _, hrun, ?_, fun c q hq _ entry => ?_⟩
  · rw [maskedAttention_eq hmask, hout]
    rfl
  · obtain ⟨i, rfl⟩ := Nat.exists_eq_add_of_le hq
    rw [hall, attended_entries, hheld, mem_windowOf]

end Steps

end SlidingWindowAttention

/-- The zero tensors an exported stream starts from. -/
def zeroAttentionState : List (Frame R H D) × List (Frame R H D) :=
  (List.replicate (m.slidingWindow - 1) 0, List.replicate (m.slidingWindow - 1) 0)

section Streaming

open SlidingWindowAttention

/-- The three streaming steps attend to the window of every query and give the
masked attention of the whole sequence. -/
theorem sliding_window_streaming (hwindow : 2 ≤ m.slidingWindow)
    (hmask : ∀ s, m.exp (s + m.minimum) = 0) :
    (∀ x chunks, chunks.sum = x.length →
      attentionStream m x chunks = if x = [] then none else some (m.maskedAttention x)) ∧
    m.StreamsWindow m.visible (fun offset s c => m.extend c s (arange offset c.length))
      (fun offset s c => attentionStep m c s offset) .empty ∧
    m.StreamsWindow m.visible (fun offset s c => m.extend c s (arange offset c.length))
      (fun offset s c => gateAttentionStep m c s (arange offset c.length)) .empty ∧
    m.StreamsWindow m.exportVisible (fun offset s c => exportAll m c s.1 s.2 offset)
      (fun offset s c => exportAttentionStep m c s.1 s.2 offset) (zeroAttentionState m) := by
  have hempty : m.growingStateOf [] = .empty := by
    rw [growingStateOf, lastEntries, entries, List.mapIdx_nil, List.rtake_nil]
    rfl
  have hzero : m.fixedStateOf [] = zeroAttentionState m := by
    rw [fixedStateOf, paddedEntries_eq, List.length_nil, List.drop_zero, entries, List.mapIdx_nil,
      List.append_nil, zeroEntries, List.map_map, List.map_map, zeroAttentionState]
    simp only [Function.comp_def, List.map_const', length_arange]
  have hreference := attentionStep_resumes hwindow hmask
  have hgate := gateAttentionStep_resumes hwindow hmask
  have hexport := exportAttentionStep_resumes hwindow hmask
  refine ⟨fun x chunks hsum => ?_, ?_, ?_, ?_⟩
  · rw [attentionStream, ← hempty, maskedAttention_eq hmask]
    exact hreference.stream rfl hsum
  · rw [← hempty]
    exact streamsWindow_of_resumes hmask hreference (fun _ _ => extend_entries)
      fun _ _ => lastEntries_window
  · rw [← hempty]
    exact streamsWindow_of_resumes hmask hgate (fun _ _ => extend_entries)
      fun _ _ => lastEntries_window
  · rw [← hzero]
    exact streamsWindow_of_resumes hmask hexport (fun _ _ => exportAll_eq)
      fun _ _ => paddedEntries_window

end Streaming

/-- A window of two in which every score is zero, where the exponential is one:
a query gets the mean of what it sees. -/
def meanOfTwo : SlidingWindowAttention ℚ (WithBot ℚ) ℚ ℚ 1 1 1 where
  slidingWindow := 2
  qProj := fun _ _ _ => 0
  kProj := fun x _ _ => x
  vProj := fun x _ _ => x
  applyRotary := fun _ x => x
  score := fun q k => ((q 0 * k 0 : ℚ) : WithBot ℚ)
  exp := fun s => s.recBotCoe 0 fun v => 1 + v
  minimum := ⊥
  oProj := fun frame => frame 0 0

theorem sliding_window_streaming_of_three_frames :
    2 ≤ meanOfTwo.slidingWindow ∧ (∀ s, meanOfTwo.exp (s + meanOfTwo.minimum) = 0) ∧
      ([1, 2] : List Nat).sum = 3 ∧ attentionStream meanOfTwo [1, 3, 5] [1, 2] = some [1, 2, 4] := by
  have hmask : ∀ s, meanOfTwo.exp (s + meanOfTwo.minimum) = 0 := by
    intro s
    have hbot : s + meanOfTwo.minimum = ⊥ := WithBot.add_bot s
    rw [hbot]
    rfl
  refine ⟨by decide, hmask, rfl, ?_⟩
  rw [(sliding_window_streaming meanOfTwo (by decide) hmask).1 _ _ rfl]
  decide +kernel

end JetsonVoice.Code2Wav
