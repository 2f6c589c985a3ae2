import Mathlib.Data.List.GetD
import Mathlib.Data.Rat.Floor
import Mathlib.Tactic.Linarith
import JetsonVoice.Foundation.SlidingWindow

/-!
# Splitting audio where it is quiet

A buffer that is too long is cut into chunks. The place of a cut is looked for
around the nominal one: the window with the least sum of absolute amplitudes, and
in it the sample with the least absolute amplitude, the first one on ties.

## Implementation notes

Amplitudes are elements of an ordered group and the parameters are rational
numbers; positions are integers of any size. The loop has fuel.
-/

namespace JetsonVoice.Asr.Vad

open Foundation

/-- A conversion of a floating-point number to an integer. -/
def truncate (x : ℚ) : Int := if 0 ≤ x then ⌊x⌋ else ⌈x⌉

structure AudioVadSplitter where
  sampleRate : Int := 16000
  maxChunkSec : ℚ := 13
  searchExpandSec : ℚ := 2
  minWindowMs : ℚ := 100
  minChunkSec : ℚ := 1 / 2

structure AudioChunk (R : Type*) where
  samples : List R
  offsetSec : ℚ

namespace AudioVadSplitter
variable (S : AudioVadSplitter)

def maxLen : Int := truncate (S.maxChunkSec * S.sampleRate)

def expand : Int := truncate (S.searchExpandSec * S.sampleRate)

/-- The samples of a window, at least four. -/
def win : Int := max (truncate (S.minWindowMs / 1000 * S.sampleRate)) 4

/-- The ends of the range a cut is looked for in. -/
def left (start : Int) : Int := max start (start + S.maxLen - S.expand)

def right (total start : Int) : Int := min total (start + S.maxLen + S.expand)

variable {R : Type*} [LinearOrder R] [AddCommGroup R] (pcm : List R)

/-- The boundary after the chunk that starts at `start`. -/
def boundary (start : Int) : Int :=
  let left := S.left start
  let right := S.right pcm.length start
  let boundary :=
    if right - left ≤ S.win then start + S.maxLen
    else
      let seg := (pcm.drop left.toNat).take (right - left).toNat
      let minPos := argminFirst (windowSumsAbs seg S.win.toNat)
      let inner := argminFirst (((seg.drop minPos).take S.win.toNat).map (|·|))
      left + minPos + inner
  min (max boundary (start + 1)) pcm.length

/-- The boundaries from `start` on, `none` when the fuel runs out. -/
def boundariesLoop : (fuel : Nat) → (start : Int) → Option (List Int)
  | 0, _ => none
  | fuel + 1, start =>
      if S.maxLen < pcm.length - start then
        let boundary := S.boundary pcm start
        (boundariesLoop fuel boundary).map (boundary :: ·)
      else some [(pcm.length : Int)]

/-- The boundary positions, the number of samples last. -/
def boundaries (fuel : Nat) : Option (List Int) :=
  if (pcm.length : ℚ) / S.sampleRate ≤ S.maxChunkSec then some [(pcm.length : Int)]
  else S.boundariesLoop pcm fuel 0

/-- The chunks between the boundaries, before they are padded. -/
def chunksFrom (start : Int) (offsetSec : ℚ) : List Int → List (AudioChunk R)
  | [] => []
  | b :: bnds =>
      let b := min (max b start) pcm.length
      { samples := (pcm.drop start.toNat).take (b - start).toNat, offsetSec := offsetSec } ::
        chunksFrom b (offsetSec + ((b - start : Int) : ℚ) / S.sampleRate) bnds

/-- Short chunks are filled up with zeros. -/
def pad (c : AudioChunk R) : AudioChunk R :=
  let minLen := (truncate (S.minChunkSec * S.sampleRate)).toNat
  { c with samples := c.samples ++ List.replicate (minLen - c.samples.length) 0 }

def split (fuel : Nat) : Option (List (AudioChunk R)) :=
  (S.boundaries pcm fuel).map fun bnds => (S.chunksFrom pcm 0 0 bnds).map S.pad

end AudioVadSplitter

section Spec
variable {R : Type*}

theorem slice_slice {pcm : List R} {l n p w : Nat} (h : p + w ≤ n) :
    (((pcm.drop l).take n).drop p).take w = (pcm.drop (l + p)).take w := by
  rw [List.drop_take, List.take_take, List.drop_drop, Nat.min_eq_left (by omega)]

variable [LinearOrder R] [AddCommGroup R]

def amplitude (pcm : List R) (k : Int) : R := |pcm.getD k.toNat 0|

/-- The sum of the amplitudes in the window that starts at `q`. -/
def windowAmplitude (pcm : List R) (win q : Int) : R :=
  ((List.range win.toNat).map fun k : Nat => amplitude pcm (q + k)).sum

/-- The first sample of least amplitude in the first of the quietest windows in a range. -/
def QuietSample (pcm : List R) (win lo hi i : Int) : Prop :=
  ∃ q, FirstLeast (windowAmplitude pcm win) lo (hi - win + 1) q ∧
    FirstLeast (amplitude pcm) q (q + win) i

/-- The boundary of a chunk that starts at `start`, raised to at least `start + 1`. -/
def IsBoundary (S : AudioVadSplitter) (pcm : List R) (start b : Int) : Prop :=
  ∃ nominal, b = max nominal (start + 1) ∧
    if S.right pcm.length start - S.left start ≤ S.win then nominal = start + S.maxLen
    else QuietSample pcm S.win (S.left start) (S.right pcm.length start) nominal

/-- The amplitudes of a slice. -/
theorem slice_amplitudes {pcm : List R} {a : Int} {n : Nat} (ha : 0 ≤ a)
    (h : a.toNat + n ≤ pcm.length) : ((pcm.drop a.toNat).take n).map (|·|) =
      (List.range n).map fun k : Nat => amplitude pcm (a + k) := by
  apply List.ext_getElem
  · simp only [List.length_map, List.length_take, List.length_drop, List.length_range]
    omega
  · intro k hk _
    simp only [List.length_map, List.length_take, List.length_drop] at hk
    have hindex : (a + k).toNat = a.toNat + k := by omega
    rw [List.getElem_map, List.getElem_take, List.getElem_drop, List.getElem_map,
      List.getElem_range, amplitude, hindex, List.getD_eq_getElem _ _ (by omega)]

variable [IsOrderedAddMonoid R]

/-- The two scans find the quiet sample of a range that is longer than the window. -/
theorem quietSample_of_scan {pcm : List R} {lo hi win : Int} (hlo : 0 ≤ lo)
    (hhi : hi ≤ pcm.length) (hpos : 0 < win) (hlong : win < hi - lo) :
    let seg := (pcm.drop lo.toNat).take (hi - lo).toNat
    let minPos := argminFirst (windowSumsAbs seg win.toNat)
    let inner := argminFirst (((seg.drop minPos).take win.toNat).map (|·|))
    QuietSample pcm win lo hi (lo + minPos + inner) := by
  intro seg minPos inner
  have hlen : seg.length = (hi - lo).toNat := by
    simp only [seg, List.length_take, List.length_drop]
    omega
  have hsums : windowSumsAbs seg win.toNat =
      (List.range (seg.length - win.toNat + 1)).map fun p : Nat =>
        windowAmplitude pcm win (lo + p) := by
    rw [windowSumsAbs_eq (by omega) (by omega)]
    refine List.map_congr_left fun p hp => ?_
    have hp := List.mem_range.mp hp
    have hindex : lo.toNat + p = (lo + p).toNat := by omega
    rw [windowSum, sumAbs, slice_slice (by omega), hindex,
      slice_amplitudes (by omega) (by omega)]
    rfl
  obtain ⟨v, hmin⟩ : ∃ v, FirstMin ((List.range (seg.length - win.toNat + 1)).map fun p : Nat =>
      windowAmplitude pcm win (lo + p)) minPos v := by
    rw [← hsums]
    exact argminFirst_spec (by simp [hsums])
  have hplt : minPos < seg.length - win.toNat + 1 := by simpa using hmin.lt_length
  have hwindow : ((seg.drop minPos).take win.toNat).map (|·|) =
      (List.range win.toNat).map fun k : Nat => amplitude pcm (lo + minPos + k) := by
    have hindex : lo.toNat + minPos = (lo + minPos).toNat := by omega
    rw [slice_slice (by omega), hindex, slice_amplitudes (by omega) (by omega)]
  obtain ⟨u, hinner⟩ : ∃ u, FirstMin ((List.range win.toNat).map fun k : Nat =>
      amplitude pcm (lo + minPos + k)) inner u := by
    rw [← hwindow]
    apply argminFirst_spec
    rw [hwindow, ne_eq, List.map_eq_nil_iff, List.range_eq_nil]
    omega
  refine ⟨lo + minPos, ?_, ?_⟩
  · have hend : hi - win + 1 = lo + ((seg.length - win.toNat + 1 : Nat) : Int) := by omega
    rw [hend]
    exact hmin.firstLeast
  · have hend : lo + minPos + win = lo + minPos + (win.toNat : Int) := by omega
    rw [hend]
    exact hinner.firstLeast

/-- The boundaries a chunk that starts at `start` is followed by. -/
inductive Splits (S : AudioVadSplitter) (pcm : List R) : Int → List Int → Prop
  | last {start : Int} (hlt : start < pcm.length) (hle : pcm.length - start ≤ S.maxLen) :
      Splits S pcm start [(pcm.length : Int)]
  | cut {start b : Int} {out : List Int} (hb : IsBoundary S pcm start b) (hlt : start < b)
      (hlen : b - start ≤ S.maxLen + max S.expand 0) (hrest : Splits S pcm b out) :
      Splits S pcm start (b :: out)

end Spec

section Loop
variable {R : Type*} [LinearOrder R] [AddCommGroup R] [IsOrderedAddMonoid R]
  {S : AudioVadSplitter} {pcm : List R} {start : Int}

/-- One round of the loop: the boundary is where it should be, and there is more of
the buffer behind it. -/
theorem boundary_spec (hmax : 1 ≤ S.maxLen) (hstart : 0 ≤ start)
    (hmore : S.maxLen < pcm.length - start) :
    IsBoundary S pcm start (S.boundary pcm start) ∧ start < S.boundary pcm start ∧
      S.boundary pcm start < pcm.length ∧
      S.boundary pcm start - start ≤ S.maxLen + max S.expand 0 := by
  have hwin : 4 ≤ S.win := le_max_right _ _
  by_cases hshort : S.right pcm.length start - S.left start ≤ S.win
  · have hb : S.boundary pcm start = start + S.maxLen := by
      simp only [AudioVadSplitter.boundary, if_pos hshort]
      omega
    refine ⟨⟨start + S.maxLen, by rw [hb]; omega, by rw [if_pos hshort]⟩, ?_, ?_, ?_⟩ <;> omega
  · have hleft : 0 ≤ S.left start := hstart.trans (le_max_left _ _)
    have hright : S.right pcm.length start ≤ pcm.length := min_le_left _ _
    have hquiet := quietSample_of_scan hleft hright (show 0 < S.win by omega) (by omega)
    simp only at hquiet
    obtain ⟨q, hq, hi⟩ := hquiet
    have hlo := hq.lo_le.trans hi.lo_le
    have hhi := hi.lt_hi
    have hqhi := hq.lt_hi
    set nominal := S.left start + _ + _ with hnominal
    have hb : S.boundary pcm start = min (max nominal (start + 1)) pcm.length := by
      simp only [AudioVadSplitter.boundary, if_neg hshort, hnominal]
    have hstartleft : start ≤ S.left start := le_max_left _ _
    have hcutright : S.right pcm.length start ≤ start + S.maxLen + S.expand := min_le_right _ _
    have hcutleft : start + S.maxLen - S.expand ≤ S.left start := le_max_right _ _
    refine ⟨⟨nominal, by omega, ?_⟩, by omega, by omega, by omega⟩
    rw [if_neg hshort]
    exact ⟨q, hq, hi⟩

/-- The loop ends with as much fuel as there are samples left, and its boundaries
split the rest of the buffer. The induction is on the fuel. -/
theorem boundariesLoop_spec (hmax : 1 ≤ S.maxLen) {fuel : Nat} (hstart : 0 ≤ start)
    (hlt : start < pcm.length) (hfuel : pcm.length - start ≤ fuel) :
    ∃ out, S.boundariesLoop pcm fuel start = some out ∧ Splits S pcm start out := by
  induction fuel generalizing start with
  | zero => omega
  | succ fuel ih =>
      rw [AudioVadSplitter.boundariesLoop]
      split_ifs with hmore
      · obtain ⟨hb, hstep, hin, hlen⟩ := boundary_spec hmax hstart hmore
        obtain ⟨out, hout, hsplits⟩ :=
          @ih (S.boundary pcm start) (by omega) hin (by omega)
        exact ⟨S.boundary pcm start :: out, by simp only [hout, Option.map_some],
          .cut hb hstep hlen hsplits⟩
      · exact ⟨_, rfl, .last hlt (by omega)⟩

end Loop

section Splits
variable {R : Type*} [LinearOrder R] [AddCommGroup R] {S : AudioVadSplitter} {pcm : List R}
  {start : Int} {out : List Int}

/-- More fuel changes nothing. -/
theorem boundariesLoop_mono {fuel : Nat}
    (h : S.boundariesLoop pcm fuel start = some out) :
    S.boundariesLoop pcm (fuel + 1) start = some out := by
  induction fuel generalizing start out with
  | zero => cases h
  | succ fuel ih =>
      rw [AudioVadSplitter.boundariesLoop] at h ⊢
      split_ifs with hmore
      · rw [if_pos hmore] at h
        obtain ⟨rest, hrest, rfl⟩ := Option.map_eq_some_iff.mp h
        simp only [ih hrest, Option.map_some]
      · rwa [if_neg hmore] at h

theorem boundariesLoop_le {fuel more : Nat} (hle : fuel ≤ more)
    (h : S.boundariesLoop pcm fuel start = some out) :
    S.boundariesLoop pcm more start = some out := by
  induction hle with
  | refl => exact h
  | step _ ih => exact boundariesLoop_mono ih

theorem Splits.increasing (h : Splits S pcm start out) : (start :: out).Pairwise (· < ·) := by
  induction h with
  | last hlt => simpa using hlt
  | cut _ hlt _ _ ih =>
      refine List.pairwise_cons.mpr ⟨fun b hb => ?_, ih⟩
      rcases List.mem_cons.mp hb with rfl | hb
      · exact hlt
      · exact hlt.trans ((List.pairwise_cons.mp ih).1 b hb)

theorem Splits.getLast? (h : Splits S pcm start out) :
    out.getLast? = some (pcm.length : Int) := by
  induction h with
  | last => rfl
  | cut _ _ _ hrest ih =>
      rw [List.getLast?_cons, ih]
      rfl

theorem Splits.length_le (h : Splits S pcm start out) :
    ∀ p ∈ (start :: out).zip out, p.2 - p.1 ≤ S.maxLen + max S.expand 0 := by
  induction h with
  | last hlt hle =>
      intro p hp
      obtain rfl := List.mem_singleton.mp hp
      exact hle.trans (le_add_of_nonneg_right (le_max_right _ _))
  | cut _ _ hlen _ ih =>
      intro p hp
      rcases List.mem_cons.mp hp with rfl | hp
      · exact hlen
      · exact ih p hp

theorem Splits.boundary (h : Splits S pcm start out) :
    ∀ p ∈ (start :: out).zip out.dropLast, IsBoundary S pcm p.1 p.2 := by
  induction h with
  | last => exact fun p hp => by cases hp
  | @cut _ b out hb _ _ hrest ih =>
      intro p hp
      have hne : out ≠ [] := by
        rintro rfl
        cases hrest
      rw [List.dropLast_cons_of_ne_nil hne] at hp
      rcases List.mem_cons.mp hp with rfl | hp
      · exact hb
      · exact ih p hp

end Splits

section Chunks
variable {R : Type*} {S : AudioVadSplitter} {pcm : List R} {start : Int} {out : List Int}

/-- The chunks between increasing boundaries are the rest of the buffer, and each
knows how much of it comes before. -/
theorem chunksFrom_spec (offsetSec : ℚ) (hstart : 0 ≤ start)
    (hinc : (start :: out).Pairwise (· < ·)) (hlast : out.getLast? = some (pcm.length : Int)) :
    (S.chunksFrom pcm start offsetSec out).flatMap AudioChunk.samples = pcm.drop start.toNat ∧
    ∀ before c after, S.chunksFrom pcm start offsetSec out = before ++ c :: after →
      c.offsetSec = offsetSec +
        ((before.flatMap AudioChunk.samples).length : ℚ) / S.sampleRate := by
  induction out generalizing start offsetSec with
  | nil => cases hlast
  | cons b bnds ih =>
      obtain ⟨hall, hinc⟩ := List.pairwise_cons.mp hinc
      have hlt : start < b := hall b List.mem_cons_self
      have hle : b ≤ pcm.length := by
        cases bnds with
        | nil => exact (Option.some.inj hlast).le
        | cons b' bnds =>
            have hmem := List.mem_of_getLast? (by rwa [List.getLast?_cons_cons] at hlast)
            exact ((List.pairwise_cons.mp hinc).1 _ hmem).le
      have hb : min (max b start) (pcm.length : Int) = b := by omega
      simp only [AudioVadSplitter.chunksFrom, hb]
      have hslice : (pcm.drop start.toNat).take (b - start).toNat ++ pcm.drop b.toNat =
          pcm.drop start.toNat := by
        have hdrop : pcm.drop b.toNat = (pcm.drop start.toNat).drop (b - start).toNat := by
          rw [List.drop_drop]
          congr 1
          omega
        rw [hdrop, List.take_append_drop]
      have hlen : (((pcm.drop start.toNat).take (b - start).toNat).length : ℚ) =
          ((b - start : Int) : ℚ) := by
        have hnat : ((pcm.drop start.toNat).take (b - start).toNat).length =
            (b - start).toNat := by
          rw [List.length_take, List.length_drop]
          omega
        rw [hnat, ← Int.cast_natCast, Int.toNat_of_nonneg (by omega)]
      cases bnds with
      | nil =>
          obtain rfl : b = pcm.length := Option.some.inj hlast
          constructor
          · simpa [AudioVadSplitter.chunksFrom] using hslice
          · intro before c after h
            rcases before with - | ⟨c₀, before⟩
            · obtain ⟨rfl, -⟩ := List.cons_eq_cons.mp h
              simp
            · exact absurd (congrArg List.length h) (by simp [AudioVadSplitter.chunksFrom])
      | cons b' bnds =>
          obtain ⟨hflat, hoffset⟩ := @ih b _ (by omega) hinc
            (by rwa [List.getLast?_cons_cons] at hlast)
          constructor
          · rw [List.flatMap_cons, hflat, hslice]
          · intro before c after h
            rcases before with - | ⟨c₀, before⟩
            · obtain ⟨rfl, -⟩ := List.cons_eq_cons.mp h
              simp
            · obtain ⟨rfl, hrest⟩ := List.cons_eq_cons.mp h
              rw [hoffset before c after hrest, List.flatMap_cons, List.length_append, Nat.cast_add,
                hlen]
              ring

end Chunks

section Claim
variable {R : Type*} [LinearOrder R] [AddCommGroup R] [IsOrderedAddMonoid R]

/-- A buffer that is not longer than the longest chunk has no more samples than one. -/
theorem length_le_maxLen {S : AudioVadSplitter} {n : Nat} (hrate : 0 < S.sampleRate)
    (h : (n : ℚ) / S.sampleRate ≤ S.maxChunkSec) : (n : Int) ≤ S.maxLen := by
  have hprod : (n : ℚ) ≤ S.maxChunkSec * S.sampleRate :=
    (div_le_iff₀ (by exact_mod_cast hrate)).mp h
  rw [AudioVadSplitter.maxLen, truncate, if_pos (n.cast_nonneg.trans hprod)]
  exact Int.le_floor.mpr (by exact_mod_cast hprod)

/-- For a buffer that is not empty and a longest chunk of at least one sample, the
boundaries are found, they increase and end at the number of samples; with a
positive rate no chunk is longer than the longest chunk and the expansion of the
search together; every boundary but the last is the quiet sample around its
nominal cut; and the chunks before their padding make up the buffer, each with
the duration of those before it as its offset. -/
theorem vad_split (S : AudioVadSplitter) {pcm : List R} (hne : pcm ≠ []) (hmax : 1 ≤ S.maxLen) :
    ∃ (out : List Int) (chunks : List (AudioChunk R)),
      (∀ fuel, pcm.length ≤ fuel → S.boundaries pcm fuel = some out ∧
        S.split pcm fuel = some (chunks.map S.pad)) ∧
      (0 :: out).Pairwise (· < ·) ∧ out.getLast? = some (pcm.length : Int) ∧
      (0 < S.sampleRate → ∀ p ∈ (0 :: out).zip out, p.2 - p.1 ≤ S.maxLen + max S.expand 0) ∧
      (∀ p ∈ (0 :: out).zip out.dropLast, IsBoundary S pcm p.1 p.2) ∧
      chunks.flatMap AudioChunk.samples = pcm ∧
      ∀ before c after, chunks = before ++ c :: after →
        c.offsetSec = ((before.flatMap AudioChunk.samples).length : ℚ) / S.sampleRate := by
  have hpos : (0 : Int) < pcm.length := by exact_mod_cast List.length_pos_of_ne_nil hne
  obtain ⟨out, hout, hinc, hlast, hlen, hb⟩ : ∃ out : List Int,
      (∀ fuel, pcm.length ≤ fuel → S.boundaries pcm fuel = some out) ∧
      (0 :: out).Pairwise (· < ·) ∧ out.getLast? = some (pcm.length : Int) ∧
      (0 < S.sampleRate → ∀ p ∈ (0 :: out).zip out, p.2 - p.1 ≤ S.maxLen + max S.expand 0) ∧
      ∀ p ∈ (0 :: out).zip out.dropLast, IsBoundary S pcm p.1 p.2 := by
    by_cases hshort : (pcm.length : ℚ) / S.sampleRate ≤ S.maxChunkSec
    · refine ⟨[(pcm.length : Int)], fun fuel _ => if_pos hshort, by simpa using hpos, rfl, ?_, ?_⟩
      · intro hrate p hp
        obtain rfl := List.mem_singleton.mp hp
        have hle := length_le_maxLen hrate hshort
        omega
      · intro p hp
        cases hp
    · obtain ⟨out, hout, hsplits⟩ :=
        @boundariesLoop_spec _ _ _ _ S pcm 0 hmax pcm.length le_rfl hpos (by omega)
      refine ⟨out, fun fuel hfuel => ?_, hsplits.increasing, hsplits.getLast?,
        fun _ => hsplits.length_le, hsplits.boundary⟩
      rw [AudioVadSplitter.boundaries, if_neg hshort]
      exact boundariesLoop_le hfuel hout
  obtain ⟨hflat, hoffset⟩ := chunksFrom_spec (S := S) 0 le_rfl hinc hlast
  refine ⟨out, S.chunksFrom pcm 0 0 out, fun fuel hfuel => ⟨hout fuel hfuel, ?_⟩, hinc, hlast,
    hlen, hb, hflat, fun before c after h => ?_⟩
  · rw [AudioVadSplitter.split, hout fuel hfuel, Option.map_some]
  · rw [hoffset before c after h, zero_add]

/-- Ten samples in chunks of at most four, with a search of three around each cut. -/
def tenSamples : List Int := [5, 5, 1, 0, 0, 0, 2, 5, 5, 5]

def fourAtATime : AudioVadSplitter where
  sampleRate := 1
  maxChunkSec := 4
  searchExpandSec := 3
  minWindowMs := 0
  minChunkSec := 0

theorem vad_split_ten : ∃ out : List Int, fourAtATime.boundaries tenSamples 10 = some out ∧
    (0 :: out).Pairwise (· < ·) ∧ out.getLast? = some 10 := by
  obtain ⟨out, _, hout, hinc, hlast, -⟩ := vad_split fourAtATime
    (show tenSamples ≠ [] by decide) (by decide +kernel)
  exact ⟨out, (hout 10 le_rfl).1, hinc, hlast⟩

/-- With an expansion of minus one sample, the first chunk has two samples although
the longest chunk and the expansion together are one. -/
theorem negative_expand_exceeds : ∃ (S : AudioVadSplitter) (pcm : List Int) (out : List Int),
    pcm ≠ [] ∧ 1 ≤ S.maxLen ∧ S.boundaries pcm 3 = some out ∧
      ∃ p ∈ (0 :: out).zip out, S.maxLen + S.expand < p.2 - p.1 :=
  ⟨{ sampleRate := 1, maxChunkSec := 2, searchExpandSec := -1, minWindowMs := 0,
      minChunkSec := 0 }, [1, 1, 1], [2, 3], by decide, by decide +kernel, by decide +kernel,
    (0, 2), by decide, by decide +kernel⟩

end Claim

end JetsonVoice.Asr.Vad
