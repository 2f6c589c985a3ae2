import Mathlib.Algebra.BigOperators.Group.List.Basic
import Mathlib.Algebra.Order.BigOperators.Group.List
import Mathlib.Algebra.Order.Group.Abs
import Mathlib.Tactic.Abel

/-!
# The first least element and the sums over a sliding window

A scan keeps the place of the least value so far and moves it for a smaller value
only. The sums of the absolute values in the windows of a list come from one
running sum, which gains a value and loses one for each place.
-/

namespace JetsonVoice.Foundation

section Argmin
variable {R : Type*} [LinearOrder R]

/-- The scan from place `i` on; `best` is the place of the least value so far. -/
def argminFrom (best : Nat) (bestv : R) (i : Nat) : List R → Nat
  | [] => best
  | x :: xs => if x < bestv then argminFrom i x (i + 1) xs else argminFrom best bestv (i + 1) xs

/-- The place of the least value of a list, the first one on ties. -/
def argminFirst : List R → Nat
  | [] => 0
  | x :: xs => argminFrom 0 x 1 xs

/-- Place `i` has the least value of a list, and is the first that has it. -/
structure FirstMin (l : List R) (i : Nat) (v : R) : Prop where
  at_index : l[i]? = some v
  least : ∀ {j : Nat} {w : R}, l[j]? = some w → v ≤ w
  first : ∀ {j : Nat} {w : R}, j < i → l[j]? = some w → v < w

theorem firstMin_append_singleton {l : List R} {i : Nat} {v x : R} (h : FirstMin l i v) :
    (x < v → FirstMin (l ++ [x]) l.length x) ∧ (¬ x < v → FirstMin (l ++ [x]) i v) := by
  obtain ⟨hi, hleast, hfirst⟩ := h
  have hlt : i < l.length := (List.getElem?_eq_some_iff.mp hi).1
  constructor
  · intro hx
    refine ⟨by simp, fun {j w} hw => ?_, fun {j w} hj hw => ?_⟩
    · rw [List.getElem?_append] at hw
      split at hw
      · exact hx.le.trans (hleast hw)
      · exact (List.mem_singleton.mp (List.mem_of_getElem? hw)).ge
    · rw [List.getElem?_append_left hj] at hw
      exact hx.trans_le (hleast hw)
  · intro hx
    refine ⟨by rwa [List.getElem?_append_left hlt], fun {j w} hw => ?_, fun {j w} hj hw => ?_⟩
    · rw [List.getElem?_append] at hw
      split at hw
      · exact hleast hw
      · exact (List.mem_singleton.mp (List.mem_of_getElem? hw)) ▸ not_lt.mp hx
    · rw [List.getElem?_append_left (hj.trans hlt)] at hw
      exact hfirst hj hw

/-- The scan keeps the first least value of what it has seen. -/
theorem argminFrom_spec {l : List R} {best : Nat} {bestv : R} (h : FirstMin l best bestv)
    (xs : List R) : ∃ v, FirstMin (l ++ xs) (argminFrom best bestv l.length xs) v := by
  induction xs generalizing l best bestv with
  | nil => exact ⟨bestv, by simpa [argminFrom] using h⟩
  | cons x xs ih =>
      obtain ⟨hless, hmore⟩ := firstMin_append_singleton (x := x) h
      have happend : l ++ x :: xs = (l ++ [x]) ++ xs := by simp
      have hlen : l.length + 1 = (l ++ [x]).length := by simp
      rw [argminFrom, happend, hlen]
      split_ifs with hx
      · exact ih (hless hx)
      · exact ih (hmore hx)

theorem argminFirst_spec {l : List R} (h : l ≠ []) : ∃ v, FirstMin l (argminFirst l) v := by
  cases l with
  | nil => exact absurd rfl h
  | cons x xs =>
      have hone : FirstMin [x] 0 x := by
        refine ⟨rfl, fun {j w} hw => ?_, fun hj => absurd hj (Nat.not_lt_zero _)⟩
        exact (List.mem_singleton.mp (List.mem_of_getElem? hw)).ge
      exact argminFrom_spec hone xs

theorem FirstMin.lt_length {l : List R} {i : Nat} {v : R} (h : FirstMin l i v) : i < l.length :=
  (List.getElem?_eq_some_iff.mp h.at_index).1

/-- The first place in `[lo, hi)` at which `f` is least there. -/
structure FirstLeast (f : Int → R) (lo hi i : Int) : Prop where
  lo_le : lo ≤ i
  lt_hi : i < hi
  least : ∀ j, lo ≤ j → j < hi → f i ≤ f j
  first : ∀ j, lo ≤ j → j < i → f i < f j

theorem FirstMin.firstLeast {f : Int → R} {lo : Int} {n i : Nat} {v : R}
    (h : FirstMin ((List.range n).map fun j : Nat => f (lo + j)) i v) :
    FirstLeast f lo (lo + n) (lo + i) := by
  have hi : i < n := by simpa using h.lt_length
  have hget (j : Nat) (hj : j < n) :
      ((List.range n).map fun j : Nat => f (lo + j))[j]? = some (f (lo + j)) := by
    simp [List.getElem?_range hj]
  obtain rfl : f (lo + i) = v := Option.some.inj ((hget i hi).symm.trans h.at_index)
  refine ⟨by omega, by omega, fun j hlo hhi => ?_, fun j hlo hj => ?_⟩
  · obtain ⟨k, rfl⟩ := Int.le.dest hlo
    exact h.least (hget k (by omega))
  · obtain ⟨k, rfl⟩ := Int.le.dest hlo
    exact h.first (by omega) (hget k (by omega))

end Argmin

section Windows
variable {R : Type*} [LinearOrder R] [AddCommGroup R]

/-- The sum of the absolute values of a list. -/
def sumAbs (l : List R) : R := (l.map (|·|)).sum

/-- The sum over the window of `win` places from place `p` on. -/
def windowSum (l : List R) (win p : Nat) : R := sumAbs ((l.drop p).take win)

/-- The sums after the first one: `olds` leave the window, `news` enter it. -/
def slideSums (running : R) : (olds news : List R) → List R
  | old :: olds, new :: news =>
      let running := running + |new| - |old|
      let running := if running < 0 then 0 else running
      running :: slideSums running olds news
  | _, _ => []

/-- The sums over the windows of `win` places, from left to right. -/
def windowSumsAbs (l : List R) (win : Nat) : List R :=
  if l.length < win then []
  else
    let running := (l.take win).foldl (fun sum x => sum + |x|) 0
    running :: slideSums running l (l.drop win)

theorem foldl_add_abs (l : List R) (a : R) :
    l.foldl (fun sum x => sum + |x|) a = a + sumAbs l := by
  induction l generalizing a with
  | nil => simp [sumAbs]
  | cons x l ih =>
      rw [List.foldl_cons, ih]
      simp [sumAbs, add_assoc]

variable [IsOrderedAddMonoid R]

theorem sumAbs_nonneg (l : List R) : 0 ≤ sumAbs l :=
  List.sum_nonneg fun x hx => by
    obtain ⟨y, -, rfl⟩ := List.mem_map.mp hx
    exact abs_nonneg y

/-- The running sum is the sum over the window, which is never negative. The
induction is on the values that are to enter the window. -/
theorem slideSums_eq {w news : List R} (hw : w ≠ []) :
    slideSums (sumAbs w) (w ++ news) news =
      (List.range news.length).map fun p => windowSum (w ++ news) w.length (p + 1) := by
  induction news generalizing w with
  | nil => cases w <;> rfl
  | cons x news ih =>
      obtain ⟨old, w, rfl⟩ := List.exists_cons_of_ne_nil hw
      have hrun : sumAbs (old :: w) + |x| - |old| = sumAbs (w ++ [x]) := by
        simp only [sumAbs, List.map_cons, List.map_append, List.map_nil, List.sum_cons,
          List.sum_append, List.sum_nil]
        abel
      have hnext : w ++ x :: news = (w ++ [x]) ++ news := by simp
      rw [@List.length_cons _ x news, List.range_succ_eq_map, List.map_cons,
        List.cons_append, slideSums]
      simp only [hrun, if_neg (not_lt.mpr (sumAbs_nonneg (w ++ [x])))]
      rw [hnext, ih (by simp)]
      congr 1
      · simp [windowSum, List.take_append, List.take_of_length_le]
      · simp only [List.map_map]
        refine List.map_congr_left fun p _ => ?_
        simp [windowSum, Function.comp]

/-- The list of the sums over all the windows. -/
theorem windowSumsAbs_eq {l : List R} {win : Nat} (hpos : 0 < win) (hle : win ≤ l.length) :
    windowSumsAbs l win =
      (List.range (l.length - win + 1)).map fun p => windowSum l win p := by
  have hne : l.take win ≠ [] := by
    intro hnil
    have hlen := congrArg List.length hnil
    rw [List.length_take, List.length_nil] at hlen
    omega
  have hslide : slideSums _ _ (l.drop win) = _ := slideSums_eq hne
  rw [List.take_append_drop, List.length_drop, List.length_take, Nat.min_eq_left hle] at hslide
  rw [windowSumsAbs, if_neg (not_lt.mpr hle)]
  simp only [foldl_add_abs, zero_add]
  rw [hslide, List.range_succ_eq_map, List.map_cons, List.map_map]
  simp [windowSum, Function.comp_def]

end Windows

end JetsonVoice.Foundation
