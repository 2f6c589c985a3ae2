import JetsonVoice.Foundation.Collections

/-!
# The work of the threads of a launch

A launch runs one program in every thread of every block of a grid. What its
threads do to memory is the list of their operations, thread by thread; the
hardware may run the operations in any order, so a result about a launch is one
about every permutation of that list.
-/

namespace JetsonVoice.Foundation

section Operations
variable {ω : Type*} {gridX gridY block : Nat} {thread : Nat → Nat → Nat → List ω} {w : ω}

/-- The operations of all threads, for a grid of two dimensions. -/
def launch (gridX gridY block : Nat) (thread : (x y t : Nat) → List ω) : List ω :=
  (List.range gridY).flatMap fun y => (List.range gridX).flatMap fun x =>
    (List.range block).flatMap fun t => thread x y t

theorem mem_launch : w ∈ launch gridX gridY block thread ↔
    ∃ y < gridY, ∃ x < gridX, ∃ t < block, w ∈ thread x y t := by
  simp [launch, List.mem_flatMap]

/-- Operations that name the part they come from do not repeat across the parts. -/
theorem nodup_flatMap_of_owner {ι : Type*} {parts : List ι} {f : ι → List ω} (owner : ω → ι)
    (hparts : parts.Nodup) (hf : ∀ i ∈ parts, (f i).Nodup)
    (howner : ∀ i ∈ parts, ∀ w ∈ f i, owner w = i) : (parts.flatMap f).Nodup := by
  refine List.nodup_flatMap.mpr ⟨hf, ?_⟩
  refine List.Pairwise.imp_of_mem ?_ hparts
  intro i j hi hj hne w hwi hwj
  exact hne ((howner i hi w hwi).symm.trans (howner j hj w hwj))

theorem map_flatMap_launch {υ : Type*} (g : ω → υ) :
    (launch gridX gridY block thread).map g =
      launch gridX gridY block fun x y t => (thread x y t).map g := by
  simp only [launch, List.map_flatMap]

/-- No operation is done twice if each tells its block and thread. -/
theorem nodup_launch (col row lane : ω → Nat)
    (hnodup : ∀ y < gridY, ∀ x < gridX, ∀ t < block, (thread x y t).Nodup)
    (howner : ∀ y < gridY, ∀ x < gridX, ∀ t < block, ∀ w ∈ thread x y t,
      col w = x ∧ row w = y ∧ lane w = t) : (launch gridX gridY block thread).Nodup := by
  refine nodup_flatMap_of_owner row List.nodup_range (fun y hy => ?_) fun y hy w hw => ?_
  · have hy := List.mem_range.mp hy
    refine nodup_flatMap_of_owner col List.nodup_range (fun x hx => ?_) fun x hx w hw => ?_
    · have hx := List.mem_range.mp hx
      refine nodup_flatMap_of_owner lane List.nodup_range (fun t ht => ?_) fun t ht w hw => ?_
      · exact hnodup y hy x hx t (List.mem_range.mp ht)
      · exact (howner y hy x hx t (List.mem_range.mp ht) w hw).2.2
    · obtain ⟨t, ht, hw⟩ := List.mem_flatMap.mp hw
      exact (howner y hy x (List.mem_range.mp hx) t (List.mem_range.mp ht) w hw).1
  · obtain ⟨x, hx, hw⟩ := List.mem_flatMap.mp hw
    obtain ⟨t, ht, hw⟩ := List.mem_flatMap.mp hw
    exact (howner y (List.mem_range.mp hy) x (List.mem_range.mp hx) t (List.mem_range.mp ht) w
      hw).2.1

end Operations

/-- A number as a dimension of a grid, 32 bits without a sign. -/
def gridDim (n : Int) : Nat := (n % 2 ^ 32).toNat

/-- The grids a device takes. -/
def Launchable (gridX gridY : Nat) : Prop :=
  (0 < gridX ∧ gridX < 2 ^ 31) ∧ 0 < gridY ∧ gridY < 2 ^ 16

instance (gridX gridY : Nat) : Decidable (Launchable gridX gridY) :=
  inferInstanceAs (Decidable (_ ∧ _))

theorem gridDim_natCast {n : Nat} (h : n < 2 ^ 32) : gridDim n = n := by
  rw [gridDim, Int.emod_eq_of_lt (by omega) (by omega), Int.toNat_natCast]

/-- An element of a row-major matrix. -/
theorem flat_lt {rows cols row col : Nat} (hr : row < rows) (hc : col < cols) :
    row * cols + col < rows * cols := by
  have hle := Nat.mul_le_mul_right cols (Nat.succ_le_of_lt hr)
  rw [Nat.succ_mul] at hle
  omega

theorem flat_div {cols col : Nat} (row : Nat) (hc : col < cols) :
    (row * cols + col) / cols = row := by
  rw [Nat.mul_comm, Nat.mul_add_div (by omega), Nat.div_eq_of_lt hc, Nat.add_zero]

theorem flat_mod {cols col : Nat} (row : Nat) (hc : col < cols) : (row * cols + col) % cols = col :=
  Nat.mul_add_mod_of_lt hc

section Ownership
variable {V : Type*} {gridX gridY block rows cols : Nat}
  {writes : (x y t : Nat) → List (Nat × V)} {value : Nat → Nat → V}

/-- Every element of a row-major matrix has one thread of a launch that writes it, and
writes it once. -/
structure CellOwners (gridX gridY block rows cols : Nat) (writes : (x y t : Nat) → List (Nat × V))
    (value : Nat → Nat → V) (x y t : Nat → Nat → Nat) : Prop where
  sound : ∀ j < gridY, ∀ i < gridX, ∀ l < block, ∀ w ∈ writes i j l,
    ∃ row < rows, ∃ col < cols, w = (row * cols + col, value row col) ∧
      x row col = i ∧ y row col = j ∧ t row col = l
  complete : ∀ row < rows, ∀ col < cols, x row col < gridX ∧ y row col < gridY ∧
    t row col < block ∧
      (row * cols + col, value row col) ∈ writes (x row col) (y row col) (t row col)
  nodup : ∀ j < gridY, ∀ i < gridX, ∀ l < block, ((writes i j l).map Prod.fst).Nodup

variable {x y t : Nat → Nat → Nat}

theorem CellOwners.mem_launch (h : CellOwners gridX gridY block rows cols writes value x y t)
    {row col : Nat} (hr : row < rows) (hc : col < cols) :
    (row * cols + col, value row col) ∈ launch gridX gridY block writes := by
  obtain ⟨hx, hy, ht, hmem⟩ := h.complete row hr col hc
  exact Foundation.mem_launch.mpr ⟨_, hy, _, hx, _, ht, hmem⟩

/-- The elements written are those of the matrix, each once. -/
theorem CellOwners.once (h : CellOwners gridX gridY block rows cols writes value x y t) :
    ((launch gridX gridY block writes).map Prod.fst).Perm (List.range (rows * cols)) := by
  refine (List.perm_ext_iff_of_nodup ?_ List.nodup_range).mpr fun i => ?_
  · rw [map_flatMap_launch]
    refine nodup_launch (fun i => x (i / cols) (i % cols)) (fun i => y (i / cols) (i % cols))
      (fun i => t (i / cols) (i % cols)) h.nodup fun j hj c hc l hl i hi => ?_
    obtain ⟨w, hw, rfl⟩ := List.mem_map.mp hi
    obtain ⟨row, -, col, hcol, rfl, hx, hy, ht⟩ := h.sound j hj c hc l hl w hw
    simp only [flat_div _ hcol, flat_mod _ hcol]
    exact ⟨hx, hy, ht⟩
  · rw [List.mem_range, List.mem_map]
    constructor
    · rintro ⟨w, hw, rfl⟩
      obtain ⟨j, hj, c, hc, l, hl, hw⟩ := Foundation.mem_launch.mp hw
      obtain ⟨row, hr, col, hcol, rfl, -⟩ := h.sound j hj c hc l hl w hw
      exact flat_lt hr hcol
    · intro hi
      have hcols : 0 < cols := Nat.pos_of_ne_zero fun h0 => by simp [h0] at hi
      refine ⟨_, h.mem_launch (Nat.div_lt_of_lt_mul (by rwa [Nat.mul_comm cols]))
        (Nat.mod_lt i hcols), ?_⟩
      exact Nat.div_add_mod' i cols

end Ownership

section Strides
variable {first step bound i : Nat}

/-- How often the body of `for (i = first; i < bound; i += step)` runs. -/
def strideCount (first step bound : Nat) : Nat := (bound - first + step - 1) / step

/-- The values of `i` in the body. -/
def strides (first step bound : Nat) : List Nat :=
  List.range' first (strideCount first step bound) step

/-- The value of `i` after the loop. -/
def strideEnd (first step bound : Nat) : Nat := first + step * strideCount first step bound

theorem lt_strideCount (first bound : Nat) (hs : 0 < step) (j : Nat) :
    j < strideCount first step bound ↔ first + step * j < bound := by
  rw [strideCount, Nat.lt_iff_add_one_le, Nat.le_div_iff_mul_le hs, Nat.add_mul, Nat.one_mul,
    Nat.mul_comm j]
  omega

theorem mem_strides (hs : 0 < step) :
    i ∈ strides first step bound ↔ first ≤ i ∧ i < bound ∧ (i - first) % step = 0 := by
  simp only [strides, List.mem_range']
  constructor
  · rintro ⟨j, hj, rfl⟩
    exact ⟨Nat.le_add_right _ _, (lt_strideCount first bound hs j).mp hj, by simp⟩
  · rintro ⟨hle, hlt, hmod⟩
    obtain ⟨j, hj⟩ := Nat.dvd_of_mod_eq_zero hmod
    exact ⟨j, (lt_strideCount first bound hs j).mpr (by omega), by omega⟩

theorem nodup_strides (hs : 0 < step) : (strides first step bound).Nodup :=
  List.nodup_range' _ hs

theorem strideEnd_le (first bound : Nat) (hs : 0 < step) :
    strideEnd first step bound ≤ max first (bound + step - 1) := by
  rw [strideEnd]
  cases hc : strideCount first step bound with
  | zero => simp
  | succ j =>
      have hlast := (lt_strideCount first bound hs j).mp (by omega)
      rw [Nat.mul_succ]
      omega

/-- A loop that reaches the last index goes one step behind it. -/
theorem strideEnd_of_last (hs : 0 < step) (hb : 0 < bound)
    (hf : first = (bound - 1) % step) : strideEnd first step bound = bound - 1 + step := by
  have hdiv := Nat.mod_add_div (bound - 1) step
  have hmem : bound - 1 ∈ strides first step bound := by
    refine (mem_strides hs).mpr ⟨by omega, by omega, ?_⟩
    have hsub : bound - 1 - first = step * ((bound - 1) / step) := by omega
    rw [hsub, Nat.mul_mod_right]
  obtain ⟨j, hj, heq⟩ := List.mem_range'.mp hmem
  have hlast : strideCount first step bound = j + 1 := by
    have hstop : ¬ j + 1 < strideCount first step bound := fun h => by
      have := (lt_strideCount first bound hs _).mp h
      rw [Nat.mul_succ] at this
      omega
    omega
  rw [strideEnd, hlast, Nat.mul_succ]
  omega

end Strides

section Stores
variable {κ ν : Type*} [DecidableEq κ] {f g : κ → ν} {writes : List (κ × ν)} {k : κ}

/-- Where a value depends on its place alone, the order of the writes does not matter. -/
theorem assign_of_agree (h : ∀ w ∈ writes, w.2 = g w.1) (hk : k ∈ writes.map Prod.fst) :
    assign f writes k = g k := by
  induction writes generalizing f with
  | nil => cases hk
  | cons write writes ih =>
      rw [assign, List.foldl_cons, ← assign]
      by_cases hrest : k ∈ writes.map Prod.fst
      · exact ih (fun w hw => h w (List.mem_cons_of_mem _ hw)) hrest
      · obtain rfl : k = write.1 := (List.mem_cons.mp hk).resolve_right hrest
        rw [assign_of_notMem hrest, Function.update_self]
        exact h write List.mem_cons_self

end Stores

end JetsonVoice.Foundation
