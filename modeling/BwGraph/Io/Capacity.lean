import Mathlib.Order.Bounds.Basic
import BwGraph.Io.Index

/-
  `calculate_bw_capacity` (`utils.h`) in the arithmetic of `uint64_t`, and the two checks of
  `build_from_block_adjmap` (`io_index.cc`) that read the capacity.

  The search is written once more with every sum, product and difference checked: a step that
  would leave the 64 bits gives no result. Below 2^32 no step does, so the checked search is the
  one of `Index.lean`, and that one is exact because the bytes of a page grow with its blocks.

  The size check throws for a capacity from the search exactly when the fixed part of the page
  is larger than the page: the search returns 0 there and leaves the refusal to the check.
-/

namespace BwGraph

open IndexPage

/-! ## Checked arithmetic -/

/-- A `uint64_t` result, or nothing where the value does not fit. -/
def fit64 (n : Nat) : Option Nat := if n < 2 ^ 64 then some n else none

/-- A `uint64_t` difference, or nothing where it would wrap. -/
def sub64 (a b : Nat) : Option Nat := if b ≤ a then some (a - b) else none

theorem fit64_of_lt {n : Nat} (h : n < 2 ^ 64) : fit64 n = some n := if_pos h

theorem sub64_of_le {a b : Nat} (h : b ≤ a) : sub64 a b = some (a - b) := if_pos h

/-- `(3 + mid + N) * I + (mid * mid + 7) / 8`. -/
def indexBytes64 (neighbors blocks : Nat) : Option Nat := do
  let words ← fit64 (3 + blocks)
  let words ← fit64 (words + neighbors)
  let bytes ← fit64 (words * 4)
  let bits ← fit64 (blocks * blocks)
  let bits ← fit64 (bits + 7)
  fit64 (bytes + bits / 8)

/-- `left + (right - left) / 2`. -/
def middle64 (left right : Nat) : Option Nat := do
  let width ← sub64 right left
  fit64 (left + width / 2)

theorem middle64_eq_some {left right mid : Nat} (h : middle64 left right = some mid) :
    left ≤ right ∧ mid = left + (right - left) / 2 := by
  unfold middle64 sub64 fit64 at h
  split at h
  · rename_i hle
    simp only [Option.bind_eq_bind, Option.bind_some] at h
    split at h
    · injection h with h
      exact ⟨hle, h.symm⟩
    · cases h
  · cases h

/-- The loop of `calculate_bw_capacity`, checked. -/
def capacitySearch64 (pageSize neighbors left right result : Nat) : Option Nat :=
  if left ≤ right then
    match hmid : middle64 left right with
    | none => none
    | some mid =>
      (indexBytes64 neighbors mid).bind fun leftSide =>
        if leftSide < pageSize then
          (fit64 (mid + 1)).bind fun _ => capacitySearch64 pageSize neighbors (mid + 1) right mid
        else if mid = 0 then some result
        else
          (sub64 mid 1).bind fun _ => capacitySearch64 pageSize neighbors left (mid - 1) result
  else some result
termination_by right + 1 - left
decreasing_by
  all_goals
    obtain ⟨_, rfl⟩ := middle64_eq_some hmid
    omega

/-- `calculate_bw_capacity`, checked. -/
def calculateBwCapacity64 (pageSize neighbors : Nat) : Option Nat := do
  let words ← fit64 (3 + neighbors)
  let fixed ← fit64 (words * 4)
  if pageSize ≤ fixed then some 0
  else
    let result ← capacitySearch64 pageSize neighbors 0 pageSize 0
    let leftSide ← indexBytes64 neighbors result
    if leftSide ≥ pageSize then some 100 else some result

/-! ## No step leaves the 64 bits -/

theorem indexBytes64_eq {neighbors blocks : Nat} (hn : neighbors < 2 ^ 32)
    (hb : blocks < 2 ^ 32) : indexBytes64 neighbors blocks = some (indexBytes neighbors blocks) := by
  have hsq : blocks * blocks ≤ (2 ^ 32 - 1) * (2 ^ 32 - 1) :=
    Nat.mul_le_mul (by omega) (by omega)
  have h1 : fit64 (3 + blocks) = some (3 + blocks) := fit64_of_lt (by omega)
  have h2 : fit64 (3 + blocks + neighbors) = some (3 + blocks + neighbors) :=
    fit64_of_lt (by omega)
  have h3 : fit64 ((3 + blocks + neighbors) * 4) = some ((3 + blocks + neighbors) * 4) :=
    fit64_of_lt (by omega)
  have h4 : fit64 (blocks * blocks) = some (blocks * blocks) := fit64_of_lt (by omega)
  have h5 : fit64 (blocks * blocks + 7) = some (blocks * blocks + 7) := fit64_of_lt (by omega)
  have h6 : fit64 ((3 + blocks + neighbors) * 4 + (blocks * blocks + 7) / 8) =
      some (indexBytes neighbors blocks) := fit64_of_lt (by omega)
  simp only [indexBytes64, Option.bind_eq_bind, h1, h2, h3, h4, h5, h6, Option.bind_some]

theorem middle64_eq {left right : Nat} (h : left ≤ right) (hr : right < 2 ^ 32) :
    middle64 left right = some (left + (right - left) / 2) := by
  have h2 : fit64 (left + (right - left) / 2) = some (left + (right - left) / 2) :=
    fit64_of_lt (by omega)
  simp only [middle64, Option.bind_eq_bind, sub64_of_le h, Option.bind_some, h2]

variable {pageSize neighbors : Nat}

/-- One round of the checked search: its middle and the size of the page there are exact. -/
theorem capacitySearch64_step (hn : neighbors < 2 ^ 32) {left right : Nat} (hle : left ≤ right)
    (hr : right < 2 ^ 32) (result : Nat) :
    capacitySearch64 pageSize neighbors left right result =
      let mid := left + (right - left) / 2
      if indexBytes neighbors mid < pageSize then
        (fit64 (mid + 1)).bind fun _ => capacitySearch64 pageSize neighbors (mid + 1) right mid
      else if mid = 0 then some result
      else (sub64 mid 1).bind fun _ => capacitySearch64 pageSize neighbors left (mid - 1) result := by
  rw [capacitySearch64, if_pos hle]
  split
  · rename_i hnone
    rw [middle64_eq hle hr] at hnone
    cases hnone
  · rename_i m hsome
    obtain rfl := (middle64_eq_some hsome).2
    rw [indexBytes64_eq hn (by omega), Option.bind_some]

theorem capacitySearch64_eq (hn : neighbors < 2 ^ 32) (left right result : Nat)
    (hr : right < 2 ^ 32) :
    capacitySearch64 pageSize neighbors left right result =
      some (capacitySearch pageSize neighbors left right result) := by
  fun_induction capacitySearch pageSize neighbors left right result with
  | case1 left right result hle mid hfits ih =>
    rw [capacitySearch64_step hn hle hr, if_pos hfits, fit64_of_lt (by omega), Option.bind_some]
    exact ih hr
  | case2 left right result hle mid hfits hzero =>
    rw [capacitySearch64_step hn hle hr, if_neg hfits, if_pos hzero]
  | case3 left right result hle mid hfits hzero ih =>
    rw [capacitySearch64_step hn hle hr, if_neg hfits, if_neg hzero, sub64_of_le (by omega),
      Option.bind_some]
    exact ih (by omega)
  | case4 left right result hle =>
    rw [capacitySearch64, if_neg hle]

/-! ## The search is exact -/

theorem indexBytes_mono (neighbors : Nat) {a b : Nat} (h : a ≤ b) :
    indexBytes neighbors a ≤ indexBytes neighbors b := by
  have hsq : a * a ≤ b * b := Nat.mul_le_mul h h
  have hdiv : (a * a + 7) / 8 ≤ (b * b + 7) / 8 := Nat.div_le_div_right (by omega)
  unfold indexBytes
  omega

/-- What the loop keeps: every count below `left` fits and none above `right` does, and `result`
    is the count just below `left`, or 0 while there is none. -/
structure Bracket (pageSize neighbors left right result : Nat) : Prop where
  below : ∀ b < left, indexBytes neighbors b < pageSize
  above : ∀ b, right < b → pageSize ≤ indexBytes neighbors b
  last : result = left - 1
  le : left ≤ right + 1

/-- The loop ends at the number of counts that fit, less one. -/
theorem capacitySearch_bracket (left right result : Nat)
    (h : Bracket pageSize neighbors left right result) :
    ∃ count, capacitySearch pageSize neighbors left right result = count - 1 ∧
      ∀ b, indexBytes neighbors b < pageSize ↔ b < count := by
  fun_induction capacitySearch pageSize neighbors left right result with
  | case1 left right result hle mid hfits ih =>
    apply ih
    refine ⟨fun b hb => ?_, h.above, rfl, by omega⟩
    exact Nat.lt_of_le_of_lt (indexBytes_mono neighbors (by omega)) hfits
  | case2 left right result hle mid hfits hzero =>
    refine ⟨0, ?_, fun b => ?_⟩
    · have hlast := h.last
      omega
    · have hmono := indexBytes_mono neighbors (Nat.zero_le b)
      rw [hzero] at hfits
      omega
  | case3 left right result hle mid hfits hzero ih =>
    apply ih
    refine ⟨h.below, fun b hb => ?_, h.last, by omega⟩
    have hmono := indexBytes_mono neighbors (show mid ≤ b by omega)
    omega
  | case4 left right result hle =>
    refine ⟨left, h.last, fun b => ?_⟩
    constructor
    · intro hfits
      by_contra hb
      have habove := h.above b (by omega)
      omega
    · exact h.below b

theorem bracket_start (pageSize neighbors : Nat) : Bracket pageSize neighbors 0 pageSize 0 := by
  refine ⟨fun b hb => absurd hb (Nat.not_lt_zero b), fun b hb => ?_, rfl, Nat.zero_le _⟩
  unfold indexBytes
  omega

/-- A page whose fixed part does not fit has room for no block, not even for none. -/
theorem indexBytes_ge_fixed (neighbors blocks : Nat) :
    (3 + neighbors) * 4 ≤ indexBytes neighbors blocks := by
  unfold indexBytes
  omega

/-- The capacity is 0 where no count fits, else the greatest that does. -/
theorem calculateBwCapacity_spec (pageSize neighbors : Nat) :
    (∀ b, ¬ indexBytes neighbors b < pageSize) ∧ calculateBwCapacity pageSize neighbors = 0 ∨
      IsGreatest {b | indexBytes neighbors b < pageSize}
        (calculateBwCapacity pageSize neighbors) := by
  by_cases hfixed : pageSize ≤ (3 + neighbors) * 4
  · refine .inl ⟨fun b => ?_, ?_⟩
    · have hge := indexBytes_ge_fixed neighbors b
      omega
    · rw [calculateBwCapacity, if_pos hfixed]
  · have hfits := calculateBwCapacity_fits (Nat.not_le.1 hfixed)
    refine .inr ⟨hfits, fun b hb => ?_⟩
    obtain ⟨count, heq, hcount⟩ := capacitySearch_bracket _ _ _ (bracket_start pageSize neighbors)
    have hpos : 0 < count := by
      have hb' : b < count := (hcount b).1 hb
      omega
    have hlast : indexBytes neighbors (count - 1) < pageSize := (hcount _).2 (by omega)
    have hcap : calculateBwCapacity pageSize neighbors = count - 1 := by
      rw [calculateBwCapacity, if_neg hfixed]
      simp only [heq, ge_iff_le, if_neg (Nat.not_le.2 hlast)]
    have hb' : b < count := (hcount b).1 hb
    omega

theorem lt_of_indexBytes_lt {pageSize neighbors blocks : Nat}
    (h : indexBytes neighbors blocks < pageSize) : blocks < pageSize := by
  unfold indexBytes at h
  omega

/-- Below 2^32 the checked function gives the capacity. -/
theorem calculateBwCapacity64_eq (hp : pageSize < 2 ^ 32) (hn : neighbors < 2 ^ 32) :
    calculateBwCapacity64 pageSize neighbors = some (calculateBwCapacity pageSize neighbors) := by
  have h1 : fit64 (3 + neighbors) = some (3 + neighbors) := fit64_of_lt (by omega)
  have h2 : fit64 ((3 + neighbors) * 4) = some ((3 + neighbors) * 4) := fit64_of_lt (by omega)
  unfold calculateBwCapacity64 calculateBwCapacity
  simp only [Option.bind_eq_bind, h1, h2, Option.bind_some]
  split
  · rfl
  · rename_i hfixed
    have h0 : indexBytes neighbors 0 < pageSize := by
      unfold indexBytes
      omega
    have hfits := capacitySearch_fits 0 pageSize 0 h0
    have hlt := lt_of_indexBytes_lt hfits
    rw [capacitySearch64_eq hn 0 pageSize 0 hp, Option.bind_some,
      indexBytes64_eq hn (by omega), Option.bind_some]
    simp only [ge_iff_le, if_neg (Nat.not_le.2 hfits)]

/-! ## The checks of the builder -/

/-- `total_used`. -/
def totalUsed (neighbors capacity : Nat) : Nat :=
  3 * 4 + capacity * 4 + (capacity * capacity + 7) / 8 + neighbors * 4

/-- The two checks of `build_from_block_adjmap` on a map of `blocks` keys. -/
def buildChecks (pageSize neighbors capacity blocks : Nat) : Except String Unit :=
  if blocks > capacity then .error "Block adjacency map exceeds index page capacity"
  else if totalUsed neighbors capacity > pageSize then
    .error "Index page size exceeded while building block bitmap"
  else .ok ()

theorem totalUsed_eq (neighbors capacity : Nat) :
    totalUsed neighbors capacity = indexBytes neighbors capacity := by
  unfold totalUsed indexBytes
  omega

/-- The builder makes these checks. -/
theorem buildFromBlockAdjmap_checks (cfg : IndexConfig) (ho : HashOrder) (graph : BlockAdjMap)
    (p : IndexPage) :
    (buildFromBlockAdjmap cfg ho graph p).map (fun _ => ()) =
      buildChecks cfg.pageSize cfg.maxBlockNeighbor cfg.maxBlocks graph.keys.length := by
  have hused : bitmapOff cfg + bitmapSize cfg =
      totalUsed cfg.maxBlockNeighbor cfg.maxBlocks := by
    unfold bitmapOff bitmapSize blocksOff metadataSize
      totalUsed
    omega
  unfold buildFromBlockAdjmap buildChecks
  rw [hused]
  split
  · rfl
  · split
    · rfl
    · rfl

/-- The size check passes a computed capacity when the fixed part of the page fits. -/
theorem totalUsed_capacity_le_iff (pageSize neighbors : Nat) :
    totalUsed neighbors (calculateBwCapacity pageSize neighbors) ≤ pageSize ↔
      (3 + neighbors) * 4 ≤ pageSize := by
  rw [totalUsed_eq]
  constructor
  · intro h
    exact Nat.le_trans (indexBytes_ge_fixed neighbors _) h
  · intro h
    obtain ⟨hnone, hzero⟩ | hgreatest := calculateBwCapacity_spec pageSize neighbors
    · rw [hzero]
      unfold indexBytes
      omega
    · exact Nat.le_of_lt hgreatest.1

/-- The capacity of page size `pageSize` and `neighbors` neighbour pages: no step of its
    computation leaves the 64 bits, it is the greatest count of blocks that leaves a byte of the
    page free, or 0, and the size check of the builder refuses it for no map exactly when the
    fixed part of the page fits. -/
theorem calculateBwCapacity_exact {pageSize neighbors : Nat} (hp : pageSize < 2 ^ 32)
    (hn : neighbors < 2 ^ 32) :
    calculateBwCapacity64 pageSize neighbors = some (calculateBwCapacity pageSize neighbors) ∧
      ((∀ b, ¬ indexBytes neighbors b < pageSize) ∧ calculateBwCapacity pageSize neighbors = 0 ∨
        IsGreatest {b | indexBytes neighbors b < pageSize}
          (calculateBwCapacity pageSize neighbors)) ∧
      ((∀ blocks, buildChecks pageSize neighbors (calculateBwCapacity pageSize neighbors) blocks ≠
          .error "Index page size exceeded while building block bitmap") ↔
        (3 + neighbors) * 4 ≤ pageSize) := by
  refine ⟨calculateBwCapacity64_eq hp hn, calculateBwCapacity_spec pageSize neighbors, ?_⟩
  rw [← totalUsed_capacity_le_iff]
  constructor
  · intro hchecks
    by_contra hused
    apply hchecks 0
    rw [buildChecks, if_neg (Nat.not_lt_zero _), if_pos (Nat.not_le.1 hused)]
  · intro hused blocks
    unfold buildChecks
    split
    · simp
    · rw [if_neg (Nat.not_lt.2 hused)]
      simp

theorem calculateBwCapacity_exact_page :
    calculateBwCapacity64 16384 16 = some (calculateBwCapacity 16384 16) ∧
      ((∀ b, ¬ indexBytes 16 b < 16384) ∧ calculateBwCapacity 16384 16 = 0 ∨
        IsGreatest {b | indexBytes 16 b < 16384} (calculateBwCapacity 16384 16)) ∧
      ((∀ blocks, buildChecks 16384 16 (calculateBwCapacity 16384 16) blocks ≠
          .error "Index page size exceeded while building block bitmap") ↔
        (3 + 16) * 4 ≤ 16384) :=
  calculateBwCapacity_exact (by decide) (by decide)

/-- A page of eight bytes: the capacity is 0, and the builder refuses the empty map. -/
theorem buildChecks_small_page :
    ¬ ∀ pageSize neighbors, pageSize < 2 ^ 32 → neighbors < 2 ^ 32 → ∀ blocks,
      buildChecks pageSize neighbors (calculateBwCapacity pageSize neighbors) blocks ≠
        .error "Index page size exceeded while building block bitmap" := by
  intro h
  apply h 8 0 (by decide) (by decide) 0
  rfl

end BwGraph
