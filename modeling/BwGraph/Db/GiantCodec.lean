import Mathlib.Data.List.Sort
import BwGraph.Io.Index
import BwGraph.Lib.Varint

/-
  How the giant store writes a neighbour list (`giant_vertex_db_t`, `external.cc`), in the default
  build. The list is sorted and turned into differences; groups of four differences are written by
  `folly::GroupVarint32`, the last ones, less than four, as plain varints. In front stand a flag
  and the degree, by which the reader knows how many groups there are.

  `GroupVarint32` is not part of the source: `GroupVarint` is any coding of four words whose reader
  gives the words back and stops behind them. A list written and read back is the list sorted
  (`deserializeNeighbors_serializeNeighbors`).
-/

namespace BwGraph

open List

/-- `folly::GroupVarint32`: the bytes of four words, and the words at the start of a buffer with
what is behind them. -/
structure GroupVarint where
  encode : Nat → Nat → Nat → Nat → List Nat
  decode : List Nat → (Nat × Nat × Nat × Nat) × List Nat
  decode_encode : ∀ a b c d rest, a < 2 ^ 32 → b < 2 ^ 32 → c < 2 ^ 32 → d < 2 ^ 32 →
    decode (encode a b c d ++ rest) = ((a, b, c, d), rest)

/-! ## Writing -/

/-- Steps 2 and 3 of `compress_neighbors`: groups of four, then varints. -/
def compressDeltas (gv : GroupVarint) : List Nat → List Nat
  | a :: b :: c :: d :: deltas => gv.encode a b c d ++ compressDeltas gv deltas
  | deltas => deltas.flatMap Varint.write

/-- `compress_neighbors`: the first value is stored directly, then differences. -/
def compressNeighbors (gv : GroupVarint) : List VId → List Nat
  | [] => []
  | v :: neighbors => compressDeltas gv (v :: Varint.differences (2 ^ 32) v neighbors)

/-- `serialize_neighbors`. -/
def serializeNeighbors (gv : GroupVarint) (neighbors : List VId) : List Nat :=
  if neighbors = [] then []
  else
    let sorted := neighbors.insertionSort (· ≤ ·)
    1 :: (longWrite sorted.length ++ compressNeighbors gv sorted)

/-! ## Reading -/

/-- Step 2 of `decompress_neighbors`: varints. -/
def readVarints : Nat → List Nat → List Nat
  | 0, _ => []
  | n + 1, buf =>
    let (value, buf) := Varint.read 32 0 0 buf
    value :: readVarints n buf

/-- Steps 1 and 2 of `decompress_neighbors`: groups of four, then varints. -/
def decompressDeltas (gv : GroupVarint) : Nat → List Nat → List Nat
  | n + 4, buf =>
    let ((a, b, c, d), buf) := gv.decode buf
    a :: b :: c :: d :: decompressDeltas gv n buf
  | n, buf => readVarints n buf

/-- `decompress_neighbors`. -/
def decompressNeighbors (gv : GroupVarint) (data : List Nat) (degree : Nat) : List VId :=
  match decompressDeltas gv degree data with
  | [] => []
  | first :: deltas => first :: Varint.sums (2 ^ 32) first deltas

/-- `deserialize_neighbors`. -/
def deserializeNeighbors (gv : GroupVarint) (data : List Nat) : Except String (List VId) :=
  match data with
  | [] => .ok []
  | compressionFlag :: rest =>
    if compressionFlag = 1 then
      if data.length < 1 + 8 then .error "Invalid compressed data: missing degree"
      else .ok (decompressNeighbors gv (rest.drop 8) (longRead rest))
    else if compressionFlag = 0 then .ok (wordReads ((data.length - 1) / 4) rest)
    else .error ("Invalid compression flag: " ++ toString compressionFlag)

/-! ## Round trip -/

variable {gv : GroupVarint}

variable {deltas : List Nat}

theorem readVarints_flatMap (h : ∀ d ∈ deltas, d < 2 ^ 32) :
    readVarints deltas.length (deltas.flatMap Varint.write) = deltas := by
  induction deltas with
  | nil => rfl
  | cons d deltas ih =>
    have hd : d * 2 ^ 0 < 2 ^ 32 := by
      have := h d mem_cons_self
      omega
    have hread := Varint.read_write (w := 32) d 0 0 (by decide) hd (deltas.flatMap Varint.write)
    rw [length_cons, flatMap_cons, readVarints, hread]
    dsimp only
    rw [ih fun x hx => h x (mem_cons_of_mem d hx), Nat.pow_zero, Nat.mul_one, Nat.zero_add]

theorem decompressDeltas_small {n : Nat} (hn : n < 4) (buf : List Nat) :
    decompressDeltas gv n buf = readVarints n buf := by
  match n, hn with
  | 0, _ => rfl
  | 1, _ => rfl
  | 2, _ => rfl
  | 3, _ => rfl

/-- The groups and the varints line up for every number of differences. -/
theorem decompressDeltas_compressDeltas (h : ∀ d ∈ deltas, d < 2 ^ 32) :
    decompressDeltas gv deltas.length (compressDeltas gv deltas) = deltas := by
  fun_induction compressDeltas gv deltas with
  | case1 a b c d deltas ih =>
    have hrest : ∀ x ∈ deltas, x < 2 ^ 32 := fun x hx => h x (by simp [hx])
    have hgroup := gv.decode_encode a b c d (compressDeltas gv deltas) (h a (by simp))
      (h b (by simp)) (h c (by simp)) (h d (by simp))
    show decompressDeltas gv (deltas.length + 4) _ = _
    rw [decompressDeltas, hgroup]
    dsimp only
    rw [ih hrest]
  | case2 deltas hsmall =>
    have hlen : deltas.length < 4 := by
      match deltas, hsmall with
      | [], _ => simp
      | [_], _ => simp
      | [_, _], _ => simp
      | [_, _, _], _ => simp
      | a :: b :: c :: d :: ds, hs => exact absurd rfl (hs a b c d ds)
    rw [decompressDeltas_small hlen, readVarints_flatMap h]

variable {ns : List VId}

theorem decompressNeighbors_compressNeighbors (h : ∀ v ∈ ns, v < 2 ^ 32) :
    decompressNeighbors gv (compressNeighbors gv ns) ns.length = ns := by
  cases ns with
  | nil => rfl
  | cons v ns =>
    have hv : v < 2 ^ 32 := h v mem_cons_self
    have hdeltas : ∀ d ∈ v :: Varint.differences (2 ^ 32) v ns, d < 2 ^ 32 := by
      intro d hd
      rcases mem_cons.1 hd with rfl | hd
      · exact hv
      · exact Varint.differences_lt (by decide) v ns d hd
    have hlen : (v :: ns).length = (v :: Varint.differences (2 ^ 32) v ns).length := by
      rw [length_cons, length_cons, Varint.length_differences]
    unfold decompressNeighbors compressNeighbors
    rw [hlen, decompressDeltas_compressDeltas hdeltas]
    show v :: Varint.sums (2 ^ 32) v (Varint.differences (2 ^ 32) v ns) = v :: ns
    rw [Varint.sums_differences hv fun u hu => h u (mem_cons_of_mem v hu)]

theorem deserializeNeighbors_flagged {rest : List Nat} (h : 8 ≤ rest.length) :
    deserializeNeighbors gv (1 :: rest) =
      .ok (decompressNeighbors gv (rest.drop 8) (longRead rest)) := by
  have hlen : ¬ (1 :: rest).length < 1 + 8 := by
    rw [length_cons]
    omega
  show (if (1 :: rest).length < 1 + 8 then _ else _) = _
  rw [if_neg hlen]

/-- What is read is what was written, sorted. -/
theorem deserializeNeighbors_sorted (hns : ∀ v ∈ ns, v < 2 ^ 32) (hlen : ns.length < 2 ^ 64) :
    deserializeNeighbors gv (serializeNeighbors gv ns) = .ok (ns.insertionSort (· ≤ ·)) := by
  by_cases hnil : ns = []
  · subst hnil
    rfl
  · have hperm := perm_insertionSort (· ≤ ·) ns
    have hlength := length_insertionSort (· ≤ ·) ns
    have hsorted : ∀ v ∈ ns.insertionSort (· ≤ ·), v < 2 ^ 32 := fun v hv =>
      hns v (hperm.mem_iff.1 hv)
    have hread := longRead_longWrite (n := (ns.insertionSort (· ≤ ·)).length) (by omega)
      (compressNeighbors gv (ns.insertionSort (· ≤ ·)))
    have hdrop : (longWrite (ns.insertionSort (· ≤ ·)).length ++
        compressNeighbors gv (ns.insertionSort (· ≤ ·))).drop 8 =
        compressNeighbors gv (ns.insertionSort (· ≤ ·)) := drop_left' (length_longWrite _)
    unfold serializeNeighbors
    rw [if_neg hnil]
    dsimp only
    rw [deserializeNeighbors_flagged (by rw [length_append, length_longWrite]; omega), hread,
      hdrop, decompressNeighbors_compressNeighbors hsorted]

/-- Every list of 32-bit ids is read back in ascending order, duplicates included. -/
theorem deserializeNeighbors_serializeNeighbors (gv : GroupVarint) (ns : List VId)
    (hns : ∀ v ∈ ns, v < 2 ^ 32) (hlen : ns.length < 2 ^ 64) :
    ∃ sorted, deserializeNeighbors gv (serializeNeighbors gv ns) = .ok sorted ∧
      sorted.Perm ns ∧ sorted.Pairwise (· ≤ ·) :=
  ⟨_, deserializeNeighbors_sorted hns hlen, List.perm_insertionSort _ ns,
    List.pairwise_insertionSort _ ns⟩

/-! ## The coding of `folly` -/

/-- The low `n` bytes of a word, the lowest first. -/
def bytesLe : Nat → Nat → List Nat
  | 0, _ => []
  | n + 1, x => x % 256 :: bytesLe n (x / 256)

/-- The word of the first `n` bytes of a buffer, and what is behind them. -/
def wordLe : Nat → List Nat → Nat × List Nat
  | 0, buf => (0, buf)
  | n + 1, buf =>
    let (x, rest) := wordLe n (buf.drop 1)
    (buf.headD 0 + 256 * x, rest)

theorem wordLe_bytesLe {n x : Nat} (hx : x < 256 ^ n) (rest : List Nat) :
    wordLe n (bytesLe n x ++ rest) = (x, rest) := by
  induction n generalizing x with
  | zero =>
    have : x = 0 := by simpa using hx
    rw [this]
    rfl
  | succ n ih =>
    have hdiv : x / 256 < 256 ^ n := by
      rw [Nat.pow_succ] at hx
      exact Nat.div_lt_of_lt_mul (by omega)
    show ((bytesLe (n + 1) x ++ rest).headD 0 +
      256 * (wordLe n ((bytesLe (n + 1) x ++ rest).drop 1)).1,
      (wordLe n ((bytesLe (n + 1) x ++ rest).drop 1)).2) = (x, rest)
    rw [bytesLe, cons_append, drop_succ_cons, drop_zero, ih hdiv, headD_cons]
    congr 1
    omega

/-- The number of bytes of a word, less one: two bits of the key byte. -/
def keyOf (x : Nat) : Nat :=
  if x < 2 ^ 8 then 0 else if x < 2 ^ 16 then 1 else if x < 2 ^ 24 then 2 else 3

theorem keyOf_spec {x : Nat} (hx : x < 2 ^ 32) : keyOf x < 4 ∧ x < 256 ^ (keyOf x + 1) := by
  unfold keyOf
  split_ifs
  · exact ⟨by decide, by omega⟩
  · exact ⟨by decide, by omega⟩
  · exact ⟨by decide, by omega⟩
  · exact ⟨by decide, by omega⟩

/-- A key byte with the lengths of the words, then their bytes. -/
def follyGroupVarint : GroupVarint where
  encode a b c d :=
    (keyOf d * 64 + keyOf c * 16 + keyOf b * 4 + keyOf a) :: (bytesLe (keyOf a + 1) a ++
      (bytesLe (keyOf b + 1) b ++ (bytesLe (keyOf c + 1) c ++ bytesLe (keyOf d + 1) d)))
  decode buf :=
    let key := buf.headD 0
    let (a, buf) := wordLe (key % 4 + 1) (buf.drop 1)
    let (b, buf) := wordLe (key / 4 % 4 + 1) buf
    let (c, buf) := wordLe (key / 16 % 4 + 1) buf
    let (d, buf) := wordLe (key / 64 + 1) buf
    ((a, b, c, d), buf)
  decode_encode a b c d rest ha hb hc hd := by
    obtain ⟨ka, ha⟩ := keyOf_spec ha
    obtain ⟨kb, hb⟩ := keyOf_spec hb
    obtain ⟨kc, hc⟩ := keyOf_spec hc
    obtain ⟨kd, hd⟩ := keyOf_spec hd
    set key := keyOf d * 64 + keyOf c * 16 + keyOf b * 4 + keyOf a with hkey
    have h0 : key % 4 = keyOf a := by omega
    have h1 : key / 4 % 4 = keyOf b := by omega
    have h2 : key / 16 % 4 = keyOf c := by omega
    have h3 : key / 64 = keyOf d := by omega
    dsimp only
    rw [List.cons_append, List.headD_cons, List.drop_succ_cons, List.drop_zero, h0, h1, h2, h3]
    simp only [List.append_assoc]
    rw [wordLe_bytesLe ha]
    dsimp only
    rw [wordLe_bytesLe hb]
    dsimp only
    rw [wordLe_bytesLe hc]
    dsimp only
    rw [wordLe_bytesLe hd]

/-- Six ids, one of them twice and one the largest. -/
theorem deserializeNeighbors_serializeNeighbors_six :
    ∃ sorted, deserializeNeighbors follyGroupVarint
        (serializeNeighbors follyGroupVarint [70000, 5, 4294967295, 5, 300, 0]) = .ok sorted ∧
      sorted.Perm [70000, 5, 4294967295, 5, 300, 0] ∧ sorted.Pairwise (· ≤ ·) :=
  deserializeNeighbors_serializeNeighbors follyGroupVarint [70000, 5, 4294967295, 5, 300, 0]
    (by decide) (by decide)

end BwGraph
