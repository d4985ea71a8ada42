import BwGraph.Common.Type

/-
  The two neighbour encodings. `ptv_codec.h`: a prefixed-tag vertex id takes one to four bytes,
  the two top bits of the first byte telling how many. Raw pages store little-endian 32-bit
  words. Both round trip: `ptvRead_ptvWrite` for ids below 2^30 (the 30 value bits of the widest
  form) and `wordRead_wordWrite` for every 32-bit id; `ptvReads_append` and `wordReads_append`
  carry this to a list inside a page. A byte past the data reads as zero.
-/

namespace BwGraph

/-! ## Prefixed-tag vertex ids -/

/-- `ptv_encoded_size`. -/
def ptvEncodedSize (id : Nat) : Nat :=
  if id < 1 <<< 6 then 1 else if id < 1 <<< 14 then 2 else if id < 1 <<< 22 then 3 else 4

/-- `static_cast<uint8_t>`. -/
def byte (n : Nat) : Nat := n % 256

/-- `ptv_write`: the bytes written. -/
def ptvWrite (id : Nat) : List Nat :=
  match ptvEncodedSize id with
  | 1 => [byte id]
  | 2 => [byte (0x40 ||| id >>> 8), byte id]
  | 3 => [byte (0x80 ||| id >>> 16), byte (id >>> 8), byte id]
  | _ => [byte (0xC0 ||| id >>> 24), byte (id >>> 16), byte (id >>> 8), byte id]

/-- `ptv_write_slot`. -/
def ptvWriteSlot (id : Nat) : List Nat :=
  [byte (0xC0 ||| id >>> 24), byte (id >>> 16), byte (id >>> 8), byte id]

/-- `ptv_read`: the id and the bytes consumed. -/
def ptvRead (buf : List Nat) : Nat × Nat :=
  let b0 := buf.getD 0 0
  let b1 := buf.getD 1 0
  let b2 := buf.getD 2 0
  let b3 := buf.getD 3 0
  match (b0 >>> 6) &&& 0x3 with
  | 0 => (b0 &&& 0x3F, 1)
  | 1 => ((b0 &&& 0x3F) <<< 8 ||| b1, 2)
  | 2 => ((b0 &&& 0x3F) <<< 16 ||| b1 <<< 8 ||| b2, 3)
  | _ => ((b0 &&& 0x3F) <<< 24 ||| b1 <<< 16 ||| b2 <<< 8 ||| b3, 4)

/-- Iterating a `ptv_neighbor_range_t` of `count` entries. -/
def ptvReads : Nat → List Nat → List VId
  | 0, _ => []
  | count + 1, buf =>
    let (id, sz) := ptvRead buf
    id :: ptvReads count (buf.drop sz)

/-! ## Raw words -/

/-- A `v_id_t` in memory. -/
def wordWrite (id : Nat) : List Nat :=
  [byte id, byte (id >>> 8), byte (id >>> 16), byte (id >>> 24)]

/-- The `v_id_t` at the start of a buffer. -/
def wordRead (buf : List Nat) : Nat :=
  buf.getD 0 0 ||| buf.getD 1 0 <<< 8 ||| buf.getD 2 0 <<< 16 ||| buf.getD 3 0 <<< 24

/-- The span of `count` words at the start of a buffer. -/
def wordReads : Nat → List Nat → List VId
  | 0, _ => []
  | count + 1, buf => wordRead buf :: wordReads count (buf.drop 4)

/-! ## Round trips -/

open List Nat

theorem shiftLeft_or {a b i : Nat} (hb : b < 2 ^ i) : a <<< i ||| b = a * 2 ^ i + b := by
  rw [shiftLeft_eq, Nat.mul_comm, ← two_pow_add_eq_or_of_lt hb]

/-- Two bytes joined. -/
theorem join2 {b1 : Nat} (b0 : Nat) (h1 : b1 < 256) : b0 <<< 8 ||| b1 = b0 * 256 + b1 :=
  shiftLeft_or (i := 8) h1

/-- Three bytes joined, the highest one first. -/
theorem join3 {b1 b2 : Nat} (b0 : Nat) (h1 : b1 < 256) (h2 : b2 < 256) :
    b0 <<< 16 ||| b1 <<< 8 ||| b2 = b0 * 65536 + b1 * 256 + b2 := by
  rw [Nat.or_assoc, join2 b1 h2, shiftLeft_or (i := 16) (by omega)]
  omega

/-- Four bytes joined, the highest one first. -/
theorem join4 {b1 b2 b3 : Nat} (b0 : Nat) (h1 : b1 < 256) (h2 : b2 < 256) (h3 : b3 < 256) :
    b0 <<< 24 ||| b1 <<< 16 ||| b2 <<< 8 ||| b3 =
      b0 * 16777216 + b1 * 65536 + b2 * 256 + b3 := by
  rw [Nat.or_assoc, Nat.or_assoc, ← Nat.or_assoc (b1 <<< 16), join3 b1 h2 h3,
    shiftLeft_or (i := 24) (by omega)]
  omega

theorem byte_lt (n : Nat) : byte n < 256 := mod_lt _ (by decide)

theorem byte_shiftRight (n i : Nat) : byte (n >>> i) = n / 2 ^ i % 256 := by
  rw [byte, shiftRight_eq_div_pow]

variable {t h : Nat}

/-- A tag in the two top bits of a byte. -/
theorem tag_or (hh : h < 64) : (t * 64) ||| h = t * 64 + h := by
  rw [Nat.mul_comm]
  exact (two_pow_add_eq_or_of_lt (i := 6) hh t).symm

theorem and_low6 (n : Nat) : n &&& 0x3F = n % 64 := and_two_pow_sub_one_eq_mod n 6

theorem tag_of_byte (ht : t < 4) (hh : h < 64) : ((t * 64 + h) >>> 6) &&& 0x3 = t := by
  rw [shiftRight_eq_div_pow, show (0x3 : Nat) = 2 ^ 2 - 1 from rfl,
    and_two_pow_sub_one_eq_mod]
  omega

theorem ptvRead_tagged (ht : t < 4) (hh : h < 64) (rest : List Nat) :
    ptvRead ((t * 64 + h) :: rest) =
      if t = 0 then (h, 1)
      else if t = 1 then (h <<< 8 ||| rest.getD 0 0, 2)
      else if t = 2 then (h <<< 16 ||| rest.getD 0 0 <<< 8 ||| rest.getD 1 0, 3)
      else (h <<< 24 ||| rest.getD 0 0 <<< 16 ||| rest.getD 1 0 <<< 8 ||| rest.getD 2 0, 4) := by
  have hlow : (t * 64 + h) &&& 0x3F = h := by rw [and_low6]; omega
  unfold ptvRead
  simp only [getD_cons_zero, getD_cons_succ, tag_of_byte ht hh, hlow]
  match t, ht with
  | 0, _ => rfl
  | 1, _ => rfl
  | 2, _ => rfl
  | 3, _ => rfl

theorem ptvWrite_length (id : Nat) : (ptvWrite id).length = ptvEncodedSize id := by
  unfold ptvWrite ptvEncodedSize
  split_ifs <;> rfl

/-- The first byte of an encoded id carries the tag and the top bits of the id. -/
theorem byte_tag (ht : t < 4) (hh : h < 64) : byte (t * 64 ||| h) = t * 64 + h := by
  rw [tag_or hh, byte]
  omega

theorem ptvRead_ptvWrite {id : Nat} (hid : id < 2 ^ 30) (rest : List Nat) :
    ptvRead (ptvWrite id ++ rest) = (id, ptvEncodedSize id) := by
  have hid' : id < 1073741824 := hid
  unfold ptvWrite ptvEncodedSize
  rw [show (1 : Nat) <<< 6 = 64 from rfl, show (1 : Nat) <<< 14 = 16384 from rfl,
    show (1 : Nat) <<< 22 = 4194304 from rfl]
  split_ifs with h1 h2 h3
  · have hb : byte id = 0 * 64 + id := by rw [byte]; omega
    simp only [cons_append, nil_append, hb]
    rw [ptvRead_tagged (by omega) h1, if_pos rfl]
  · have hb : byte (0x40 ||| id >>> 8) = 1 * 64 + id / 2 ^ 8 := by
      rw [shiftRight_eq_div_pow]
      exact byte_tag (t := 1) (by omega) (by omega)
    simp only [cons_append, nil_append, hb]
    rw [ptvRead_tagged (by omega) (by omega), if_neg (by decide), if_pos rfl]
    simp only [getD_cons_zero]
    rw [join2 _ (byte_lt _), byte]
    exact Prod.ext (by dsimp only; omega) rfl
  · have hb : byte (0x80 ||| id >>> 16) = 2 * 64 + id / 2 ^ 16 := by
      rw [shiftRight_eq_div_pow]
      exact byte_tag (t := 2) (by omega) (by omega)
    simp only [cons_append, nil_append, hb]
    rw [ptvRead_tagged (by omega) (by omega), if_neg (by decide), if_neg (by decide), if_pos rfl]
    simp only [getD_cons_zero, getD_cons_succ]
    rw [join3 _ (byte_lt _) (byte_lt _), byte_shiftRight, byte]
    exact Prod.ext (by dsimp only; omega) rfl
  · have hb : byte (0xC0 ||| id >>> 24) = 3 * 64 + id / 2 ^ 24 := by
      rw [shiftRight_eq_div_pow]
      exact byte_tag (t := 3) (by omega) (by omega)
    simp only [cons_append, nil_append, hb]
    rw [ptvRead_tagged (by omega) (by omega), if_neg (by decide), if_neg (by decide),
      if_neg (by decide)]
    simp only [getD_cons_zero, getD_cons_succ]
    rw [join4 _ (byte_lt _) (byte_lt _) (byte_lt _), byte_shiftRight, byte_shiftRight, byte]
    exact Prod.ext (by dsimp only; omega) rfl

variable (ids : List VId)

/-- A list of ids written one after another is read back, whatever follows it. -/
theorem ptvReads_append (hids : ∀ d ∈ ids, d < 2 ^ 30) (rest : List Nat) :
    ptvReads ids.length (ids.flatMap ptvWrite ++ rest) = ids := by
  induction ids with
  | nil => rfl
  | cons d ids ih =>
    have hd := ptvRead_ptvWrite (hids d mem_cons_self) (ids.flatMap ptvWrite ++ rest)
    simp only [length_cons, ptvReads, flatMap_cons, append_assoc, hd]
    rw [← ptvWrite_length, drop_left, ih fun x hx => hids x (mem_cons_of_mem _ hx)]

theorem or_reverse (a b c d : Nat) : a ||| b ||| c ||| d = d ||| c ||| b ||| a := by
  rw [Nat.or_comm, Nat.or_comm (a ||| b), Nat.or_comm a, Nat.or_assoc (d ||| c), Nat.or_assoc d]

theorem wordRead_wordWrite {id : Nat} (hid : id < 2 ^ 32) (rest : List Nat) :
    wordRead (wordWrite id ++ rest) = id := by
  have hid' : id < 4294967296 := hid
  unfold wordRead wordWrite
  simp only [cons_append, nil_append, getD_cons_zero, getD_cons_succ]
  rw [or_reverse, join4 _ (byte_lt _) (byte_lt _) (byte_lt _), byte_shiftRight, byte_shiftRight,
    byte_shiftRight, byte]
  omega

theorem wordReads_append (hids : ∀ d ∈ ids, d < 2 ^ 32) (rest : List Nat) :
    wordReads ids.length (ids.flatMap wordWrite ++ rest) = ids := by
  induction ids with
  | nil => rfl
  | cons d ids ih =>
    have hd := wordRead_wordWrite (hids d mem_cons_self) (ids.flatMap wordWrite ++ rest)
    simp only [length_cons, wordReads, flatMap_cons, append_assoc, hd]
    have hdrop : (wordWrite d ++ (ids.flatMap wordWrite ++ rest)).drop 4 =
        ids.flatMap wordWrite ++ rest := rfl
    rw [hdrop, ih fun x hx => hids x (mem_cons_of_mem _ hx)]

theorem length_flatMap_wordWrite : (ids.flatMap wordWrite).length = 4 * ids.length := by
  induction ids with
  | nil => rfl
  | cons d ids ih =>
    rw [flatMap_cons, length_append, ih]
    simp [wordWrite]; omega

end BwGraph
