import BwGraph.Common.PtvCodec
import BwGraph.Lib.Bytes

/-
  Writing and iterating a PTV stream in place (`ptv_codec.h`): `ptv_write` and `ptv_write_slot` store
  into a buffer, `ptv_neighbor_iter_t` walks over it with a pointer and the number of entries left.
  The number is a `uint32_t`. `collect_written`: what was written one after another is what the
  iterator yields, and it stops right behind the last byte written.
-/

namespace BwGraph

open Bytes List Nat

/-! ## The writers -/

/-- `ptv_write` into a buffer: the buffer and the number of bytes. -/
def ptvWriteAt (buf : List Nat) (pos : Nat) (id : VId) : List Nat × Nat :=
  (poke buf pos (ptvWrite id), ptvEncodedSize id)

/-- `ptv_write_slot` into a buffer. -/
def ptvWriteSlotAt (buf : List Nat) (pos : Nat) (id : VId) : List Nat :=
  poke buf pos (ptvWriteSlot id)

/-- `written += ptv_write(buf + written, id)` for every id. -/
def ptvWriteIds : List VId → List Nat × Nat → List Nat × Nat
  | [], st => st
  | id :: ids, (buf, written) =>
    let (buf', sz) := ptvWriteAt buf written id
    ptvWriteIds ids (buf', written + sz)

/-- `ptv_write_slot(buf + written, id)` and `written += 4` for every slot. -/
def ptvWriteSlots : List VId → List Nat × Nat → List Nat × Nat
  | [], st => st
  | id :: ids, (buf, written) => ptvWriteSlots ids (ptvWriteSlotAt buf written id, written + 4)

variable (ids : List VId)

theorem ptvWriteIds_eq (buf : List Nat) (written : Nat) :
    ptvWriteIds ids (buf, written) =
      (poke buf written (ids.flatMap ptvWrite), written + (ids.map ptvEncodedSize).sum) := by
  induction ids generalizing buf written with
  | nil => rfl
  | cons id ids ih =>
    have hstep : ptvWriteIds (id :: ids) (buf, written) =
        ptvWriteIds ids (poke buf written (ptvWrite id), written + ptvEncodedSize id) := rfl
    rw [hstep, ih, flatMap_cons, ← poke_poke, ptvWrite_length, map_cons, sum_cons,
      Nat.add_assoc]

theorem ptvWriteSlots_eq (buf : List Nat) (written : Nat) :
    ptvWriteSlots ids (buf, written) =
      (poke buf written (ids.flatMap ptvWriteSlot), written + 4 * ids.length) := by
  induction ids generalizing buf written with
  | nil => rfl
  | cons id ids ih =>
    have hlen : written + 4 + 4 * ids.length = written + 4 * (id :: ids).length := by
      rw [length_cons]
      omega
    rw [ptvWriteSlots, ptvWriteSlotAt, ih, flatMap_cons, ← poke_poke, hlen]
    rfl

theorem length_flatMap_ptvWrite : (ids.flatMap ptvWrite).length = (ids.map ptvEncodedSize).sum := by
  rw [length_flatMap]
  congr 1
  exact map_congr_left fun id _ => ptvWrite_length id

theorem length_flatMap_ptvWriteSlot : (ids.flatMap ptvWriteSlot).length = 4 * ids.length := by
  induction ids with
  | nil => rfl
  | cons id ids ih =>
    rw [flatMap_cons, length_append, ih, length_cons]
    show 4 + 4 * ids.length = 4 * (ids.length + 1)
    omega

/-! ## The iterator -/

/-- `ptv_neighbor_iter_t`; `ptr` is the position in the buffer. -/
structure PtvNeighborIter where
  ptr : Nat
  remaining : UInt32
  deriving DecidableEq, Repr

/-- `ptv_neighbor_range_t`. -/
structure PtvNeighborRange where
  data : Nat
  count : UInt32
  deriving DecidableEq, Repr

namespace PtvNeighborIter

/-- `has_next`. -/
def hasNext (it : PtvNeighborIter) : Bool := it.remaining > 0

/-- `operator*`. -/
def deref (buf : List Nat) (it : PtvNeighborIter) : VId := (ptvRead (buf.drop it.ptr)).1

/-- `operator++`. -/
def incr (buf : List Nat) (it : PtvNeighborIter) : PtvNeighborIter :=
  ⟨it.ptr + (ptvRead (buf.drop it.ptr)).2, it.remaining - 1⟩

/-- `next`. -/
def next (buf : List Nat) (it : PtvNeighborIter) : VId × PtvNeighborIter :=
  let (id, sz) := ptvRead (buf.drop it.ptr)
  (id, ⟨it.ptr + sz, it.remaining - 1⟩)

theorem next_eq (buf : List Nat) (it : PtvNeighborIter) :
    it.next buf = (it.deref buf, it.incr buf) := rfl

theorem toNat_sub_one {r : UInt32} (h : r ≠ 0) : (r - 1).toNat = r.toNat - 1 := by
  have hpos : r.toNat ≠ 0 := fun h0 => h (UInt32.toNat_inj.1 (by simpa using h0))
  have hle : (1 : UInt32) ≤ r := by
    rw [UInt32.le_iff_toNat_le]
    exact Nat.one_le_iff_ne_zero.2 hpos
  rw [UInt32.toNat_sub_of_le _ _ hle]
  rfl

/-- The loop `for (id : range)`, which compares the numbers of entries left: what it sees, and the
iterator at the end. -/
def collect (buf : List Nat) (it : PtvNeighborIter) : List VId × PtvNeighborIter :=
  if it.remaining = 0 then ([], it)
  else
    let (ids, last) := collect buf (it.incr buf)
    (it.deref buf :: ids, last)
termination_by it.remaining.toNat
decreasing_by
  rename_i h
  have hpos : it.remaining.toNat ≠ 0 := fun h0 => h (UInt32.toNat_inj.1 (by simpa using h0))
  show (it.remaining - 1).toNat < it.remaining.toNat
  rw [toNat_sub_one h]
  omega

variable {it : PtvNeighborIter}

variable {n : Nat}

section

variable (h : it.remaining.toNat = n + 1)
include h

theorem remaining_ne_zero : it.remaining ≠ 0 := by
  intro h0
  rw [h0] at h
  cases h

/-- `operator++` leaves one entry less. -/
theorem incr_remaining (buf : List Nat) : (it.incr buf).remaining.toNat = n := by
  show (it.remaining - 1).toNat = n
  rw [toNat_sub_one (remaining_ne_zero h)]
  omega

omit h in
/-- With no entry left. -/
theorem collect_done (h : it.remaining.toNat = 0) (buf : List Nat) : it.collect buf = ([], it) := by
  have h0 : it.remaining = 0 := UInt32.toNat_inj.1 (by simpa using h)
  rw [collect, if_pos h0]

/-- With one entry left more. -/
theorem collect_step (buf : List Nat) : it.collect buf =
      (it.deref buf :: ((it.incr buf).collect buf).1, ((it.incr buf).collect buf).2) := by
  rw [collect, if_neg (remaining_ne_zero h)]

end

/-- The entries are those that `ptvReads` decodes. -/
theorem collect_fst (buf : List Nat) (it : PtvNeighborIter) :
    (it.collect buf).1 = ptvReads it.remaining.toNat (buf.drop it.ptr) := by
  generalize hn : it.remaining.toNat = n
  induction n generalizing it with
  | zero =>
    rw [collect_done hn]
    rfl
  | succ n ih =>
    rw [collect_step hn, ptvReads]
    simp only [ih (it.incr buf) (incr_remaining hn buf), drop_drop]
    rfl

end PtvNeighborIter

namespace PtvNeighborRange

/-- `begin`. -/
def begin (range : PtvNeighborRange) : PtvNeighborIter := ⟨range.data, range.count⟩

/-- Iterating the range. -/
def collect (buf : List Nat) (range : PtvNeighborRange) : List VId × PtvNeighborIter :=
  range.begin.collect buf

theorem collect_fst (buf : List Nat) (range : PtvNeighborRange) :
    (range.collect buf).1 = ptvReads range.count.toNat (buf.drop range.data) :=
  PtvNeighborIter.collect_fst buf range.begin

end PtvNeighborRange

/-! ## The stream is read back -/

open PtvNeighborIter

theorem ptvRead_ptvWriteSlot {id : Nat} (hid : id < 2 ^ 30) (rest : List Nat) :
    ptvRead (ptvWriteSlot id ++ rest) = (id, 4) := by
  have hid' : id < 1073741824 := hid
  have hb : byte (0xC0 ||| id >>> 24) = 3 * 64 + id / 2 ^ 24 := by
    rw [shiftRight_eq_div_pow]
    exact byte_tag (t := 3) (by omega) (by omega)
  unfold ptvWriteSlot
  simp only [cons_append, nil_append, hb]
  rw [ptvRead_tagged (by omega) (by omega), if_neg (by decide), if_neg (by decide),
    if_neg (by decide)]
  simp only [getD_cons_zero, getD_cons_succ]
  rw [join4 _ (byte_lt _) (byte_lt _) (byte_lt _), byte_shiftRight, byte_shiftRight, byte]
  exact Prod.ext (by dsimp only; omega) rfl

/-- The bytes of an entry are read back as its id, whatever follows them. -/
def PtvReadsBack (entry : VId × List Nat) : Prop :=
  ∀ rest, ptvRead (entry.2 ++ rest) = (entry.1, entry.2.length)

/-- An entry takes at most four bytes. -/
theorem ptvRead_snd_le (buf : List Nat) : (ptvRead buf).2 ≤ 4 := by
  unfold ptvRead
  dsimp only
  split <;> exact le_of_ble_eq_true rfl

/-- The iterator ends at most four bytes an entry further on. -/
theorem collect_ptr_le (buf : List Nat) (it : PtvNeighborIter) :
    it.ptr ≤ (it.collect buf).2.ptr ∧
      (it.collect buf).2.ptr ≤ it.ptr + 4 * it.remaining.toNat := by
  generalize hn : it.remaining.toNat = n
  induction n generalizing it with
  | zero =>
    rw [collect_done hn]
    exact ⟨Nat.le_refl _, Nat.le_add_right _ _⟩
  | succ n ih =>
    have hsz := ptvRead_snd_le (buf.drop it.ptr)
    have hptr : (it.incr buf).ptr = it.ptr + (ptvRead (buf.drop it.ptr)).2 := rfl
    obtain ⟨hlo, hhi⟩ := ih (it.incr buf) (incr_remaining hn buf)
    rw [collect_step hn]
    dsimp only
    omega

/-- Over a stream whose entries are read with their lengths the iterator ends behind it. -/
theorem collect_ptr_chunks {chunks : List (List Nat)}
    (hsz : ∀ c ∈ chunks, ∀ rest, (ptvRead (c ++ rest)).2 = c.length) {buf : List Nat}
    {it : PtvNeighborIter} (hcount : it.remaining.toNat = chunks.length) {rest : List Nat}
    (hbuf : buf.drop it.ptr = chunks.flatten ++ rest) :
    (it.collect buf).2.ptr = it.ptr + chunks.flatten.length := by
  induction chunks generalizing it with
  | nil =>
    rw [collect_done hcount]
    rfl
  | cons c chunks ih =>
    rw [length_cons] at hcount
    rw [flatten_cons, append_assoc] at hbuf
    have hread := hsz c mem_cons_self (chunks.flatten ++ rest)
    rw [← hbuf] at hread
    have hptr : (it.incr buf).ptr = it.ptr + c.length := by
      rw [PtvNeighborIter.incr, hread]
    have hdrop : buf.drop (it.incr buf).ptr = chunks.flatten ++ rest := by
      rw [hptr, ← drop_drop, hbuf, drop_left]
    rw [collect_step hcount, flatten_cons, length_append, ← Nat.add_assoc,
      ← hptr]
    exact ih (fun c hc => hsz c (mem_cons_of_mem _ hc)) (incr_remaining hcount buf) hdrop

/-- The tag of four bytes stays, whatever else is in the first byte. -/
theorem byte_top_tag (n : Nat) : byte (0xC0 ||| n) = 3 * 64 + n % 64 := by
  have hsplit : n % 256 = n / 64 % 4 * 64 ||| n % 64 := by
    rw [tag_or (mod_lt n (by decide))]
    omega
  have htop : ∀ q, q < 4 → 0xC0 ||| q * 64 = 3 * 64 := by decide
  have hbyte : byte (0xC0 ||| n) = 0xC0 ||| n % 256 := or_mod_two_pow (n := 8)
  rw [hbyte, hsplit, ← Nat.or_assoc, htop _ (mod_lt _ (by decide)),
    tag_or (mod_lt n (by decide))]

/-- An encoded id is read with its own length, also where its value does not fit the 30 bits. -/
theorem ptvRead_ptvWrite_snd (id : Nat) (rest : List Nat) :
    (ptvRead (ptvWrite id ++ rest)).2 = (ptvWrite id).length := by
  by_cases hid : id < 2 ^ 30
  · rw [ptvRead_ptvWrite hid, ptvWrite_length]
  · have h6 : ¬ id < 1 <<< 6 := by rw [show (1 : Nat) <<< 6 = 64 from rfl]; omega
    have h14 : ¬ id < 1 <<< 14 := by rw [show (1 : Nat) <<< 14 = 16384 from rfl]; omega
    have h22 : ¬ id < 1 <<< 22 := by rw [show (1 : Nat) <<< 22 = 4194304 from rfl]; omega
    have hsize : ptvEncodedSize id = 4 := by
      rw [ptvEncodedSize, if_neg h6, if_neg h14, if_neg h22]
    have hb := byte_top_tag (id >>> 24)
    rw [ptvWrite_length, hsize]
    unfold ptvWrite
    rw [hsize]
    simp only [cons_append, nil_append, hb]
    rw [ptvRead_tagged (by omega) (mod_lt _ (by decide)), if_neg (by decide),
      if_neg (by decide), if_neg (by decide)]

/-- Over a stream of entries the iterator yields their ids and ends behind their bytes. -/
theorem collect_entries {entries : List (VId × List Nat)} (hback : ∀ e ∈ entries, PtvReadsBack e)
    {buf : List Nat} {it : PtvNeighborIter} (hcount : it.remaining.toNat = entries.length)
    {rest : List Nat} (hbuf : buf.drop it.ptr = entries.flatMap Prod.snd ++ rest) :
    it.collect buf =
      (entries.map Prod.fst, ⟨it.ptr + (entries.flatMap Prod.snd).length, 0⟩) := by
  induction entries generalizing it with
  | nil =>
    have h0 : it.remaining = 0 := UInt32.toNat_inj.1 (by simpa using hcount)
    rw [collect_done hcount, ← h0]
    rfl
  | cons entry entries ih =>
    rw [length_cons] at hcount
    rw [flatMap_cons, append_assoc] at hbuf
    have hread := hback entry mem_cons_self (entries.flatMap Prod.snd ++ rest)
    rw [← hbuf] at hread
    have hptr : (it.incr buf).ptr = it.ptr + entry.2.length := by
      rw [PtvNeighborIter.incr, hread]
    have hdrop : buf.drop (it.incr buf).ptr = entries.flatMap Prod.snd ++ rest := by
      rw [hptr, ← drop_drop, hbuf, drop_left]
    rw [collect_step hcount,
      ih (fun e he => hback e (mem_cons_of_mem _ he)) (incr_remaining hcount buf) hdrop, hptr,
      PtvNeighborIter.deref, hread, map_cons, flatMap_cons, length_append,
      Nat.add_assoc]

/-- The ids and slots written from a position on are what a range of their number there yields. The
iterator ends at the position behind the last byte written, and no other byte of the buffer has
changed; a write of an id returns its encoded size, which is the number of bytes it stores. -/
theorem collect_written (ids slots : List VId) (hids : ∀ d ∈ ids, d < 2 ^ 30)
    (hslots : ∀ d ∈ slots, d < 2 ^ 30) (buf : List Nat) (pos : Nat)
    (hfit : pos + (ids.map ptvEncodedSize).sum + 4 * slots.length ≤ buf.length) (count : UInt32)
    (hcount : count.toNat = ids.length + slots.length) :
    let written := ptvWriteSlots slots (ptvWriteIds ids (buf, pos))
    (PtvNeighborRange.mk pos count).collect written.1 = (ids ++ slots, ⟨written.2, 0⟩) ∧
      written.2 = pos + (ids.map ptvEncodedSize).sum + 4 * slots.length ∧
      (∀ b q d, (ptvWriteAt b q d).2 = ptvEncodedSize d ∧ (ptvWrite d).length = ptvEncodedSize d) ∧
      AgreeOn 0 pos written.1 buf ∧ AgreeOn written.2 buf.length written.1 buf := by
  have hbytes : ptvWriteSlots slots (ptvWriteIds ids (buf, pos)) =
      (poke buf pos (ids.flatMap ptvWrite ++ slots.flatMap ptvWriteSlot),
        pos + (ids.map ptvEncodedSize).sum + 4 * slots.length) := by
    rw [ptvWriteIds_eq, ptvWriteSlots_eq, ← poke_poke, length_flatMap_ptvWrite]
  have hlen : (ids.flatMap ptvWrite ++ slots.flatMap ptvWriteSlot).length =
      (ids.map ptvEncodedSize).sum + 4 * slots.length := by
    rw [List.length_append, length_flatMap_ptvWrite, length_flatMap_ptvWriteSlot]
  have hflat : ((ids.map fun d => (d, ptvWrite d)) ++
      slots.map fun d => (d, ptvWriteSlot d)).flatMap Prod.snd =
      ids.flatMap ptvWrite ++ slots.flatMap ptvWriteSlot := by
    simp [List.flatMap_map]
  have hback : ∀ e ∈ (ids.map fun d => (d, ptvWrite d)) ++ slots.map fun d => (d, ptvWriteSlot d),
      PtvReadsBack e := by
    intro e he rest
    rcases List.mem_append.1 he with he | he
    · obtain ⟨d, hd, rfl⟩ := List.mem_map.1 he
      rw [ptvWrite_length]
      exact ptvRead_ptvWrite (hids d hd) rest
    · obtain ⟨d, hd, rfl⟩ := List.mem_map.1 he
      exact ptvRead_ptvWriteSlot (hslots d hd) rest
  have hdrop : (poke buf pos (ids.flatMap ptvWrite ++ slots.flatMap ptvWriteSlot)).drop
      (PtvNeighborIter.mk pos count).ptr = _ := drop_poke (by dsimp only; omega)
  rw [← hflat] at hdrop
  have hall := collect_entries hback (by simpa using hcount) hdrop
  rw [hflat, hlen] at hall
  rw [hbytes]
  refine ⟨?_, rfl, fun _ _ d => ⟨rfl, ptvWrite_length d⟩, agreeOn_poke buf (.inl (Nat.le_refl _)),
    agreeOn_poke buf (.inr ?_)⟩
  · refine hall.trans (Prod.ext ?_ ?_)
    · simp [Function.comp_def]
    · simp [Nat.add_assoc]
  · rw [hlen]
    dsimp only
    omega

/-- One id of every width and two slots, written behind a byte that stays. -/
theorem collect_written_widths :
    (PtvNeighborRange.mk 1 6).collect
      (ptvWriteSlots [0, 9] (ptvWriteIds [63, 64, 16384, 4194304] (List.replicate 20 7, 1))).1 =
      ([63, 64, 16384, 4194304, 0, 9], ⟨19, 0⟩) :=
  (collect_written [63, 64, 16384, 4194304] [0, 9] (by decide) (by decide) (List.replicate 20 7) 1
    (by decide) 6 (by decide)).1

end BwGraph
