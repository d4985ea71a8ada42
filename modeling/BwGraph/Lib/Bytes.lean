import Mathlib.Data.List.GetD

/-
  Byte buffers. `poke` stores bytes one after another; a byte past the end of the buffer is dropped.
  Two buffers agree on a range when they have the same bytes there, and a reader of the first `n`
  bytes (`ReadsFirst`) cannot tell two such buffers apart: what it reads at a position survives every
  store outside its range (`ReadsFirst.poke`). A store that fits is read back as the bytes stored
  followed by what comes behind them (`drop_poke`). Bits are counted from a byte on, the low bit of
  each byte first; setting one changes no other (`bit_setBit`).
-/

namespace Bytes

open List Nat

variable {α : Type}

/-- Store bytes from a position on. -/
def poke : List Nat → Nat → List Nat → List Nat
  | buf, _, [] => buf
  | buf, pos, b :: bs => poke (buf.set pos b) (pos + 1) bs

variable (buf : List Nat) (pos : Nat)

@[simp] theorem poke_nil : poke buf pos [] = buf := rfl

@[simp] theorem length_poke (bs : List Nat) : (poke buf pos bs).length = buf.length := by
  induction bs generalizing buf pos with
  | nil => rfl
  | cons b bs ih => rw [poke, ih, length_set]

/-- Two stores, the second right behind the first. -/
theorem poke_poke (bs cs : List Nat) :
    poke (poke buf pos bs) (pos + bs.length) cs = poke buf pos (bs ++ cs) := by
  induction bs generalizing buf pos with
  | nil => rfl
  | cons b bs ih =>
    rw [cons_append, poke, poke, ← ih]
    congr 1
    rw [length_cons]
    omega

theorem set_poke {buf bs : List Nat} {pos start b : Nat} (h : pos < start) :
    (poke buf start bs).set pos b = poke (buf.set pos b) start bs := by
  induction bs generalizing buf start with
  | nil => rfl
  | cons c bs ih => rw [poke, poke, ih (by omega), set_comm _ _ (by omega)]

/-- A store over another one of the same length. -/
theorem poke_over {bs cs : List Nat} (h : bs.length = cs.length) (buf : List Nat) (pos : Nat) :
    poke (poke buf pos bs) pos cs = poke buf pos cs := by
  induction bs generalizing buf pos cs with
  | nil =>
    rw [length_eq_zero_iff.1 h.symm]
    rfl
  | cons b bs ih =>
    cases cs with
    | nil => cases h
    | cons c cs =>
      rw [poke, poke, set_poke (lt_succ_self pos), set_set, ih (Nat.succ.inj h), poke]

section

variable {buf : List Nat} {pos : Nat} {bs : List Nat} (h : pos + bs.length ≤ buf.length)
include h

/-- A store that fits. -/
theorem poke_eq : poke buf pos bs = buf.take pos ++ (bs ++ buf.drop (pos + bs.length)) := by
  induction bs generalizing buf pos with
  | nil => simp
  | cons b bs ih =>
    rw [length_cons] at h
    have hpos : pos < buf.length := by omega
    rw [poke, ih (by rw [length_set]; omega), length_cons,
      drop_set_of_lt (by omega), set_eq_take_append_cons_drop, if_pos hpos,
      take_append, length_take, Nat.min_eq_left (by omega), take_take,
      Nat.min_eq_right (by omega)]
    simp [Nat.add_assoc, Nat.add_comm 1]

/-- What is read from where a store that fits begins. -/
theorem drop_poke : (poke buf pos bs).drop pos = bs ++ buf.drop (pos + bs.length) := by
  rw [poke_eq h]
  refine drop_left' ?_
  rw [length_take]
  omega

end

/-- A store behind a position, seen from there. -/
theorem drop_poke_add (buf : List Nat) (pos i : Nat) (bs : List Nat) :
    (poke buf (pos + i) bs).drop pos = poke (buf.drop pos) i bs := by
  induction bs generalizing buf i with
  | nil => rfl
  | cons b bs ih =>
    rw [poke, poke, Nat.add_assoc, ih, drop_set, if_neg (by omega), Nat.add_sub_cancel_left]

/-- A store into the front part of a buffer. -/
theorem poke_append {buf rest bs : List Nat} {pos : Nat} (h : pos + bs.length ≤ buf.length) :
    poke (buf ++ rest) pos bs = poke buf pos bs ++ rest := by
  induction bs generalizing buf pos with
  | nil => rfl
  | cons b bs ih =>
    rw [length_cons] at h
    rw [poke, poke, set_append_left _ _ (by omega), ih (by rw [length_set]; omega)]

/-- A store behind the front part of a buffer. -/
theorem poke_append_right (buf rest : List Nat) (pos : Nat) (bs : List Nat) :
    poke (buf ++ rest) (buf.length + pos) bs = buf ++ poke rest pos bs := by
  induction bs generalizing rest pos with
  | nil => rfl
  | cons b bs ih =>
    rw [poke, poke, set_append_right _ _ (by omega), Nat.add_sub_cancel_left, Nat.add_assoc,
      ih]

/-- Nothing changes when a cleared buffer is cleared. -/
theorem poke_zeros (n pos m : Nat) :
    poke (replicate n 0) pos (replicate m 0) = replicate n 0 := by
  induction m generalizing pos with
  | zero => rfl
  | succ m ih => rw [replicate_succ, poke, set_replicate_self, ih]

/-- A store in front of a position is not seen from there. -/
theorem drop_poke_of_le {buf bs : List Nat} {pos k : Nat} (h : pos + bs.length ≤ k) :
    (poke buf pos bs).drop k = buf.drop k := by
  induction bs generalizing buf pos with
  | nil => rfl
  | cons b bs ih =>
    rw [length_cons] at h
    rw [poke, ih (by omega), drop_set_of_lt (by omega)]

theorem getD_set (buf : List Nat) (pos b i : Nat) :
    (buf.set pos b).getD i 0 = if i = pos ∧ pos < buf.length then b else buf.getD i 0 := by
  rw [getD_eq_getElem?_getD, getElem?_set, getD_eq_getElem?_getD]
  by_cases hi : pos = i
  · subst hi
    by_cases hlt : pos < buf.length
    · simp [hlt]
    · simp [hlt]
  · have hi' : i ≠ pos := fun h => hi h.symm
    simp [hi, hi']

/-! ## Agreement -/

/-- The same bytes from `lo` up to `hi`. -/
def AgreeOn (lo hi : Nat) (buf buf' : List Nat) : Prop :=
  ∀ i, lo ≤ i → i < hi → buf.getD i 0 = buf'.getD i 0

theorem AgreeOn.refl (lo hi : Nat) (buf : List Nat) : AgreeOn lo hi buf buf := fun _ _ _ => rfl

theorem AgreeOn.trans {lo hi : Nat} {buf buf' buf'' : List Nat} (h : AgreeOn lo hi buf buf')
    (h' : AgreeOn lo hi buf' buf'') : AgreeOn lo hi buf buf'' :=
  fun i h1 h2 => (h i h1 h2).trans (h' i h1 h2)

variable {buf buf' : List Nat}

theorem AgreeOn.mono {lo hi lo' hi' : Nat} (h : AgreeOn lo hi buf buf') (h1 : lo ≤ lo')
    (h2 : hi' ≤ hi) : AgreeOn lo' hi' buf buf' :=
  fun i hlo hhi => h i (Nat.le_trans h1 hlo) (Nat.lt_of_lt_of_le hhi h2)

/-- A store does not touch what lies before or behind it. -/
theorem agreeOn_poke {lo hi pos : Nat} {bs : List Nat} (buf : List Nat)
    (h : hi ≤ pos ∨ pos + bs.length ≤ lo) : AgreeOn lo hi (poke buf pos bs) buf := by
  induction bs generalizing buf pos with
  | nil => exact .refl lo hi buf
  | cons b bs ih =>
    rw [length_cons] at h
    refine AgreeOn.trans (ih (buf.set pos b) (by omega)) fun i h1 h2 => ?_
    rw [getD_set, if_neg (by omega)]

/-! ## Readers -/

/-- The reader looks at the first `n` bytes only. -/
def ReadsFirst (n : Nat) (read : List Nat → α) : Prop :=
  ∀ buf buf', AgreeOn 0 n buf buf' → read buf = read buf'

theorem getD_drop (buf : List Nat) (pos i : Nat) : (buf.drop pos).getD i 0 = buf.getD (pos + i) 0 := by
  rw [getD_eq_getElem?_getD, getElem?_drop, getD_eq_getElem?_getD]

theorem AgreeOn.drop {pos lo hi : Nat} (h : AgreeOn (pos + lo) (pos + hi) buf buf') :
    AgreeOn lo hi (buf.drop pos) (buf'.drop pos) := by
  intro i h1 h2
  rw [getD_drop, getD_drop]
  exact h (pos + i) (by omega) (by omega)

variable {read : List Nat → α}

theorem ReadsFirst.congr {n pos : Nat} (hr : ReadsFirst n read) (h : AgreeOn pos (pos + n) buf buf') :
    read (buf.drop pos) = read (buf'.drop pos) :=
  hr _ _ (AgreeOn.drop h)

/-- A store outside the range of a reader. -/
theorem ReadsFirst.poke {n pos start : Nat} (hr : ReadsFirst n read) {buf bs : List Nat}
    (h : pos + n ≤ start ∨ start + bs.length ≤ pos) :
    read ((poke buf start bs).drop pos) = read (buf.drop pos) :=
  hr.congr (agreeOn_poke buf h)

theorem ReadsFirst.mono {n m : Nat} (hr : ReadsFirst n read) (h : n ≤ m) :
    ReadsFirst m read := fun _ _ ha => hr _ _ (ha.mono (Nat.le_refl 0) h)

/-! ## Bits -/

/-- The `i`-th bit from a byte on. -/
def bit (buf : List Nat) (pos i : Nat) : Bool := (buf.getD (pos + i / 8) 0).testBit (i % 8)

/-- Set the `i`-th bit from a byte on. -/
def setBit (buf : List Nat) (pos i : Nat) : List Nat :=
  poke buf (pos + i / 8) [buf.getD (pos + i / 8) 0 ||| 1 <<< (i % 8)]

theorem testBit_setBit (x i j : Nat) :
    (x ||| 1 <<< j).testBit i = (x.testBit i || decide (j = i)) := by
  rw [testBit_or, one_shiftLeft, testBit_two_pow]

theorem bit_setBit {buf : List Nat} {pos i : Nat} (h : pos + i / 8 < buf.length) (k : Nat) :
    bit (setBit buf pos i) pos k = (bit buf pos k || decide (i = k)) := by
  unfold bit setBit
  rw [poke, poke_nil, getD_set]
  by_cases hbyte : i / 8 = k / 8
  · rw [if_pos ⟨by omega, h⟩, testBit_setBit, hbyte]
    congr 1
    exact decide_eq_decide.2 (by omega)
  · rw [if_neg (by omega)]
    have hik : i ≠ k := fun hik => hbyte (congrArg (· / 8) hik)
    simp [hik]

theorem bit_congr {pos n : Nat} (h : AgreeOn pos (pos + n) buf buf') {i : Nat} (hi : i < n * 8) :
    bit buf pos i = bit buf' pos i := by
  unfold bit
  rw [h _ (Nat.le_add_right _ _) (by omega)]

theorem bit_of_zeros {buf : List Nat} {pos n i : Nat}
    (h : (buf.drop pos).take n = replicate n 0) (hi : i < n * 8) : bit buf pos i = false := by
  have hbyte : (buf.drop pos)[i / 8]? = some 0 := by
    rw [← getElem?_take_of_lt (by omega : i / 8 < n), h, getElem?_replicate,
      if_pos (by omega)]
  unfold bit
  rw [← getD_drop, getD_eq_getElem?_getD, hbyte]
  exact zero_testBit _

end Bytes
