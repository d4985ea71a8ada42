import Mathlib.Data.Nat.Bitwise
import Mathlib.Data.List.Basic

/-
  Two ways of writing numbers as bytes and small numbers. A varint holds seven bits of a value in
  each byte, the low ones first, and sets the top bit in all bytes but the last; a reader of fixed
  width gives the value back and stops behind it (`Varint.read_write`). Differences modulo `m`
  describe a list of numbers below `m` by its first number, and summing them up gives the list
  back (`Varint.sums_differences`).
-/

namespace Varint

/-- The bytes of a value. -/
def write (v : Nat) : List Nat :=
  if h : v < 0x80 then [v &&& 0x7F]
  else ((v &&& 0x7F) ||| 0x80) :: write (v >>> 7)
termination_by v
decreasing_by
  rw [Nat.shiftRight_eq_div_pow]
  exact Nat.div_lt_self (by omega) (by decide)

/-- A reader of `w` bits: the value with the bits of the first bytes, and what is behind it. -/
def read (w : Nat) : Nat → Nat → List Nat → Nat × List Nat
  | _, value, [] => (value, [])
  | shift, value, b :: bs =>
    let value' := value ||| ((b &&& 0x7F) <<< shift) % 2 ^ w
    if b &&& 0x80 = 0 then (value', bs) else read w (shift + 7) value' bs

theorem and_7F (v : Nat) : v &&& 0x7F = v % 128 := Nat.and_two_pow_sub_one_eq_mod v 7

variable {v : Nat}

theorem or_80 (h : v < 128) : v ||| 0x80 = v + 128 := by
  have := Nat.two_pow_add_eq_or_of_lt (i := 7) h 1
  rw [Nat.mul_one] at this
  rw [Nat.or_comm]
  show 2 ^ 7 ||| v = v + 128
  rw [← this]
  omega

theorem and_80_of_lt (h : v < 128) : v &&& 0x80 = 0 := by
  apply Nat.eq_of_testBit_eq
  intro i
  rw [Nat.testBit_and, Nat.zero_testBit, show (0x80 : Nat) = 2 ^ 7 from rfl, Nat.testBit_two_pow]
  by_cases hi : 7 = i
  · subst hi
    rw [Nat.testBit_lt_two_pow h]
    rfl
  · simp [hi]

theorem and_80_of_ge (h : v < 128) : (v + 128) &&& 0x80 ≠ 0 := by
  intro h0
  have hbit := congrArg (fun x => x.testBit 7) h0
  rw [← or_80 h] at hbit
  simp only [Nat.testBit_and, Nat.testBit_or, Nat.zero_testBit] at hbit
  rw [Nat.testBit_lt_two_pow (show v < 2 ^ 7 from h)] at hbit
  exact absurd hbit (by decide)

/-- The next seven bits go above the bits read so far. -/
theorem or_shift {w shift value x : Nat} (hv : value < 2 ^ shift) (hx : x * 2 ^ shift < 2 ^ w) :
    value ||| (x <<< shift) % 2 ^ w = value + x * 2 ^ shift := by
  have h := Nat.shiftLeft_add_eq_or_of_lt hv x
  rw [Nat.shiftLeft_eq] at h ⊢
  rw [Nat.mod_eq_of_lt hx, Nat.or_comm, ← h, Nat.add_comm]

/-- A written value is read back, added to what was read before. -/
theorem read_write {w : Nat} (v shift value : Nat) (hv : value < 2 ^ shift)
    (hw : v * 2 ^ shift < 2 ^ w) (rest : List Nat) :
    read w shift value (write v ++ rest) = (value + v * 2 ^ shift, rest) := by
  induction v using Nat.strong_induction_on generalizing shift value with
  | _ v ih =>
    unfold write
    split_ifs with hlt
    · have hmod : v % 128 = v := Nat.mod_eq_of_lt hlt
      rw [List.singleton_append, read, and_7F, and_7F, hmod, hmod, if_pos (and_80_of_lt hlt),
        or_shift hv hw]
    · have hlow : v % 128 < 128 := Nat.mod_lt v (by decide)
      have hmod : (v % 128 + 128) % 128 = v % 128 := by omega
      have hsplit : v = v % 128 + v / 128 * 128 := by omega
      have hpow : (2 : Nat) ^ (shift + 7) = 2 ^ shift * 128 := Nat.pow_add 2 shift 7
      have hlow_lt : v % 128 * 2 ^ shift < 2 ^ w :=
        Nat.lt_of_le_of_lt (Nat.mul_le_mul_right _ (Nat.mod_le v 128)) hw
      rw [List.cons_append, read, and_7F v, or_80 hlow, and_7F, hmod, if_neg (and_80_of_ge hlow),
        or_shift hv hlow_lt, Nat.shiftRight_eq_div_pow]
      have hhigh : v / 128 * 2 ^ (shift + 7) ≤ v * 2 ^ shift := by
        rw [hpow, Nat.mul_comm (2 ^ shift), ← Nat.mul_assoc]
        exact Nat.mul_le_mul_right _ (Nat.div_mul_le_self v 128)
      have hvalue : value + v % 128 * 2 ^ shift < 2 ^ (shift + 7) := by
        have : v % 128 * 2 ^ shift ≤ 127 * 2 ^ shift := Nat.mul_le_mul_right _ (by omega)
        omega
      rw [ih (v / 2 ^ 7) (Nat.div_lt_self (by omega) (by decide)) (shift + 7) _ hvalue
        (Nat.lt_of_le_of_lt hhigh hw)]
      congr 1
      rw [show v / 2 ^ 7 = v / 128 from rfl, hpow, Nat.add_assoc]
      congr 1
      calc v % 128 * 2 ^ shift + v / 128 * (2 ^ shift * 128)
          = (v % 128 + v / 128 * 128) * 2 ^ shift := by
            rw [Nat.add_mul, Nat.mul_assoc, Nat.mul_comm (2 ^ shift) 128]
        _ = v * 2 ^ shift := by rw [← hsplit]

/-! ## Differences -/

/-- The differences of neighbours, modulo `m`. -/
def differences (m : Nat) : Nat → List Nat → List Nat
  | _, [] => []
  | prev, v :: vs => (v + (m - prev)) % m :: differences m v vs

/-- The sums of the first differences. -/
def sums (m : Nat) : Nat → List Nat → List Nat
  | _, [] => []
  | current, d :: ds => (current + d) % m :: sums m ((current + d) % m) ds

theorem sums_differences {m prev : Nat} {vs : List Nat} (hp : prev < m) (h : ∀ v ∈ vs, v < m) :
    sums m prev (differences m prev vs) = vs := by
  induction vs generalizing prev with
  | nil => rfl
  | cons v vs ih =>
    have hv := h v List.mem_cons_self
    have hstep : (prev + (v + (m - prev)) % m) % m = v := by
      rw [Nat.add_mod_mod, show prev + (v + (m - prev)) = v + m by omega, Nat.add_mod_right,
        Nat.mod_eq_of_lt hv]
    rw [differences, sums, hstep, ih hv fun u hu => h u (List.mem_cons_of_mem v hu)]

theorem differences_lt {m : Nat} (hm : 0 < m) (prev : Nat) (vs : List Nat) :
    ∀ d ∈ differences m prev vs, d < m := by
  induction vs generalizing prev with
  | nil => simp [differences]
  | cons v vs ih =>
    intro d hd
    rcases List.mem_cons.1 hd with rfl | hd
    · exact Nat.mod_lt _ hm
    · exact ih v d hd

theorem length_differences (m prev : Nat) (vs : List Nat) :
    (differences m prev vs).length = vs.length := by
  induction vs generalizing prev with
  | nil => rfl
  | cons v vs ih => rw [differences, List.length_cons, List.length_cons, ih]

end Varint
