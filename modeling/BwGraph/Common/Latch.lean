import Mathlib.Algebra.BigOperators.Group.Finset.Basic
import Mathlib.Algebra.Order.BigOperators.Group.Finset
import Mathlib.Algebra.Order.Group.Nat
import Mathlib.Data.Fintype.Basic
import Mathlib.Data.Nat.Bitwise
import BwGraph.Lib.Run

/-
  `rw_latch_t` (`latch.h`): one 32-bit word is the whole latch. It is `WRITE_LOCK_FLAG` while a
  writer holds it and the number of read holds otherwise.

  A client runs one call at a time. The calls with more than one atomic step (`try_r_lock`, a load
  and then compare-exchanges, and `w_to_r_convert_safe`, a load and then a store) keep what they
  have loaded between the steps; `compare_exchange_weak` may also fail without a reason. A run is
  any interleaving of these steps. Clients release, or convert, only what they hold.
-/

namespace BwGraph

open Finset

/-- `WRITE_LOCK_FLAG`. -/
def writeLockFlag : BitVec 32 := 0x80000000#32

/-- `READ_COUNT_MASK`. -/
def readCountMask : BitVec 32 := 0x7FFFFFFF#32

/-- Where a client stands: between two calls, in the loop of `try_r_lock`, or between the load and
the store of `w_to_r_convert_safe`. -/
inductive LatchPc
  | idle
  | tryRLock (expected : BitVec 32)
  | convertSafe (currentState : BitVec 32)
deriving DecidableEq

/-- A client: how often it holds the latch for reading, whether it holds it for writing. -/
structure LatchClient where
  reads : Nat
  writes : Bool
  pc : LatchPc
deriving DecidableEq

/-- The atomic steps. `rCas spurious` is one round of the loop of `try_r_lock`. -/
inductive LatchOp
  | tryWLock
  | wUnlock
  | rLoad
  | rCas (spurious : Bool)
  | rUnlock
  | wToRConvert
  | safeLoad
  | safeStore
deriving DecidableEq

/-- What a step gives its caller. -/
inductive LatchResult
  | pending
  | returned (ok : Bool)
  | threw (message : String)
deriving DecidableEq

/-- One atomic step of a client: the word, the client and the result after it. -/
def LatchClient.atomic (word : BitVec 32) (c : LatchClient) :
    LatchOp → Option (BitVec 32 × LatchClient × LatchResult)
  | .tryWLock =>
    if c.pc = .idle then
      if word = 0 then some (writeLockFlag, { c with writes := true }, .returned true)
      else some (word, c, .returned false)
    else none
  | .wUnlock =>
    if c.pc = .idle ∧ c.writes then some (0, { c with writes := false }, .returned true) else none
  | .rLoad => if c.pc = .idle then some (word, { c with pc := .tryRLock word }, .pending) else none
  | .rCas spurious =>
    match c.pc with
    | .tryRLock expected =>
      if expected &&& writeLockFlag ≠ 0 ∨ expected &&& readCountMask = readCountMask then
        some (word, { c with pc := .idle }, .returned false)
      else if word = expected ∧ spurious = false then
        some (expected + 1, { c with reads := c.reads + 1, pc := .idle }, .returned true)
      else some (word, { c with pc := .tryRLock word }, .pending)
    | _ => none
  | .rUnlock =>
    if c.pc = .idle ∧ 0 < c.reads then
      some (word - 1, { c with reads := c.reads - 1 }, .returned true)
    else none
  | .wToRConvert =>
    if c.pc = .idle ∧ c.writes then
      if word = writeLockFlag then
        some (1, { c with reads := c.reads + 1, writes := false }, .returned true)
      else some (word, c, .returned false)
    else none
  | .safeLoad =>
    if c.pc = .idle ∧ c.writes then some (word, { c with pc := .convertSafe word }, .pending)
    else none
  | .safeStore =>
    match c.pc with
    | .convertSafe current =>
      if current &&& writeLockFlag = 0 then
        some (word, { c with pc := .idle },
          .threw "w_to_r_convert called without holding write lock")
      else if current &&& readCountMask ≠ 0 then
        some (word, { c with pc := .idle },
          .threw "Invalid state: readers present during write lock")
      else some (1, { reads := c.reads + 1, writes := false, pc := .idle }, .returned true)
    | _ => none

/-- The latch and its clients. -/
structure Latch (ι : Type) where
  word : BitVec 32
  clients : ι → LatchClient

variable {ι : Type}

/-- A new latch. -/
def Latch.new : Latch ι := ⟨0, fun _ => ⟨0, false, .idle⟩⟩

/-- Client `i` takes a step. -/
def Latch.act [DecidableEq ι] (s : Latch ι) (i : ι) (op : LatchOp) :
    Option (Latch ι × LatchResult) :=
  ((s.clients i).atomic s.word op).map fun r =>
    (⟨r.1, Function.update s.clients i r.2.1⟩, r.2.2)

/-- The steps of all clients, with their results. -/
def Latch.Step [DecidableEq ι] (s : Latch ι) (e : ι × LatchOp × LatchResult) (s' : Latch ι) :
    Prop :=
  s.act e.1 e.2.1 = some (s', e.2.2)

/-! ## The word -/

theorem and_writeLockFlag (x : BitVec 32) : x &&& writeLockFlag = 0 ↔ x.toNat < 2 ^ 31 := by
  rw [← BitVec.toNat_inj, BitVec.toNat_and]
  show x.toNat &&& 2 ^ 31 = 0 ↔ _
  have hx := x.isLt
  rw [Nat.and_two_pow, Nat.testBit_eq_decide_div_mod_eq]
  by_cases h : x.toNat / 2 ^ 31 % 2 = 1
  · simp only [h, decide_true, Bool.toNat_true]
    omega
  · simp only [h, decide_false, Bool.toNat_false]
    omega

theorem and_readCountMask (x : BitVec 32) : (x &&& readCountMask).toNat = x.toNat % 2 ^ 31 := by
  rw [BitVec.toNat_and]
  exact Nat.and_two_pow_sub_one_eq_mod x.toNat 31

/-- The check of `try_r_lock` lets a word pass that counts fewer than `READ_COUNT_MASK` readers. -/
theorem lt_of_check {x : BitVec 32}
    (h : ¬(x &&& writeLockFlag ≠ 0 ∨ x &&& readCountMask = readCountMask)) :
    x.toNat < 2 ^ 31 - 1 := by
  rw [not_or, not_not, and_writeLockFlag] at h
  obtain ⟨hlow, hfull⟩ := h
  have hne : x.toNat ≠ 2 ^ 31 - 1 := by
    intro he
    refine hfull (BitVec.eq_of_toNat_eq ?_)
    rw [and_readCountMask, he]
    rfl
  omega

/-- Only the store of `w_to_r_convert_safe` throws: what it has loaded is no writer's word. -/
theorem LatchClient.convertSafe_of_threw {word word' : BitVec 32} {c c' : LatchClient}
    {op : LatchOp} {m : String} (h : c.atomic word op = some (word', c', .threw m)) :
    ∃ cur, c.pc = .convertSafe cur ∧
      (cur &&& writeLockFlag = 0 ∨ cur &&& readCountMask ≠ 0) := by
  rcases op with _ | _ | _ | spurious | _ | _ | _ | _
  all_goals simp only [atomic] at h
  case rCas =>
    rcases hpc : c.pc with _ | expected | cur
    all_goals simp only [hpc] at h
    · exact nomatch h
    · split_ifs at h
      all_goals simp at h
    · exact nomatch h
  case safeStore =>
    rcases hpc : c.pc with _ | expected | cur
    all_goals simp only [hpc] at h
    · exact nomatch h
    · exact nomatch h
    · refine ⟨cur, rfl, ?_⟩
      by_contra hno
      rw [not_or, not_not] at hno
      rw [if_neg hno.1, if_neg (not_not.2 hno.2)] at h
      simp at h
  all_goals split_ifs at h
  all_goals simp at h

/-! ## The invariant -/

/-- All read holds. -/
def Latch.readers [Fintype ι] (s : Latch ι) : Nat := ∑ i, (s.clients i).reads

/-- The word says who holds the latch. -/
structure Latch.Inv [Fintype ι] (s : Latch ι) : Prop where
  writer : ∀ i, (s.clients i).writes = true →
    s.word = writeLockFlag ∧ s.readers = 0 ∧ ∀ j, (s.clients j).writes = true → j = i
  readers : (∀ i, (s.clients i).writes = false) → s.word.toNat = s.readers ∧ s.readers < 2 ^ 31
  loaded : ∀ i cur, (s.clients i).pc = .convertSafe cur →
    (s.clients i).writes = true ∧ cur = writeLockFlag

section Inv

variable [DecidableEq ι]

/-- The state after client `i` has become `c` and the word `word`. -/
def Latch.set (s : Latch ι) (i : ι) (word : BitVec 32) (c : LatchClient) : Latch ι :=
  ⟨word, Function.update s.clients i c⟩

section

variable (s : Latch ι) (i : ι) (word : BitVec 32) (c : LatchClient)

@[simp] theorem Latch.set_word : (s.set i word c).word = word := rfl

theorem Latch.set_self : (s.set i word c).clients i = c := Function.update_self _ _ _

end

theorem Latch.set_ne (s : Latch ι) {i j : ι} (word : BitVec 32) (c : LatchClient) (h : j ≠ i) :
    (s.set i word c).clients j = s.clients j := Function.update_of_ne h _ _

variable [Fintype ι] {s : Latch ι} {i : ι} {word : BitVec 32} {c : LatchClient}

theorem Latch.readers_set (s : Latch ι) (i : ι) (word : BitVec 32) (c : LatchClient) :
    (s.set i word c).readers + (s.clients i).reads = s.readers + c.reads := by
  unfold Latch.readers
  rw [← add_sum_erase univ (fun j => (s.clients j).reads) (mem_univ i),
    ← add_sum_erase univ (fun j => ((s.set i word c).clients j).reads)
      (mem_univ i)]
  have hrest : ∑ j ∈ univ.erase i, ((s.set i word c).clients j).reads =
      ∑ j ∈ univ.erase i, (s.clients j).reads := by
    refine sum_congr rfl fun j hj => ?_
    rw [Latch.set_ne s word c (ne_of_mem_erase hj)]
  simp only [Latch.set_self, hrest]
  omega

omit [DecidableEq ι] in
theorem Latch.reads_le_readers (s : Latch ι) (i : ι) : (s.clients i).reads ≤ s.readers :=
  single_le_sum (f := fun j => (s.clients j).reads) (fun _ _ => Nat.zero_le _)
    (mem_univ i)

omit [DecidableEq ι] in
theorem Latch.inv_new : (Latch.new : Latch ι).Inv := by
  have hzero : (Latch.new : Latch ι).readers = 0 := sum_eq_zero fun _ _ => rfl
  refine ⟨fun i h => (nomatch h), fun _ => ⟨?_, ?_⟩, fun i cur h => (nomatch h)⟩
  · rw [hzero]
    rfl
  · omega

omit [DecidableEq ι] in
theorem Latch.Inv.others (h : s.Inv) (hi : (s.clients i).writes = true) (j : ι) (hj : j ≠ i) :
    (s.clients j).writes = false := by
  by_contra hw
  exact hj ((h.writer i hi).2.2 j (Bool.eq_true_of_not_eq_false hw))

omit [DecidableEq ι] in
/-- Below the flag there is no writer. -/
theorem Latch.Inv.no_writer (h : s.Inv) (hlow : s.word.toNat < 2 ^ 31) (j : ι) :
    (s.clients j).writes = false := by
  by_contra hw
  rw [(h.writer j (Bool.eq_true_of_not_eq_false hw)).1] at hlow
  exact absurd hlow (by decide)

omit [DecidableEq ι] in
/-- Who reads keeps the writers out. -/
theorem Latch.Inv.no_writer_of_reads (h : s.Inv) (hi : 0 < (s.clients i).reads) (j : ι) :
    (s.clients j).writes = false := by
  by_contra hw
  have hzero := (h.writer j (Bool.eq_true_of_not_eq_false hw)).2.1
  have hle := s.reads_le_readers i
  omega

section

variable (h : s.Inv)
include h

/-- A step that changes no hold. -/
theorem Latch.Inv.quiet (hreads : c.reads = (s.clients i).reads)
    (hwrites : c.writes = (s.clients i).writes)
    (hpc : ∀ cur, c.pc = .convertSafe cur → c.writes = true ∧ cur = writeLockFlag) :
    (s.set i s.word c).Inv := by
  have hsum : (s.set i s.word c).readers = s.readers := by
    have hset := readers_set s i s.word c
    omega
  have hw : ∀ j, ((s.set i s.word c).clients j).writes = (s.clients j).writes := by
    intro j
    by_cases hj : j = i
    · rw [hj, set_self, hwrites]
    · rw [set_ne s _ _ hj]
  refine ⟨fun j hj => ?_, fun hno => ?_, fun j cur hj => ?_⟩
  · rw [hsum, set_word]
    simp only [hw] at hj ⊢
    exact h.writer j hj
  · rw [hsum, set_word]
    simp only [hw] at hno
    exact h.readers hno
  · by_cases hji : j = i
    · rw [hji, set_self] at hj ⊢
      exact hpc cur hj
    · rw [set_ne s _ _ hji] at hj ⊢
      exact h.loaded j cur hj

/-- A step of `i` that takes or gives up a hold while nobody else writes. -/
theorem Latch.Inv.move (hothers : ∀ j, j ≠ i → (s.clients j).writes = false) (hpc : c.pc = .idle)
    (hwriter : c.writes = true → word = writeLockFlag ∧ (s.set i word c).readers = 0)
    (hreaders : c.writes = false →
      word.toNat = (s.set i word c).readers ∧ (s.set i word c).readers < 2 ^ 31) :
    (s.set i word c).Inv := by
  have hw : ∀ j, ((s.set i word c).clients j).writes = true → j = i ∧ c.writes = true := by
    intro j hj
    by_cases hji : j = i
    · rw [hji, set_self] at hj
      exact ⟨hji, hj⟩
    · rw [set_ne s _ _ hji, hothers j hji] at hj
      exact nomatch hj
  refine ⟨fun j hj => ?_, fun hno => ?_, fun j cur hj => ?_⟩
  · obtain ⟨rfl, hc⟩ := hw j hj
    obtain ⟨hword, hzero⟩ := hwriter hc
    exact ⟨hword, hzero, fun k hk => (hw k hk).1⟩
  · have hself := hno i
    rw [set_self] at hself
    exact hreaders hself
  · by_cases hji : j = i
    · rw [hji, set_self, hpc] at hj
      exact nomatch hj
    · rw [set_ne s _ _ hji] at hj
      have hwrites := (h.loaded j cur hj).1
      rw [hothers j hji] at hwrites
      exact nomatch hwrites

/-! ## The steps -/

theorem Latch.Inv.lockWrite (hword : s.word = 0) :
    (s.set i writeLockFlag ⟨(s.clients i).reads, true, .idle⟩).Inv := by
  have hno := h.no_writer (by rw [hword]; decide)
  obtain ⟨hcount, -⟩ := h.readers hno
  rw [hword] at hcount
  have hzero : s.readers = 0 := hcount.symm
  refine h.move (fun j _ => hno j) rfl (fun _ => ⟨rfl, ?_⟩) fun hc => nomatch hc
  have hset := readers_set s i writeLockFlag ⟨(s.clients i).reads, true, .idle⟩
  simp only at hset
  omega

theorem Latch.Inv.lockRead (hlow : s.word.toNat < 2 ^ 31 - 1) :
    (s.set i (s.word + 1) ⟨(s.clients i).reads + 1, (s.clients i).writes, .idle⟩).Inv := by
  have hno := h.no_writer (by omega)
  obtain ⟨hcount, -⟩ := h.readers hno
  have hset := readers_set s i (s.word + 1) ⟨(s.clients i).reads + 1, (s.clients i).writes, .idle⟩
  have hnext : (s.word + 1).toNat = s.word.toNat + 1 := by bv_omega
  simp only at hset
  refine h.move (fun j _ => hno j) rfl (fun hc => ?_) fun _ => ⟨?_, ?_⟩
  · rw [hno i] at hc
    exact nomatch hc
  · omega
  · omega

theorem Latch.Inv.unlockWrite (hi : (s.clients i).writes = true) :
    (s.set i 0 ⟨(s.clients i).reads, false, .idle⟩).Inv := by
  obtain ⟨-, hzero, -⟩ := h.writer i hi
  have hset := readers_set s i 0 ⟨(s.clients i).reads, false, .idle⟩
  simp only at hset
  refine h.move (h.others hi) rfl (fun hc => nomatch hc) fun _ => ⟨?_, ?_⟩
  · show 0 = _
    omega
  · omega

theorem Latch.Inv.unlockRead (hi : 0 < (s.clients i).reads) :
    (s.set i (s.word - 1) ⟨(s.clients i).reads - 1, (s.clients i).writes, .idle⟩).Inv := by
  have hno := h.no_writer_of_reads hi
  obtain ⟨hcount, hlow⟩ := h.readers hno
  have hle := s.reads_le_readers i
  have hset := readers_set s i (s.word - 1) ⟨(s.clients i).reads - 1, (s.clients i).writes, .idle⟩
  have hnext : (s.word - 1).toNat = s.word.toNat - 1 := by bv_omega
  simp only at hset
  refine h.move (fun j _ => hno j) rfl (fun hc => ?_) fun _ => ⟨?_, ?_⟩
  · rw [hno i] at hc
    exact nomatch hc
  · omega
  · omega

theorem Latch.Inv.convert (hi : (s.clients i).writes = true) :
    (s.set i 1 ⟨(s.clients i).reads + 1, false, .idle⟩).Inv := by
  obtain ⟨-, hzero, -⟩ := h.writer i hi
  have hset := readers_set s i 1 ⟨(s.clients i).reads + 1, false, .idle⟩
  simp only at hset
  refine h.move (h.others hi) rfl (fun hc => nomatch hc) fun _ => ⟨?_, ?_⟩
  · show 1 = _
    omega
  · omega

end

variable {op : LatchOp} {r : LatchResult} {s' : Latch ι}

omit [Fintype ι] in
/-- What a step of `i` does to the latch. -/
theorem Latch.act_eq_some :
    s.act i op = some (s', r) ↔
      ∃ word c, (s.clients i).atomic s.word op = some (word, c, r) ∧ s' = s.set i word c := by
  unfold act
  rw [Option.map_eq_some_iff]
  constructor
  · intro h
    obtain ⟨⟨word, c, r'⟩, hatomic, he⟩ := h
    obtain ⟨rfl, rfl⟩ := Prod.mk.inj he
    exact ⟨word, c, hatomic, rfl⟩
  · intro h
    obtain ⟨word, c, hatomic, rfl⟩ := h
    exact ⟨_, hatomic, rfl⟩

/-- Every step keeps the invariant. -/
theorem Latch.Inv.act (h : s.Inv) (hstep : s.act i op = some (s', r)) : s'.Inv := by
  obtain ⟨word, c, hatomic, rfl⟩ := act_eq_some.1 hstep
  rcases op with _ | _ | _ | spurious | _ | _ | _ | _
  all_goals simp only [LatchClient.atomic] at hatomic
  · -- `try_w_lock`
    split_ifs at hatomic with hpc hword
    · cases hatomic
      have hlock := h.lockWrite (i := i) hword
      rwa [← hpc] at hlock
    · cases hatomic
      exact h.quiet rfl rfl (h.loaded i)
  · -- `w_unlock`
    split_ifs at hatomic with hpc
    cases hatomic
    have hunlock := h.unlockWrite hpc.2
    rwa [← hpc.1] at hunlock
  · -- the load of `try_r_lock`
    split_ifs at hatomic with hpc
    cases hatomic
    exact h.quiet rfl rfl fun cur hcur => nomatch hcur
  · -- a round of its loop: only a compare-exchange that succeeds changes the word
    rcases hpc : (s.clients i).pc with _ | expected | cur
    · simp only [hpc] at hatomic
      exact nomatch hatomic
    · simp only [hpc] at hatomic
      split_ifs at hatomic with hcheck hcas
      · cases hatomic
        exact h.quiet rfl rfl fun cur hcur => nomatch hcur
      · cases hatomic
        obtain ⟨rfl, -⟩ := hcas
        exact h.lockRead (lt_of_check hcheck)
      · cases hatomic
        exact h.quiet rfl rfl fun cur hcur => nomatch hcur
    · simp only [hpc] at hatomic
      exact nomatch hatomic
  · -- `r_unlock`
    split_ifs at hatomic with hpc
    cases hatomic
    have hunlock := h.unlockRead hpc.2
    rwa [← hpc.1] at hunlock
  · -- `w_to_r_convert`
    split_ifs at hatomic with hpc hword
    · cases hatomic
      have hconvert := h.convert hpc.2
      rwa [← hpc.1] at hconvert
    · exact absurd (h.writer i hpc.2).1 hword
  · -- the load of `w_to_r_convert_safe`: only the writer gets here
    split_ifs at hatomic with hpc
    cases hatomic
    refine h.quiet rfl rfl fun cur hcur => ⟨hpc.2, ?_⟩
    rw [← LatchPc.convertSafe.inj hcur]
    exact (h.writer i hpc.2).1
  · -- its store
    rcases hpc : (s.clients i).pc with _ | expected | cur
    · simp only [hpc] at hatomic
      exact nomatch hatomic
    · simp only [hpc] at hatomic
      exact nomatch hatomic
    · obtain ⟨hwrites, rfl⟩ := h.loaded i cur hpc
      simp only [hpc] at hatomic
      rw [if_neg (by decide), if_neg (by decide)] at hatomic
      cases hatomic
      exact h.convert hwrites

/-- What holds of the latch while its clients use it. -/
structure Latch.Sound (s : Latch ι) : Prop where
  word_writer : ∀ i, (s.clients i).writes = true → s.word = writeLockFlag
  word_readers : (∀ i, (s.clients i).writes = false) →
    s.word.toNat = ∑ i, (s.clients i).reads
  exclusive : ∀ i, (s.clients i).writes = true →
    ∀ j, (s.clients j).reads = 0 ∧ ((s.clients j).writes = true → j = i)
  no_underflow : ∀ i s' r, s.act i .rUnlock = some (s', r) → s.word.toNat = s'.word.toNat + 1
  convert_succeeds : ∀ i s' r, s.act i .wToRConvert = some (s', r) → r = .returned true
  never_throws : ∀ i op s' m, s.act i op ≠ some (s', .threw m)

theorem Latch.Inv.sound (h : s.Inv) : s.Sound := by
  refine ⟨fun i hi => (h.writer i hi).1, fun hno => (h.readers hno).1, fun i hi j => ?_,
    fun i s' r hstep => ?_, fun i s' r hstep => ?_, fun i op s' m hstep => ?_⟩
  · obtain ⟨-, hzero, honly⟩ := h.writer i hi
    have hle := s.reads_le_readers j
    exact ⟨by omega, honly j⟩
  · obtain ⟨word, c, hatomic, rfl⟩ := act_eq_some.1 hstep
    simp only [LatchClient.atomic] at hatomic
    split_ifs at hatomic with hpc
    cases hatomic
    have hcount := (h.readers (h.no_writer_of_reads hpc.2)).1
    have hle := s.reads_le_readers i
    show s.word.toNat = (s.word - 1).toNat + 1
    bv_omega
  · obtain ⟨word, c, hatomic, rfl⟩ := act_eq_some.1 hstep
    simp only [LatchClient.atomic] at hatomic
    split_ifs at hatomic with hpc hword
    · simp only [Option.some.injEq, Prod.mk.injEq] at hatomic
      exact hatomic.2.2.symm
    · exact absurd (h.writer i hpc.2).1 hword
  · obtain ⟨word, c, hatomic, rfl⟩ := act_eq_some.1 hstep
    obtain ⟨cur, hpc, hbad⟩ := LatchClient.convertSafe_of_threw hatomic
    obtain ⟨-, rfl⟩ := h.loaded i cur hpc
    exact absurd hbad (by decide)

/-- The latch is sound in every state of every interleaving. -/
theorem latch_sound {es : List (ι × LatchOp × LatchResult)} {s : Latch ι}
    (run : Steps Latch.Step Latch.new es s) : s.Sound :=
  Latch.Inv.sound (run.inv (fun _ s => s.Inv) Latch.inv_new fun _ _ _ _ h hs => h.act hs)

end Inv

/-- Both clients load the word before either counts itself, so that one compare-exchange fails. -/
theorem latch_sound_two : ∃ s : Latch (Fin 2), s.word = 2 ∧ s.Sound :=
  ⟨_, rfl, @latch_sound _ _ _ [(0, .rLoad, .pending), (1, .rLoad, .pending),
    (0, .rCas false, .returned true), (1, .rCas false, .pending),
    (1, .rCas false, .returned true)] _
    (.cons rfl (.cons rfl (.cons rfl (.cons rfl (.cons rfl .nil)))))⟩

end BwGraph
