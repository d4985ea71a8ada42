import BwGraph.Common.Sequence
import BwGraph.Common.Type

/-
  `vertex_subset_t` (`vertex_set.h`): a list of the vertices, an array of flags, or both. A
  conversion builds what is missing and keeps what is there. `none` stands for the abort of
  `to_sparse` and for an access outside an array or through a null pointer.

  `Represents` is the invariant: whichever of the two arrays is there lists the set, and the count
  `m` is that of the set. `packIndex_iff` says when `pack_index` gives the true indices.
-/

namespace BwGraph

open List

/-- The object; `none` is a null pointer. -/
structure SubsetObject where
  s : Option (List VId)
  d : Option (List Bool)
  n : Nat
  m : Nat
  isDense : Bool
deriving DecidableEq

namespace SubsetObject

/-- The constructors. -/
def empty (n : Nat) : SubsetObject := ⟨none, none, n, 0, false⟩

def ofSparse (n m : Nat) (indices : List VId) : SubsetObject := ⟨some indices, none, n, m, false⟩

def single (n : Nat) (v : VId) : SubsetObject := ofSparse n 1 [v]

def ofDense (n m : Nat) (d : List Bool) : SubsetObject := ⟨none, some d, n, m, true⟩

/-- `_block_size`. -/
def blockSize : Nat := 2 ^ 12

/-- The constructor that counts the flags. -/
def ofDenseCounted (o : WriteOrder) (n : Nat) (d : List Bool) : Option SubsetObject :=
  (reduce o blockSize false (· + ·) ⟨fun i => d[i]?.map Bool.toNat, 0, n⟩).map fun m => ofDense n m d

/-- `to_sparse`. -/
def toSparse (o : WriteOrder) (S : SubsetObject) : Option SubsetObject :=
  if S.s = none ∧ 0 < S.m then
    S.d.bind fun d => (packIndex o blockSize false 32 ⟨fun i => d[i]?, 0, S.n⟩).bind fun out =>
      if out.length = S.m then some { S with s := some out, isDense := false } else none
  else some { S with isDense := false }

/-- `to_dense`. -/
def toDense (o : WriteOrder) (S : SubsetObject) : Option SubsetObject :=
  if S.d = none then
    ((List.range S.m).mapM fun i => S.s.bind fun s => s[i]?).bind fun l =>
      (o.scatter (List.replicate S.n (some false)) (l.map fun v => (true, v))).map fun d =>
        { S with d := some d, isDense := true }
  else some { S with isDense := true }

/-- The two conversions. -/
inductive Conversion
  | toSparse
  | toDense
deriving DecidableEq

/-- One call, with the order in which its loops write. -/
def convert (S : SubsetObject) : WriteOrder × Conversion → Option SubsetObject
  | (o, .toSparse) => S.toSparse o
  | (o, .toDense) => S.toDense o

/-- A vertex is in the set, read from the current representation. -/
def Mem (S : SubsetObject) (v : VId) : Prop :=
  if S.isDense then ∃ d, S.d = some d ∧ d[v]? = some true
  else ∃ i < S.m, ∃ s, S.s = some s ∧ s[i]? = some v

/-- The objects over `n` vertices that are built from a list of distinct ids or from flags with
their true count. -/
inductive Built (n : Nat) : SubsetObject → Prop
  | empty : Built n (empty n)
  | sparse {ids : List VId} (hnd : ids.Nodup) (hlt : ∀ v ∈ ids, v < n ∧ v < 2 ^ 32) :
      Built n (ofSparse n ids.length ids)
  | dense {d : List Bool} (hd : d.length = n) : Built n (ofDense n (d.count true) d)
  | counted {o : WriteOrder} {d : List Bool} {S : SubsetObject} (hd : d.length = n)
      (h : ofDenseCounted o n d = some S) : Built n S

/-- The object stands for the set `P`, in every array it has. -/
structure Represents (P : VId → Prop) (S : SubsetObject) : Prop where
  lt : ∀ v, P v → v < S.n
  /-- The count is that of the set. -/
  card : ∃ l : List VId, l.Nodup ∧ (∀ v, v ∈ l ↔ P v) ∧ l.length = S.m
  list : ∀ s, S.s = some s → s.Nodup ∧ ∀ v, v ∈ s ↔ P v
  flags : ∀ d, S.d = some d → d.length = S.n ∧ ∀ v, d[v]? = some true ↔ P v
  hasFlags : S.isDense = true → S.d ≠ none
  hasList : S.isDense = false → S.s ≠ none ∨ S.m = 0

variable {P : VId → Prop} {S : SubsetObject} {o : WriteOrder} {n : Nat}

namespace Represents

variable (h : S.Represents P)
include h

theorem card_eq {l : List VId} (hnd : l.Nodup) (hl : ∀ v, v ∈ l ↔ P v) : l.length = S.m := by
  obtain ⟨l', hnd', hl', hm⟩ := h.card
  rw [← hm]
  exact ((perm_ext_iff_of_nodup hnd hnd').2 fun v => (hl v).trans (hl' v).symm).length_eq

theorem length_list {s : List VId} (hs : S.s = some s) : s.length = S.m :=
  h.card_eq (h.list s hs).1 (h.list s hs).2

theorem not_mem_of_zero (hm : S.m = 0) (v : VId) : ¬P v := by
  obtain ⟨l, -, hl, hlen⟩ := h.card
  obtain rfl := eq_nil_of_length_eq_zero (hlen.trans hm)
  exact fun hv => not_mem_nil ((hl v).2 hv)

theorem mem_iff {v : VId} : S.Mem v ↔ P v := by
  unfold Mem
  cases hd : S.isDense with
  | true =>
    obtain ⟨d, hd⟩ := Option.ne_none_iff_exists'.1 (h.hasFlags hd)
    rw [if_pos rfl, ← (h.flags d hd).2 v, hd]
    simp
  | false =>
    rw [if_neg Bool.false_ne_true]
    rcases h.hasList hd with hs | hm
    · obtain ⟨s, hs⟩ := Option.ne_none_iff_exists'.1 hs
      rw [← (h.list s hs).2 v, hs, ← h.length_list hs, mem_iff_getElem?]
      grind
    · refine iff_of_false (fun ⟨i, hi, _⟩ => ?_) (h.not_mem_of_zero hm v)
      omega

theorem null_list (hd : S.d = none) : S.s ≠ none ∨ S.m = 0 :=
  h.hasList (Bool.eq_false_iff.2 fun hdense => h.hasFlags hdense hd)

/-- `to_sparse` gets past its check when the ids fit in `v_id_t`. -/
theorem toSparse (hn : Fits S.n blockSize) (h32 : ∀ v, P v → v < 2 ^ 32) :
    ∃ S', S.toSparse o = some S' ∧ S'.Represents P ∧ S'.n = S.n := by
  unfold SubsetObject.toSparse
  split
  · rename_i hnull
    have hd : S.d ≠ none := fun hd => by
      rcases h.null_list hd with hs | hm
      · exact hs hnull.1
      · omega
    obtain ⟨d, hd⟩ := Option.ne_none_iff_exists'.1 hd
    obtain ⟨hlen, hflags⟩ := h.flags d hd
    have hmem : ∀ v, v ∈ trueIndices d ↔ P v := fun v => mem_trueIndices.trans (hflags v)
    have hpack : packIndex o blockSize false 32 (.ofList d) = some (trueIndices d) :=
      (packIndex_eq (hlen ▸ hn.lt) hn.block_pos (hlen ▸ hn.onePassOrFits)).trans
        (congrArg some (map_mod_eq_self_iff.2 fun v hv => h32 v ((hmem v).1 hv)))
    rw [IndexMap.ofList, hlen] at hpack
    rw [hd, Option.bind_some, hpack, Option.bind_some,
      if_pos (h.card_eq (nodup_trueIndices d) hmem)]
    refine ⟨_, rfl, { h with
      list := ?_, flags := fun _ hd' => h.flags _ (hd.trans hd'), hasFlags := fun h => by cases h
      hasList := fun _ => .inl (Option.some_ne_none _) }, rfl⟩
    intro s hs
    cases hs
    exact ⟨nodup_trueIndices d, hmem⟩
  · rename_i hkeep
    refine ⟨_, rfl, { h with hasFlags := (fun h => by cases h), hasList := fun _ => ?_ }, rfl⟩
    by_cases hs : S.s = none
    · exact .inr (Nat.eq_zero_of_not_pos fun hm => hkeep ⟨hs, hm⟩)
    · exact .inl hs

theorem toDense : ∃ S', S.toDense o = some S' ∧ S'.Represents P ∧ S'.n = S.n := by
  unfold SubsetObject.toDense
  split
  · rename_i hnull
    obtain ⟨l, hread, hnd, hmem⟩ : ∃ l : List VId, ((range S.m).mapM fun i =>
        S.s.bind fun s => s[i]?) = some l ∧ l.Nodup ∧ ∀ v, v ∈ l ↔ P v := by
      rcases h.null_list hnull with hs | hm
      · obtain ⟨s, hs⟩ := Option.ne_none_iff_exists'.1 hs
        rw [hs, ← h.length_list hs]
        exact ⟨s, mapM_getElem? s, h.list s hs⟩
      · rw [hm]
        exact ⟨[], rfl, nodup_nil, fun v =>
          iff_of_false not_mem_nil (h.not_mem_of_zero hm v)⟩
    rw [hread, Option.bind_some, o.scatter_flags (fun v hv => h.lt v ((hmem v).1 hv)) hnd]
    refine ⟨_, rfl, { h with flags := ?_, hasFlags := fun _ => nofun, hasList := nofun }, rfl⟩
    intro d hd
    cases hd
    refine ⟨by simp, fun v => ?_⟩
    have := h.lt v
    rw [← hmem] at *
    grind
  · rename_i hkeep
    exact ⟨_, rfl, { h with hasFlags := fun _ => hkeep, hasList := nofun }, rfl⟩

/-- No sequence of conversions changes the set or aborts. -/
theorem run (hn : Fits S.n blockSize) (h32 : ∀ v, P v → v < 2 ^ 32)
    (ops : List (WriteOrder × Conversion)) :
    ∃ S', runAll convert S ops = some S' ∧ S'.Represents P := by
  induction ops generalizing S with
  | nil => exact ⟨S, rfl, h⟩
  | cons op ops ih =>
    obtain ⟨S1, hstep, hrep, hn1⟩ : ∃ S', S.convert op = some S' ∧ S'.Represents P ∧ S'.n = S.n := by
      obtain ⟨o, c⟩ := op
      cases c with
      | toSparse => exact h.toSparse hn h32
      | toDense => exact h.toDense
    obtain ⟨S', hrun, hend⟩ := ih hrep (hn1 ▸ hn)
    refine ⟨S', ?_, hend⟩
    rw [runAll, hstep]
    exact hrun

end Represents

/-- The constructor finds the true count. -/
theorem ofDenseCounted_eq {d : List Bool} (hd : d.length = n) (hn : Fits n blockSize) :
    ofDenseCounted o n d = some (ofDense n (d.count true) d) := by
  have hreads : IndexMap.Reads ⟨fun i => d[i]?.map Bool.toNat, 0, n⟩ n fun i =>
      (d.getD i false).toNat := ⟨rfl, rfl, fun i hi => by simp [hd, hi]⟩
  have hmap : ((range n).map fun i => (d.getD i false).toNat) = d.map Bool.toNat := by
    conv_rhs => rw [← map_getD_range d false, map_map, hd]
    rfl
  obtain ⟨v, hv, hsum⟩ := reduce_eq (o := o) hreads hn (· + ·) false
  have hcount := hsum 0
  rw [hmap, foldl_map, sumFlags_foldl, Nat.zero_add, Nat.zero_add] at hcount
  rw [ofDenseCounted, hv, hcount]
  rfl

/-- What the constructors build stands for its set. -/
theorem Built.represents (h : Built n S) (hn : Fits n blockSize) : S.Represents S.Mem ∧ S.n = n := by
  have hdense : ∀ d : List Bool, d.length = n →
      (ofDense n (d.count true) d).Represents (ofDense n (d.count true) d).Mem := by
    intro d hd
    have hmem : ∀ v, (ofDense n (d.count true) d).Mem v ↔ d[v]? = some true := by
      simp [Mem, ofDense]
    refine ⟨fun v hv => ?_, ⟨trueIndices d, nodup_trueIndices d, fun v => ?_,
      length_trueIndices d⟩, nofun, fun d' hd' => ?_, fun _ => nofun, nofun⟩
    · rw [ofDense, ← hd]
      exact (List.getElem?_eq_some_iff.1 ((hmem v).1 hv)).1
    · rw [hmem, mem_trueIndices]
    · cases hd'
      exact ⟨hd, fun v => (hmem v).symm⟩
  cases h with
  | empty =>
    have hmem : ∀ v, ¬(SubsetObject.empty n).Mem v := by
      simp [Mem, SubsetObject.empty]
    exact ⟨⟨fun v hv => absurd hv (hmem v), ⟨[], List.nodup_nil, fun v =>
      iff_of_false List.not_mem_nil (hmem v), rfl⟩, nofun, nofun, nofun, fun _ => .inr rfl⟩, rfl⟩
  | @sparse ids hnd hlt =>
    have hmem : ∀ v, v ∈ ids ↔ (ofSparse n ids.length ids).Mem v := by
      intro v
      rw [List.mem_iff_getElem?]
      simp only [Mem, ofSparse]
      grind
    refine ⟨⟨fun v hv => (hlt v ((hmem v).2 hv)).1, ⟨ids, hnd, hmem, rfl⟩, fun s hs => ?_, nofun,
      nofun, fun _ => .inl nofun⟩, rfl⟩
    cases hs
    exact ⟨hnd, hmem⟩
  | @dense d hd => exact ⟨hdense d hd, rfl⟩
  | @counted o d S hd h =>
    rw [ofDenseCounted_eq hd hn] at h
    obtain rfl := Option.some.inj h
    exact ⟨hdense d hd, rfl⟩

theorem fits_blockSize (hn : 1 ≤ n) (hlt : n < 2 ^ 63) : Fits n blockSize := by
  have hlt' : n < sizeMod := by
    rw [sizeMod]
    omega
  refine ⟨hn, hlt', by decide, ?_⟩
  have hdiv := Nat.div_mul_le_self (n - 1) blockSize
  rw [numBlocks_eq hn hlt', Nat.add_mul, sizeMod, Nat.one_mul]
  unfold blockSize at *
  omega

theorem Built.list_lt (h : Built n S) {s : List VId} (hs : S.s = some s) : ∀ v ∈ s, v < 2 ^ 32 := by
  cases h with
  | empty => cases hs
  | sparse hnd hlt =>
    cases hs
    exact fun v hv => (hlt v hv).2
  | dense hd => cases hs
  | counted hd h =>
    obtain ⟨m, -, rfl⟩ := Option.map_eq_some_iff.1 h
    cases hs

/-- What `to_sparse` lists are 32-bit ids. -/
theorem Built.toSparse_lt {S' : SubsetObject} (hb : Built n S) (hn : Fits n blockSize)
    (h : S.toSparse o = some S') {v : VId} (hv : S'.Mem v) : v < 2 ^ 32 := by
  obtain ⟨hrep, rfl⟩ := hb.represents hn
  unfold toSparse at h
  split at h
  · obtain ⟨d, hd, h⟩ := Option.bind_eq_some_iff.1 h
    obtain ⟨out, hout, h⟩ := Option.bind_eq_some_iff.1 h
    split_ifs at h
    cases h
    obtain ⟨i, -, s, hs, hv⟩ : ∃ i < S.m, ∃ s, some out = some s ∧ s[i]? = some v := hv
    cases hs
    have hlen := (hrep.flags d hd).1
    have hfit := hlen ▸ hn
    have hpack : packIndex o blockSize false 32 (.ofList d) = some out := by
      rw [IndexMap.ofList, hlen]
      exact hout
    rw [packIndex_eq hfit.lt hfit.block_pos hfit.onePassOrFits] at hpack
    cases hpack
    obtain ⟨u, -, rfl⟩ := mem_map.1 (mem_of_getElem? hv)
    exact Nat.mod_lt _ (Nat.two_pow_pos 32)
  · cases h
    obtain ⟨i, -, s, hs, hv⟩ : ∃ i < S.m, ∃ s, S.s = some s ∧ s[i]? = some v := hv
    exact hb.list_lt hs v (mem_of_getElem? hv)

/-- The conversions keep the set and do not abort, whatever their order, exactly when its vertices
are 32-bit. -/
theorem Built.run_iff (h : Built n S) (hn : 1 ≤ n) (hlt : n < 2 ^ 63) :
    (∀ ops, ∃ S', runAll convert S ops = some S' ∧ ∀ v, S'.Mem v ↔ S.Mem v) ↔
      ∀ v, S.Mem v → v < 2 ^ 32 := by
  have hfit := fits_blockSize hn hlt
  constructor
  · intro hkeeps v hv
    obtain ⟨S', hrun, hmem⟩ := hkeeps [(.serial, .toSparse)]
    obtain ⟨S1, hsparse, hend⟩ := Option.bind_eq_some_iff.1 hrun
    obtain rfl := Option.some.inj hend
    exact h.toSparse_lt hfit hsparse ((hmem v).2 hv)
  · intro h32 ops
    obtain ⟨hrep, rfl⟩ := h.represents hfit
    obtain ⟨S', hrun, hend⟩ := hrep.run hfit h32 ops
    exact ⟨S', hrun, fun v => hend.mem_iff⟩

end SubsetObject

/-- `pack_index` gives the ascending true indices, for every block size and order of the writes,
exactly when the call is serial or its blocks fit and the indices fit in their type; a subset over
`n ≥ 1` vertices keeps its set through all conversions exactly when its vertices are 32-bit. -/
theorem packIndex_and_conversions (o : WriteOrder) (b : Nat) (sequential : Bool) (w : Nat)
    (flags : List Bool) (hlt : flags.length < sizeMod) (hb : 0 < b) (hb' : b < sizeMod) {n : Nat}
    {S : SubsetObject} (hS : S.Built n) (hn : 1 ≤ n) (hn' : n < 2 ^ 63) :
    (packIndex o b sequential w (.ofList flags) = some (trueIndices flags) ↔
      (sequential = true ∨ numBlocks flags.length b ≤ 1 ∨
        1 ≤ flags.length ∧ numBlocks flags.length b * b < sizeMod) ∧
      ∀ i ∈ trueIndices flags, i < 2 ^ w) ∧
    ((∀ ops, ∃ S', runAll SubsetObject.convert S ops = some S' ∧ ∀ v, S'.Mem v ↔ S.Mem v) ↔
      ∀ v, S.Mem v → v < 2 ^ 32) :=
  ⟨packIndex_iff hlt hb hb', hS.run_iff hn hn'⟩

/-- Nine flags in blocks of four, the last one partial; a subset that is converted back and forth. -/
theorem packIndex_and_conversions_nine :
    packIndex .serial 4 false 32
        (.ofList [true, false, true, true, false, true, false, false, true]) =
      some [0, 2, 3, 5, 8] ∧
    ∃ S', runAll SubsetObject.convert (.ofSparse 8 3 [6, 1, 4])
      [(.serial, .toDense), (.serial, .toSparse), (.serial, .toDense)] = some S' ∧
      ∀ v, S'.Mem v ↔ (SubsetObject.ofSparse 8 3 [6, 1, 4]).Mem v := by
  have hbuilt : (SubsetObject.ofSparse 8 3 [6, 1, 4]).Built 8 := .sparse (by decide) (by decide)
  obtain ⟨hpack, hkeeps⟩ := packIndex_and_conversions .serial 4 false 32
    [true, false, true, true, false, true, false, false, true] (by decide +kernel) (by decide)
    (by decide +kernel) hbuilt (by decide) (by decide)
  refine ⟨hpack.2 ⟨by decide +kernel, by decide +kernel⟩, hkeeps.2 (fun v hv => ?_) _⟩
  obtain ⟨i, -, s, hs, hv⟩ : ∃ i < 3, ∃ s, some [6, 1, 4] = some s ∧ s[i]? = some v := hv
  exact hbuilt.list_lt hs v (List.mem_of_getElem? hv)

/-- An empty sequence has 2^52 blocks of 4096. -/
theorem packIndex_empty_reads_outside :
    packIndex .serial (2 ^ 12) false 32 (.ofList []) ≠ some (trueIndices []) := by
  rw [Ne, packIndex_iff (by decide +kernel) (by decide) (by decide +kernel), OnePassOrFits]
  decide +kernel

end BwGraph
