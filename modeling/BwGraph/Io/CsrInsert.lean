import BwGraph.Io.CsrPageBuilder

/-
  The two inserts into the slots of a raw page: `insert_edge_in_slot`, which the database calls, and
  `insert_edge`. Both write the word behind the neighbours of a vertex, its degree and the edge
  count (`CsrObject.writeEdge`); they differ in what they check before.

  A slot insert keeps a page that stores regions one (`Holds.insertEdgeInSlot`): the region of the
  vertex is longer by one neighbour, and every other one is as it was. Hence
  `insertEdgeInSlot_frame` for every run of inserts; the new neighbour is read back unless the
  degree reaches the giant bound (`insertEdgeInSlot_appends_iff`).
-/

namespace BwGraph

open Bytes List CsrObject Region

namespace CsrObject

/-- What both inserts write; `used_bytes_` only grows. -/
def writeEdge (cfg : PageConfig) (obj : CsrObject) (vertexOffset neighborEndIdx newDegree : Nat)
    (dest : VId) : CsrObject :=
  let numEdges := (obj.numEdges + 1) % 2 ^ 16
  let requiredBytes := (fixedSize cfg.toConfig obj.numVertices +
    (neighborEndIdx + 1) % 2 ^ 32 * 4) % 2 ^ 32
  let data := poke obj.data (obj.neighborPos + neighborEndIdx * 4) (wordWrite dest)
  let data := poke data (obj.vertexSpan.pos + vertexOffset * csrVertexBytes + 4)
    (wordWrite newDegree)
  let data := if requiredBytes > obj.usedBytes then poke data 4 (wordWrite requiredBytes) else data
  { obj with
    data := poke data 2 (halfWrite numEdges)
    numEdges := numEdges
    usedBytes := if requiredBytes > obj.usedBytes then requiredBytes else obj.usedBytes }

/-- `insert_edge_in_slot`. -/
def insertEdgeInSlot (cfg : PageConfig) (obj : CsrObject) (srcVertexOffset : Nat)
    (srcVertexId destVertexId : VId) : InsertStatus × CsrObject :=
  if srcVertexOffset ≥ obj.numVertices then (.failed, obj)
  else if cfg.neighborCompress then (.slotFull, obj)
  else
    let vertexItem := obj.vertexAt srcVertexOffset
    if srcVertexId ≠ vertexItem.vertexId then (.failed, obj)
    else if vertexItem.degree ≥ cfg.giantDegreeBound then (.failed, obj)
    else
      let neighborEndIdx := (vertexItem.offset / 4 + vertexItem.degree) % 2 ^ 32
      let neighborCapacityEndIdx :=
        if srcVertexOffset + 1 < obj.numVertices then (obj.vertexAt (srcVertexOffset + 1)).offset / 4
        else
          let remaining := obj.usedBytes - fixedSize cfg.toConfig obj.numVertices
          let size :=
            if cfg.transaction ∧ obj.edgeTsPtr ≠ none then neighborDataSize remaining
            else remaining
          size / 4
      if neighborEndIdx ≥ neighborCapacityEndIdx then (.slotFull, obj)
      else
        let newDegree := (vertexItem.degree + 1) % 2 ^ 32
        (.inserted, obj.writeEdge cfg srcVertexOffset neighborEndIdx newDegree destVertexId)

/-- `insert_edge`. -/
def insertEdge (cfg : PageConfig) (obj : CsrObject) (vertexOffset : Nat) (src dest : VId) :
    InsertStatus × CsrObject :=
  if obj.isParse = false then (.failed, obj)
  else if cfg.neighborCompress then (.slotFull, obj)
  else if vertexOffset ≥ obj.numVertices then (.failed, obj)
  else
    let vertexItem := obj.vertexAt vertexOffset
    if src ≠ vertexItem.vertexId then (.failed, obj)
    else if vertexItem.isDeleted then (.failed, obj)
    else if vertexItem.degree ≥ cfg.giantDegreeBound then (.failed, obj)
    -- unlike the reader, the check for duplicates takes the offset in bytes
    else if dest ∈ wordReads vertexItem.degree
        (obj.data.drop (obj.neighborPos + vertexItem.offset)) then (.failed, obj)
    else
      let neighborStartIdx := vertexItem.offset / 4
      let neighborEndIdx := (neighborStartIdx + vertexItem.degree) % 2 ^ 32
      let neighborCapacityEndIdx :=
        if vertexOffset + 1 < obj.numVertices then (obj.vertexAt (vertexOffset + 1)).offset / 4
        else (obj.usedBytes - fixedSize cfg.toConfig obj.numVertices) / 4
      if neighborEndIdx ≥ neighborCapacityEndIdx then (.slotFull, obj)
      else
        let newDegree := (vertexItem.degree + 1) % 2 ^ 32
        let newEndOffset := (neighborStartIdx + newDegree) % 2 ^ 32 * 4 % 2 ^ 32
        if newEndOffset > uint16Max then (.slotFull, obj)
        else if obj.numEdges ≥ uint16Max then (.failed, obj)
        else (.inserted, obj.writeEdge cfg vertexOffset neighborEndIdx newDegree dest)

end CsrObject

/-! ## One more neighbour in a region -/

namespace Region

/-- The region with one more neighbour in its first slot. -/
def insert (r : Region) (dest : VId) : Region :=
  { r with degree := r.degree + 1, words := r.words.set r.degree dest }

/-- The number of edges in the regions, without those of the vertices added as giant. -/
def edges (rs : List Region) : Nat := (rs.map fun r => if r.isExternal then 0 else r.degree).sum

variable {cfg : Config} {rs : List Region} {r r' : Region} {i : Nat} {dest : VId}

theorem length_words_insert (r : Region) (dest : VId) :
    (r.insert dest).words.length = r.words.length := length_set ..

theorem Valid.insert (h : r.Valid cfg) (hext : r.isExternal = false)
    (hslot : r.degree < r.words.length) (hwide : r.words.length < 2 ^ 32) (hd : dest < 2 ^ 32) :
    (r.insert dest).Valid cfg := by
  refine ⟨h.vertexId, Nat.lt_of_le_of_lt hslot hwide, fun w hw => ?_, fun hx => ?_, fun _ => ?_⟩
  · rcases mem_or_eq_of_mem_set hw with hw | rfl
    · exact h.words w hw
    · exact hd
  · rw [show (r.insert dest).isExternal = r.isExternal from rfl, hext] at hx
    cases hx
  · rw [length_words_insert]
    exact hslot

/-- The reader of a region below the giant bound sees the new neighbour at the end. -/
theorem neighbors_insert (hslot : r.degree < r.words.length)
    (hdeg : r.degree + 1 < cfg.giantDegreeBound) :
    (r.insert dest).neighbors cfg = r.neighbors cfg ++ [dest] := by
  have hnew : ¬ (r.insert dest).degree ≥ cfg.giantDegreeBound := Nat.not_le.2 hdeg
  have hold : ¬ r.degree ≥ cfg.giantDegreeBound := by omega
  unfold neighbors
  rw [if_neg hnew, if_neg hold]
  show (r.words.set r.degree dest).take (r.degree + 1) = _
  rw [take_add_one, getElem?_set_self hslot, take_set_of_le (Nat.le_refl _)]
  rfl

theorem neighbors_giant (h : r.degree ≥ cfg.giantDegreeBound) : r.neighbors cfg = [] := if_pos h

theorem edges_insert (hi : rs[i]? = some r) (hext : r.isExternal = false) :
    edges (rs.set i (r.insert dest)) = edges rs + 1 := by
  induction rs generalizing i with
  | nil => cases hi
  | cons q rs ih =>
    cases i with
    | zero =>
      rw [getElem?_cons_zero, Option.some.injEq] at hi
      subst hi
      have hnew : (q.insert dest).isExternal = false := hext
      have hdeg : (q.insert dest).degree = q.degree + 1 := rfl
      simp only [edges, set_cons_zero, map_cons, sum_cons, hnew, hext, hdeg]
      simp only [Bool.false_eq_true, if_false]
      exact Nat.add_right_comm _ _ _
    | succ i =>
      have htail := ih hi
      simp only [edges, set_cons_succ, map_cons, sum_cons] at htail ⊢
      omega

theorem edges_le (h : ∀ r ∈ rs, r.Valid cfg) : edges rs ≤ (stored rs).length := by
  induction rs with
  | nil => exact Nat.le_refl 0
  | cons r rs ih =>
    have htail := ih fun q hq => h q (mem_cons_of_mem _ hq)
    have hin := (h r mem_cons_self).inside
    rw [length_stored] at htail ⊢
    simp only [edges, map_cons, sum_cons] at htail ⊢
    cases hx : r.isExternal with
    | true =>
      simp only [if_true]
      omega
    | false =>
      have hle := hin hx
      simp only [Bool.false_eq_true, if_false]
      omega

end Region

namespace CsrObject

variable {cfg : PageConfig} {rs : List Region} {r : Region} {obj : CsrObject} {i : Nat}
  {src dest : VId}

theorem vertexRead_drop (buf : List Nat) (k : Nat) : vertexRead (buf.drop k) =
    ⟨wordRead (buf.drop k), wordRead (buf.drop (k + 4)), halfRead (buf.drop (k + 8)),
      halfRead (buf.drop (k + 10))⟩ := by
  rw [vertexRead, drop_drop, drop_drop, drop_drop]

/-- An insert into a region that has a free slot, byte by byte. -/
theorem Holds.writeEdge (h : obj.Holds cfg rs) (hsize : cfg.pageSize < 2 ^ 32)
    (hi : rs[i]? = some r) (hext : r.isExternal = false) (hslot : r.degree < r.words.length)
    (hd : dest < 2 ^ 32) :
    (obj.writeEdge cfg i (Region.start rs i + r.degree) (r.degree + 1) dest).Holds cfg
      (rs.set i (r.insert dest)) := by
  have hfits := h.fits
  have hend := Region.start_add_le hi
  have hlt : i < rs.length := (List.getElem?_eq_some_iff.1 hi).1
  have hhead : cfg.headerBytes = 16 + cfg.maxBlockNeighbor * 4 := rfl
  have hfixed : fixedSize cfg.toConfig rs.length = cfg.headerBytes + rs.length * 12 := rfl
  have hspan : obj.vertexSpan.pos = cfg.headerBytes := by rw [h.synced.vertexSpan]
  -- nothing grows: the slots lie within the used bytes
  have hgrow : ¬ (fixedSize cfg.toConfig obj.numVertices +
      (Region.start rs i + r.degree + 1) % 2 ^ 32 * 4) % 2 ^ 32 > obj.usedBytes := by
    have hused := h.usedBytes
    have hmod : (Region.start rs i + r.degree + 1) % 2 ^ 32 = Region.start rs i + r.degree + 1 :=
      Nat.mod_eq_of_lt (by omega)
    rw [hmod, h.vertices, hused, Nat.mod_eq_of_lt (by omega)]
    omega
  generalize hw : fixedSize cfg.toConfig rs.length + (Region.start rs i + r.degree) * 4 = w
  generalize hv : cfg.headerBytes + i * csrVertexBytes + 4 = v
  have hvi : v = cfg.headerBytes + i * 12 + 4 := hv.symm
  generalize hobj : obj.writeEdge cfg i (Region.start rs i + r.degree) (r.degree + 1) dest = obj'
  have hdata : obj'.data = poke (poke (poke obj.data w (wordWrite dest)) v
      (wordWrite (r.degree + 1))) 2 (halfWrite ((obj.numEdges + 1) % 2 ^ 16)) := by
    rw [← hobj, CsrObject.writeEdge]
    dsimp only
    rw [if_neg hgrow, h.neighborPos, hspan, hw, hv]
  have hused : obj'.usedBytes = obj.usedBytes := by
    rw [← hobj, CsrObject.writeEdge]
    dsimp only
    rw [if_neg hgrow]
  have hedges : obj'.numEdges = (obj.numEdges + 1) % 2 ^ 16 := by rw [← hobj]; rfl
  have hrest : obj'.isParse = obj.isParse ∧ obj'.numVertices = obj.numVertices ∧
      obj'.links = obj.links ∧ obj'.neighborPageSpan = obj.neighborPageSpan ∧
      obj'.vertexSpan = obj.vertexSpan ∧ obj'.neighborPtr = obj.neighborPtr ∧
      obj'.edgeTsPtr = obj.edgeTsPtr := by
    rw [← hobj]
    exact ⟨rfl, rfl, rfl, rfl, rfl, rfl, rfl⟩
  obtain ⟨hparse, hnum, hlinks, hblock, hverts, hptr, hts⟩ := hrest
  clear hobj
  -- what a read away from the three stores sees
  have hframe : ∀ {α : Type} {n pos : Nat} {read : List Nat → α}, ReadsFirst n read →
      (pos + n ≤ 2 ∨ 4 ≤ pos) → (pos + n ≤ v ∨ v + 4 ≤ pos) → (pos + n ≤ w ∨ w + 4 ≤ pos) →
      read (obj'.data.drop pos) = read (obj.data.drop pos) := by
    intro α n pos read hr h2 h3 h4
    rw [hdata, hr.poke h2, hr.poke h3, hr.poke h4]
  have hw16 : 16 ≤ v ∧ v + 4 ≤ w := by omega
  have hbytes : w + 4 ≤ obj.data.length := by
    have hlen := h.length
    omega
  have hlen' : obj'.data.length = obj.data.length := by
    rw [hdata, length_poke, length_poke, length_poke]
  have hcount : (rs.set i (r.insert dest)).length = rs.length := List.length_set
  have hstart := Region.start_set hi (Region.length_words_insert r dest)
  have hstored : Region.stored (rs.set i (r.insert dest)) =
      (Region.stored rs).set (Region.start rs i + r.degree) dest := Region.stored_set hi hslot rfl
  have hs := h.synced
  have hsync : obj'.Synced cfg := by
    have hne : (obj.numEdges + 1) % 2 ^ 16 < 2 ^ 16 := Nat.mod_lt _ (by decide)
    have hhalf : halfRead (obj'.data.drop 2) = obj'.numEdges := by
      have hlen2 : (halfWrite ((obj.numEdges + 1) % 2 ^ 16)).length = 2 := rfl
      rw [hdata, hedges, drop_poke (by rw [length_poke, length_poke, hlen2]; omega)]
      exact halfRead_halfWrite hne _
    refine ⟨hparse ▸ hs.isParse, hnum ▸ hs.pos, ?_, hhalf, ?_, ?_, ?_, ?_, ?_, ?_, ?_, ?_, ?_⟩
    · rw [hnum, ← hs.numVertices]
      exact @hframe Nat 2 0 halfRead readsFirst_halfRead (by omega) (by omega) (by omega)
    · rw [hused, ← hs.usedBytes]
      exact hframe readsFirst_wordRead (by omega) (by omega) (by omega)
    · rw [hlinks, ← hs.parentPageNo]
      exact hframe readsFirst_wordRead (by omega) (by omega) (by omega)
    · rw [hlinks, ← hs.neighborPageCount]
      exact hframe readsFirst_wordRead (by omega) (by omega) (by omega)
    · rw [hlinks]
      exact hs.count
    · rw [hnum, hused]
      exact hs.least
    · rw [hused]
      exact hs.most
    · rw [hblock, hlinks]
      exact hs.neighborPageSpan
    · rw [hverts, hnum]
      exact hs.vertexSpan
    · rw [hptr, hnum]
      exact hs.neighborPtr
  refine ⟨hsync, hlen'.trans h.length, by rw [hnum, h.vertices, hcount], fun j q hj => ?_, ?_, ?_,
    fun q hq => ?_, fun htxn => ?_⟩
  · have hentry : ∀ k, obj'.vertexAt k = vertexRead (obj'.data.drop (cfg.headerBytes + k * 12)) := by
      intro k
      rw [CsrObject.vertexAt, hverts, hspan, csrVertexBytes]
    have hentry' : ∀ k, obj.vertexAt k = vertexRead (obj.data.drop (cfg.headerBytes + k * 12)) := by
      intro k
      rw [CsrObject.vertexAt, hspan, csrVertexBytes]
    rw [hstart, hentry]
    rw [List.getElem?_set] at hj
    split_ifs at hj with hij
    · subst hij
      obtain rfl := Option.some.inj hj
      have hdeg : wordRead (obj'.data.drop (cfg.headerBytes + i * 12 + 4)) = r.degree + 1 := by
        have hwide := (h.validAt hi).insert hext hslot (by omega) hd
        rw [hdata, drop_poke_of_le (by rw [show (halfWrite _).length = 2 from rfl]; omega), ← hvi,
          drop_poke (by rw [length_poke, length_wordWrite]; omega)]
        exact wordRead_wordWrite hwide.degree _
      rw [vertexRead_drop, hdeg, hframe readsFirst_wordRead (by omega) (by omega) (by omega),
        hframe readsFirst_halfRead (by omega) (by omega) (by omega),
        hframe readsFirst_halfRead (by omega) (by omega) (by omega)]
      have hold := h.vertexAt i r hi
      rw [hentry', vertexRead_drop] at hold
      obtain ⟨h1, -, h3, h4⟩ := CsrVertex.mk.inj hold
      rw [h1, h3, h4]
      rfl
    · have hne : j < i ∨ i < j := by omega
      rw [← h.vertexAt j q hj, hentry']
      have hjlt : j < rs.length := (List.getElem?_eq_some_iff.1 hj).1
      refine hframe readsFirst_vertexRead (by omega) ?_ ?_
      · unfold csrVertexBytes
        omega
      · unfold csrVertexBytes
        omega
  · obtain ⟨rest, hst⟩ := h.stored
    refine ⟨rest, ?_⟩
    rw [hcount, hdata, drop_poke_of_le (by rw [show (halfWrite _).length = 2 from rfl]; omega),
      drop_poke_of_le (by rw [length_wordWrite]; omega), ← hw, drop_poke_add, hst,
      poke_stored rest (by omega), hstored]
  · rw [hused, h.usedBytes, hcount, hstored, List.length_set]
  · rcases List.mem_or_eq_of_mem_set hq with hq | rfl
    · exact h.valid q hq
    · exact (h.validAt hi).insert hext hslot (by omega) hd
  · rw [hts]
    exact h.edgeTsPtr htxn

/-- Where the slots of a vertex end, as `insert_edge_in_slot` works it out. -/
theorem Holds.capacityEnd (h : obj.Holds cfg rs) (hi : rs[i]? = some r) :
    (if i + 1 < obj.numVertices then (obj.vertexAt (i + 1)).offset / 4
      else (if cfg.transaction ∧ obj.edgeTsPtr ≠ none then
        neighborDataSize (obj.usedBytes - fixedSize cfg.toConfig obj.numVertices)
        else obj.usedBytes - fixedSize cfg.toConfig obj.numVertices) / 4) =
      if ∃ q, rs[i + 1]? = some q ∧ q.isExternal = true then 0
      else Region.start rs i + r.words.length := by
  rw [h.vertices]
  cases hnext : rs[i + 1]? with
  | some q =>
    have hlt : i + 1 < rs.length := (List.getElem?_eq_some_iff.1 hnext).1
    rw [if_pos hlt, h.vertexAt (i + 1) q hnext, Region.start_succ hi, Region.entry]
    cases hq : q.isExternal with
    | true =>
      rw [if_pos rfl, if_pos ⟨q, rfl, hq⟩]
      exact Nat.zero_div 4
    | false =>
      rw [if_neg Bool.false_ne_true, if_neg]
      · exact Nat.mul_div_cancel _ (by decide)
      · rintro ⟨q', hq', hx⟩
        obtain rfl := Option.some.inj hq'
        rw [hq] at hx
        cases hx
  | none =>
    have hlt : ¬ i + 1 < rs.length := fun hlt => by
      rw [List.getElem?_eq_getElem hlt] at hnext
      cases hnext
    have hilt : i < rs.length := (List.getElem?_eq_some_iff.1 hi).1
    have hall : Region.start rs i + r.words.length = (Region.stored rs).length := by
      rw [← Region.start_succ hi, ← Region.start_length]
      congr 1
      omega
    have hused := h.usedBytes
    have hno : ¬ ∃ q : Region, none = some q ∧ q.isExternal = true := by
      rintro ⟨q, hq, -⟩
      cases hq
    rw [if_neg hlt, if_neg hno, hall, hused]
    unfold PageConfig.tsDataSize neighborDataSize timestampBytes
    cases htxn : cfg.transaction with
    | true =>
      have hts : obj.edgeTsPtr ≠ none := by
        intro hnone
        have hsome := h.edgeTsPtr htxn
        rw [hnone] at hsome
        cases hsome
      rw [if_pos ⟨rfl, hts⟩, if_pos rfl]
      omega
    | false =>
      rw [if_neg (fun hc => Bool.false_ne_true hc.1), if_neg Bool.false_ne_true]
      omega

/-- What a slot insert can do: nothing, or to write one more neighbour into the region of a vertex
below the giant bound that has a free slot. -/
theorem Holds.insertEdgeInSlot (h : obj.Holds cfg rs) (hraw : cfg.neighborCompress = false)
    (hsize : cfg.pageSize < 2 ^ 32) (i : Nat) (src : VId) (hd : dest < 2 ^ 32) :
    (∃ status, status ≠ .inserted ∧ obj.insertEdgeInSlot cfg i src dest = (status, obj)) ∨
      ∃ r obj', obj.insertEdgeInSlot cfg i src dest = (.inserted, obj') ∧ rs[i]? = some r ∧
        r.isExternal = false ∧ r.degree < cfg.giantDegreeBound ∧ r.degree < r.words.length ∧
        obj'.numEdges = (obj.numEdges + 1) % 2 ^ 16 ∧
        obj'.Holds cfg (rs.set i (r.insert dest)) := by
  unfold CsrObject.insertEdgeInSlot
  by_cases hi : i ≥ obj.numVertices
  · rw [if_pos hi]
    exact .inl ⟨.failed, by decide, rfl⟩
  rw [if_neg hi, if_neg (by rw [hraw]; decide)]
  obtain ⟨r, hr⟩ : ∃ r, rs[i]? = some r := by
    have hlt : i < rs.length := by
      rw [← h.vertices]
      omega
    exact ⟨_, getElem?_eq_getElem hlt⟩
  have hentry := h.vertexAt i r hr
  have hdegree : (obj.vertexAt i).degree = r.degree := congrArg CsrVertex.degree hentry
  dsimp only
  rw [h.capacityEnd hr]
  by_cases hsrc : src ≠ (obj.vertexAt i).vertexId
  · rw [if_pos hsrc]
    exact .inl ⟨.failed, by decide, rfl⟩
  rw [if_neg hsrc]
  by_cases hg : (obj.vertexAt i).degree ≥ cfg.giantDegreeBound
  · rw [if_pos hg]
    exact .inl ⟨.failed, by decide, rfl⟩
  rw [if_neg hg]
  rw [hdegree] at hg
  have hv := h.validAt hr
  have hext : r.isExternal = false := by
    cases hx : r.isExternal with
    | false => rfl
    | true => exact absurd (hv.giant hx).2 hg
  have hin := hv.inside hext
  have hfits := h.fits
  have hend := start_add_le hr
  have hoff : (obj.vertexAt i).offset = start rs i * 4 := by
    rw [hentry, entry, hext]
    rfl
  have hidx : ((obj.vertexAt i).offset / 4 + (obj.vertexAt i).degree) % 2 ^ 32 =
      start rs i + r.degree := by
    rw [hoff, hdegree]
    omega
  have hdeg : ((obj.vertexAt i).degree + 1) % 2 ^ 32 = r.degree + 1 := by
    rw [hdegree]
    omega
  rw [hidx, hdeg]
  split_ifs with hnext hfull hfull
  · exact .inl ⟨.slotFull, by decide, rfl⟩
  · exact absurd (Nat.zero_le _) hfull
  · exact .inl ⟨.slotFull, by decide, rfl⟩
  · have hslot : r.degree < r.words.length := by omega
    exact .inr ⟨r, _, rfl, hr, hext, Nat.not_le.1 hg, hslot, rfl,
      h.writeEdge hsize hr hext hslot hd⟩

/-! ## Runs of slot inserts -/

/-- The arguments of a call of `insert_edge_in_slot`. -/
structure InsertCall where
  srcVertexOffset : Nat
  srcVertexId : VId
  destVertexId : VId
  deriving DecidableEq, Repr

/-- A call of `insert_edge_in_slot`. -/
def SlotInsert (cfg : PageConfig) (obj : CsrObject) (call : InsertCall) (obj' : CsrObject) : Prop :=
  call.destVertexId < 2 ^ 32 ∧
    obj' = (obj.insertEdgeInSlot cfg call.srcVertexOffset call.srcVertexId call.destVertexId).2

/-- Nothing is inserted into a page of no vertices. -/
theorem insertEdgeInSlot_empty (cfg : PageConfig) (start : CsrObject) (i : Nat) (src dest : VId) :
    (start.builtEmpty cfg).insertEdgeInSlot cfg i src dest = (.failed, start.builtEmpty cfg) :=
  if_pos (Nat.zero_le i)

variable {obj' : CsrObject} {calls : List InsertCall} {j : Nat}

/-- A slot insert on a page that stores regions leaves one, in which the neighbours of every other
vertex are as they were. -/
theorem Holds.slotInsert (h : obj.Holds cfg rs) (hraw : cfg.neighborCompress = false)
    (hsize : cfg.pageSize < 2 ^ 32) (i : Nat) (src : VId) (hd : dest < 2 ^ 32) :
    ∃ rs', (obj.insertEdgeInSlot cfg i src dest).2.Holds cfg rs' ∧
      ∀ j, j ≠ i → rs'[j]? = rs[j]? := by
  rcases h.insertEdgeInSlot hraw hsize i src hd with ⟨status, -, hst⟩ | ⟨r, obj', hst, hr, -, -, -, -,
    hholds⟩
  · rw [hst]
    exact ⟨rs, h, fun _ _ => rfl⟩
  · rw [hst]
    exact ⟨_, hholds, fun j hj => getElem?_set_ne hj.symm⟩

/-- Two pages that store the same region at an index read alike there. -/
theorem Holds.getNeighbors_congr {rs' : List Region} (h : obj.Holds cfg rs)
    (h' : obj'.Holds cfg rs') (hj : rs'[j]? = rs[j]?) :
    obj'.getNeighbors cfg j = obj.getNeighbors cfg j := by
  cases hr : rs[j]? with
  | some r => rw [h.getNeighbors hr, h'.getNeighbors (hj.trans hr)]
  | none =>
    have hout : ∀ {o : CsrObject} {qs : List Region}, o.Holds cfg qs → qs[j]? = none →
        o.getNeighbors cfg j = [] := by
      intro o qs ho hq
      unfold CsrObject.getNeighbors
      rw [if_pos (by rw [ho.vertices]; exact getElem?_eq_none_iff.1 hq)]
    rw [hout h hr, hout h' (hj.trans hr)]

/-- After any run of slot inserts a page built either way is the empty one or stores regions. -/
theorem holds_of_run (h : BuiltObject cfg obj) (hsize : cfg.pageSize < 2 ^ 32)
    (hraw : cfg.neighborCompress = false) (run : Steps (SlotInsert cfg) obj calls obj') :
    (∃ start, obj' = builtEmpty cfg start) ∨ ∃ rs, obj'.Holds cfg rs := by
  refine run.inv (fun _ o => (∃ start, o = builtEmpty cfg start) ∨ ∃ rs, o.Holds cfg rs)
    (h.holds hsize hraw) fun es o call o' ho hstep => ?_
  obtain ⟨hd, rfl⟩ := hstep
  rcases ho with ⟨start, rfl⟩ | ⟨rs, hrs⟩
  · rw [insertEdgeInSlot_empty]
    exact .inl ⟨start, rfl⟩
  · obtain ⟨rs', hrs', -⟩ := hrs.slotInsert hraw hsize call.srcVertexOffset call.srcVertexId hd
    exact .inr ⟨rs', hrs'⟩

/-- After any run of slot inserts on a page either builder made: a further insert changes the
neighbours of no other vertex, the used bytes fit the page, and parsing the bytes gives the
neighbours, the degrees and the edge count of the live page. -/
theorem insertEdgeInSlot_frame (h : BuiltObject cfg obj) (hsize : cfg.pageSize < 2 ^ 32)
    (hraw : cfg.neighborCompress = false) (run : Steps (SlotInsert cfg) obj calls obj') :
    (∀ i src dest j, dest < 2 ^ 32 → j ≠ i →
      (obj'.insertEdgeInSlot cfg i src dest).2.getNeighbors cfg j = obj'.getNeighbors cfg j) ∧
    obj'.usedBytes ≤ cfg.pageSize ∧
    ∃ parsed, (ofData obj'.data).parseFromPageData cfg = (none, parsed) ∧
      parsed.numVertices = obj'.numVertices ∧ parsed.numEdges = obj'.numEdges ∧
      ∀ j, parsed.getNeighbors cfg j = obj'.getNeighbors cfg j ∧
        parsed.getVertexDegree j = obj'.getVertexDegree j := by
  rcases holds_of_run h hsize hraw run with ⟨start, rfl⟩ | ⟨rs, hrs⟩
  · have hparse := parse_builtEmpty (.refl 0 16 (start.builtEmpty cfg).data)
    generalize hpage : start.builtEmpty cfg = page at hparse ⊢
    have hnum : page.numVertices = 0 := by rw [← hpage]; rfl
    have hedges : page.numEdges = 0 := by rw [← hpage]; rfl
    have hused : page.usedBytes = 0 := by rw [← hpage]; rfl
    refine ⟨fun i src dest j _ _ => ?_, hused ▸ Nat.zero_le _, _, hparse, hnum.symm, hedges.symm,
      fun j => ?_⟩
    · rw [← hpage, insertEdgeInSlot_empty]
    · obtain ⟨hn, hd⟩ := reads_of_numVertices_eq_zero hnum cfg j
      rw [hn, hd]
      exact reads_of_numVertices_eq_zero rfl cfg j
  · refine ⟨fun i src dest j hd hj => ?_, hrs.synced.most, _, hrs.synced.reparse, rfl, rfl,
      fun j => ⟨rfl, rfl⟩⟩
    obtain ⟨rs', hrs', hsame⟩ := hrs.slotInsert hraw hsize i src hd
    exact hrs.getNeighbors_congr hrs' (hsame j hj)

/-- A page with timestamps of two vertices with a slot each, after an insert at the first: it parses
to its three edges. -/
theorem insertEdgeInSlot_frame_pair : ∃ obj obj' parsed,
    BuiltObject ⟨⟨128, 64, 2, 4, 1, 0, false⟩, true⟩ obj ∧
    SlotInsert ⟨⟨128, 64, 2, 4, 1, 0, false⟩, true⟩ obj ⟨0, 1, 3⟩ obj' ∧
    (ofData obj'.data).parseFromPageData ⟨⟨128, 64, 2, 4, 1, 0, false⟩, true⟩ = (none, parsed) ∧
    parsed.numEdges = obj'.numEdges ∧
    parsed.getNeighbors ⟨⟨128, 64, 2, 4, 1, 0, false⟩, true⟩ 0 =
      obj'.getNeighbors ⟨⟨128, 64, 2, 4, 1, 0, false⟩, true⟩ 0 := by
  obtain ⟨obj, hbuilt⟩ : ∃ obj, BuiltObject ⟨⟨128, 64, 2, 4, 1, 0, false⟩, true⟩ obj :=
    ⟨_, @BuiltObject.map ⟨⟨128, 64, 2, 4, 1, 0, false⟩, true⟩
      (new ⟨⟨128, 64, 2, 4, 1, 0, false⟩, true⟩) (fun _ => 1) [(1, [2]), (4, [5])] _ [] _
      (by decide) (by decide) (by decide) (by decide) rfl⟩
  have hstep : SlotInsert ⟨⟨128, 64, 2, 4, 1, 0, false⟩, true⟩ obj ⟨0, 1, 3⟩
      (obj.insertEdgeInSlot ⟨⟨128, 64, 2, 4, 1, 0, false⟩, true⟩ 0 1 3).2 := ⟨by decide, rfl⟩
  obtain ⟨-, -, parsed, hparse, -, hedges, hreads⟩ :=
    insertEdgeInSlot_frame hbuilt (by decide) rfl (Steps.snoc .nil hstep)
  exact ⟨_, _, parsed, hbuilt, hstep, hparse, hedges, (hreads 0).1⟩

/-- A page built from an adjacency map, with the inserts since: the edge count is that of the
regions, whose words take less than `2 ^ 16` bytes. -/
structure Counted (cfg : PageConfig) (rs : List Region) (obj : CsrObject) : Prop where
  holds : obj.Holds cfg rs
  numEdges : obj.numEdges = Region.edges rs
  narrow : (Region.stored rs).length * 4 < 2 ^ 16

theorem Counted.insert (h : obj.Counted cfg rs) (hi : rs[i]? = some r) (hext : r.isExternal = false)
    (hslot : r.degree < r.words.length) (hnum : obj'.numEdges = (obj.numEdges + 1) % 2 ^ 16)
    (hholds : obj'.Holds cfg (rs.set i (r.insert dest))) :
    obj'.Counted cfg (rs.set i (r.insert dest)) ∧ obj'.numEdges = obj.numEdges + 1 := by
  have hedges : edges (rs.set i (r.insert dest)) = edges rs + 1 :=
    edges_insert hi hext
  have hstored : (stored (rs.set i (r.insert dest))).length = (stored rs).length := by
    rw [stored_set hi hslot rfl, length_set]
  have hle := edges_le hholds.valid
  have hold := h.numEdges
  have hnarrow := h.narrow
  have hone : obj'.numEdges = obj.numEdges + 1 := by omega
  exact ⟨⟨hholds, by omega, by omega⟩, hone⟩

end CsrObject

theorem Region.edges_ofItems {cfg : Config} {slots : VId → Nat} {items : List (VId × List VId)}
    (h : ∀ it ∈ items, it.2.length < 2 ^ 32) :
    edges (ofItems cfg slots items) = (items.map (normalDegree cfg)).sum := by
  unfold edges ofItems
  rw [map_map]
  congr 1
  refine map_congr_left fun it hit => ?_
  rw [Function.comp_apply, ofVertex, Nat.mod_eq_of_lt (h it hit), normalDegree]
  split_ifs <;> first | rfl | contradiction

namespace CsrObject

variable {cfg : PageConfig} {start obj obj' : CsrObject} {slots : VId → Nat}
  {items : List (VId × List VId)} {vm vm' : List (VId × Nat)} {calls : List InsertCall} {i : Nat}
  {src dest : VId}

/-- After any run of slot inserts a page built from an adjacency map is the empty one or `Counted`. -/
theorem counted_of_run (hparent : start.links.parentPageNo < 2 ^ 32)
    (hcount : start.links.neighborPageCount ≤ cfg.maxBlockNeighbor)
    (hids : ∀ it ∈ items, it.1 < 2 ^ 32) (hnbrs : ∀ it ∈ items, ∀ d ∈ it.2, d < 2 ^ 32)
    (hbuild : start.buildFromAdjacencyMap cfg slots items vm = (none, obj, vm'))
    (hsize : cfg.pageSize < 2 ^ 32) (hraw : cfg.neighborCompress = false)
    (run : Steps (SlotInsert cfg) obj calls obj') :
    (∃ start, obj' = builtEmpty cfg start) ∨ ∃ rs, obj'.Counted cfg rs := by
  refine run.inv (fun _ o => (∃ start, o = builtEmpty cfg start) ∨ ∃ rs, o.Counted cfg rs)
    ?_ fun es o call o' ho hstep => ?_
  · by_cases hne : items = []
    · unfold buildFromAdjacencyMap at hbuild
      rw [if_pos hne] at hbuild
      exact .inl ⟨start, (Prod.mk.inj (Prod.mk.inj hbuild).2).1.symm⟩
    · obtain ⟨hb, -, -, hedges, hnarrow, hts, -⟩ := build_ok hne hbuild hsize hids hparent hcount
      refine .inr ⟨_, hb.holds hraw hids hnbrs fun htxn => by rw [hts, if_pos htxn]; rfl, ?_, ?_⟩
      · rw [hedges, edges_ofItems hb.degree]
      · rw [block_eq_rawBlock hraw, ← flatMap_stored_ofItems hb.degree,
          length_flatMap_wordWrite] at hnarrow
        omega
  · obtain ⟨hd, rfl⟩ := hstep
    rcases ho with ⟨start, rfl⟩ | ⟨rs, hrs⟩
    · rw [insertEdgeInSlot_empty]
      exact .inl ⟨start, rfl⟩
    · rcases hrs.holds.insertEdgeInSlot hraw hsize call.srcVertexOffset call.srcVertexId hd with
        ⟨status, -, hst⟩ | ⟨r, o', hst, hr, hext, -, hslot, hnum, hholds⟩
      · rw [hst]
        exact .inr ⟨rs, hrs⟩
      · rw [hst]
        exact .inr ⟨_, (hrs.insert hr hext hslot hnum hholds).1⟩

/-- An insert that reports success, after any run of slot inserts on a page built from an adjacency
map, appends the destination to the neighbours of the vertex and counts one edge more exactly when
the new degree stays below the giant bound. -/
theorem insertEdgeInSlot_appends_iff (hparent : start.links.parentPageNo < 2 ^ 32)
    (hcount : start.links.neighborPageCount ≤ cfg.maxBlockNeighbor)
    (hids : ∀ it ∈ items, it.1 < 2 ^ 32) (hnbrs : ∀ it ∈ items, ∀ d ∈ it.2, d < 2 ^ 32)
    (hbuild : start.buildFromAdjacencyMap cfg slots items vm = (none, obj, vm'))
    (hsize : cfg.pageSize < 2 ^ 32) (hraw : cfg.neighborCompress = false)
    (run : Steps (SlotInsert cfg) obj calls obj') (hd : dest < 2 ^ 32)
    (hins : (obj'.insertEdgeInSlot cfg i src dest).1 = .inserted) :
    ((obj'.insertEdgeInSlot cfg i src dest).2.getNeighbors cfg i =
        obj'.getNeighbors cfg i ++ [dest] ∧
      (obj'.insertEdgeInSlot cfg i src dest).2.numEdges = obj'.numEdges + 1) ↔
    obj'.getVertexDegree i + 1 < cfg.giantDegreeBound := by
  rcases counted_of_run hparent hcount hids hnbrs hbuild hsize hraw run with ⟨s, rfl⟩ | ⟨rs, hrs⟩
  · rw [insertEdgeInSlot_empty] at hins
    cases hins
  · rcases hrs.holds.insertEdgeInSlot hraw hsize i src hd with
      ⟨status, hne, hst⟩ | ⟨r, o', hst, hr, hext, hdeg, hslot, hnum, hholds⟩
    · rw [hst] at hins
      exact absurd hins hne
    · have hnew : (rs.set i (r.insert dest))[i]? = some (r.insert dest) :=
        List.getElem?_set_self (List.getElem?_eq_some_iff.1 hr).1
      rw [hst, hholds.getNeighbors hnew, hrs.holds.getNeighbors hr, hrs.holds.getVertexDegree hr]
      constructor
      · rintro ⟨happ, -⟩
        by_contra hge
        rw [Region.neighbors_giant (Nat.not_lt.1 hge : (r.insert dest).degree ≥ _)] at happ
        exact absurd happ.symm (List.append_ne_nil_of_right_ne_nil _ (List.cons_ne_nil _ _))
      · intro hlt
        exact ⟨Region.neighbors_insert hslot hlt, (hrs.insert hr hext hslot hnum hholds).2⟩

/-- A vertex of one neighbour and two slots, with a giant bound of 4: the second neighbour is
appended. -/
theorem insertEdgeInSlot_appends_second : ∃ obj vm',
    (new ⟨⟨128, 64, 2, 4, 1, 0, false⟩, false⟩).buildFromAdjacencyMap
      ⟨⟨128, 64, 2, 4, 1, 0, false⟩, false⟩ (fun _ => 2) [(1, [2])] [] = (none, obj, vm') ∧
    (obj.insertEdgeInSlot ⟨⟨128, 64, 2, 4, 1, 0, false⟩, false⟩ 0 1 3).2.getNeighbors
        ⟨⟨128, 64, 2, 4, 1, 0, false⟩, false⟩ 0 =
      obj.getNeighbors ⟨⟨128, 64, 2, 4, 1, 0, false⟩, false⟩ 0 ++ [3] := by
  refine ⟨_, _, rfl, ?_⟩
  exact ((@insertEdgeInSlot_appends_iff ⟨⟨128, 64, 2, 4, 1, 0, false⟩, false⟩
    (new ⟨⟨128, 64, 2, 4, 1, 0, false⟩, false⟩) _ _ (fun _ => 2) [(1, [2])] [] _ [] 0 1 3 (by decide)
    (by decide) (by decide) (by decide) rfl (by decide) rfl .nil (by decide)
    (by decide +kernel)).2 (by decide +kernel)).1

/-- A vertex of three neighbours and a slot, with a giant bound of 4: the insert is reported as
done, and the reader finds no neighbours. -/
theorem insertEdgeInSlot_vanishes : ¬ ∀ (cfg : PageConfig) (start obj : CsrObject)
    (slots : VId → Nat) (items : List (VId × List VId)) (vm vm' : List (VId × Nat)) (i : Nat)
    (src dest : VId), start.links.parentPageNo < 2 ^ 32 →
    start.links.neighborPageCount ≤ cfg.maxBlockNeighbor → (∀ it ∈ items, it.1 < 2 ^ 32) →
    (∀ it ∈ items, ∀ d ∈ it.2, d < 2 ^ 32) →
    start.buildFromAdjacencyMap cfg slots items vm = (none, obj, vm') → cfg.pageSize < 2 ^ 32 →
    cfg.neighborCompress = false → dest < 2 ^ 32 →
    (obj.insertEdgeInSlot cfg i src dest).1 = .inserted →
    (obj.insertEdgeInSlot cfg i src dest).2.getNeighbors cfg i =
      obj.getNeighbors cfg i ++ [dest] := by
  intro hall
  have happ := hall ⟨⟨128, 64, 2, 4, 1, 0, false⟩, false⟩
    (new ⟨⟨128, 64, 2, 4, 1, 0, false⟩, false⟩) _ (fun _ => 1) [(1, [2, 3, 4])] [] _ 0 1 5 (by decide)
    (by decide) (by decide) (by decide) rfl (by decide) rfl (by decide) (by decide +kernel)
  revert happ
  decide +kernel

end CsrObject

/-! ## The two inserts side by side -/

/-- The index of the word behind the neighbours of a vertex. -/
def CsrVertex.neighborEndIdx (e : CsrVertex) : Nat := (e.offset / 4 + e.degree) % 2 ^ 32

/-- The byte behind that word. -/
def CsrVertex.newEndOffset (e : CsrVertex) : Nat :=
  (e.offset / 4 + (e.degree + 1) % 2 ^ 32) % 2 ^ 32 * 4 % 2 ^ 32

namespace CsrObject

/-- Where the slots of a vertex end, if the neighbour section has `size` bytes. -/
def slotsEnd (obj : CsrObject) (i size : Nat) : Nat :=
  if i + 1 < obj.numVertices then (obj.vertexAt (i + 1)).offset / 4 else size / 4

/-- The bytes behind the vertices. -/
def remaining (cfg : PageConfig) (obj : CsrObject) : Nat :=
  obj.usedBytes - fixedSize cfg.toConfig obj.numVertices

/-- Those of them that are not timestamps. -/
def neighborSize (cfg : PageConfig) (obj : CsrObject) : Nat :=
  if cfg.transaction then neighborDataSize (obj.remaining cfg) else obj.remaining cfg

variable {cfg : PageConfig} {obj : CsrObject} {i : Nat} {dest : VId}

theorem slotsEnd_le (cfg : PageConfig) (obj : CsrObject) (i : Nat) :
    obj.slotsEnd i (obj.neighborSize cfg) ≤ obj.slotsEnd i (obj.remaining cfg) := by
  unfold slotsEnd neighborSize neighborDataSize timestampBytes
  split_ifs <;> omega

theorem insertEdgeInSlot_eq (hts : cfg.transaction = true → obj.edgeTsPtr ≠ none)
    (hraw : cfg.neighborCompress = false) (hi : i < obj.numVertices)
    (hdeg : (obj.vertexAt i).degree < cfg.giantDegreeBound) (dest : VId) :
    obj.insertEdgeInSlot cfg i (obj.vertexAt i).vertexId dest =
      if obj.slotsEnd i (obj.neighborSize cfg) ≤ (obj.vertexAt i).neighborEndIdx then (.slotFull, obj)
      else (.inserted, obj.writeEdge cfg i (obj.vertexAt i).neighborEndIdx
        (((obj.vertexAt i).degree + 1) % 2 ^ 32) dest) := by
  have hsize : (if cfg.transaction ∧ obj.edgeTsPtr ≠ none then neighborDataSize (obj.remaining cfg)
      else obj.remaining cfg) = obj.neighborSize cfg := by
    unfold neighborSize
    by_cases htxn : cfg.transaction = true
    · rw [if_pos htxn, if_pos ⟨htxn, hts htxn⟩]
    · rw [if_neg htxn, if_neg fun hc => htxn hc.1]
  unfold insertEdgeInSlot
  rw [if_neg (Nat.not_le.2 hi), if_neg (by rw [hraw]; decide), if_neg (fun h => h rfl),
    if_neg (Nat.not_le.2 hdeg)]
  show (if (if _ then _ else (if _ then neighborDataSize (obj.remaining cfg)
    else obj.remaining cfg) / 4) ≤ _ then _ else _) = _
  rw [hsize]
  rfl

theorem insertEdge_eq (hparse : obj.isParse = true) (hraw : cfg.neighborCompress = false)
    (hi : i < obj.numVertices) (hlive : (obj.vertexAt i).isDeleted = false)
    (hdeg : (obj.vertexAt i).degree < cfg.giantDegreeBound) (dest : VId) :
    obj.insertEdge cfg i (obj.vertexAt i).vertexId dest =
      if dest ∈ wordReads (obj.vertexAt i).degree
        (obj.data.drop (obj.neighborPos + (obj.vertexAt i).offset)) then (.failed, obj)
      else if obj.slotsEnd i (obj.remaining cfg) ≤ (obj.vertexAt i).neighborEndIdx then
        (.slotFull, obj)
      else if uint16Max < (obj.vertexAt i).newEndOffset then (.slotFull, obj)
      else if uint16Max ≤ obj.numEdges then (.failed, obj)
      else (.inserted, obj.writeEdge cfg i (obj.vertexAt i).neighborEndIdx
        (((obj.vertexAt i).degree + 1) % 2 ^ 32) dest) := by
  unfold insertEdge
  rw [if_neg (by rw [hparse]; decide), if_neg (by rw [hraw]; decide), if_neg (Nat.not_le.2 hi),
    if_neg (fun h => h rfl), if_neg (by rw [hlive]; decide), if_neg (Nat.not_le.2 hdeg)]
  rfl

/-- The two inserts return the same status and leave the same bytes exactly when no word at the byte
offset of the vertex is the destination, and the next word lies behind the slots for both, or before
their end for both with room in the 16-bit limits, or between the two ends and behind the limit. -/
theorem insertEdge_agrees_iff (h : obj.Synced cfg)
    (hts : cfg.transaction = true → obj.edgeTsPtr ≠ none) (hraw : cfg.neighborCompress = false)
    (hi : i < obj.numVertices) (hlive : (obj.vertexAt i).isDeleted = false)
    (hdeg : (obj.vertexAt i).degree < cfg.giantDegreeBound) :
    ((obj.insertEdge cfg i (obj.vertexAt i).vertexId dest).1 =
        (obj.insertEdgeInSlot cfg i (obj.vertexAt i).vertexId dest).1 ∧
      (obj.insertEdge cfg i (obj.vertexAt i).vertexId dest).2.data =
        (obj.insertEdgeInSlot cfg i (obj.vertexAt i).vertexId dest).2.data) ↔
    dest ∉ wordReads (obj.vertexAt i).degree
        (obj.data.drop (obj.neighborPos + (obj.vertexAt i).offset)) ∧
      (obj.slotsEnd i (obj.remaining cfg) ≤ (obj.vertexAt i).neighborEndIdx ∨
        (obj.vertexAt i).neighborEndIdx < obj.slotsEnd i (obj.neighborSize cfg) ∧
          (obj.vertexAt i).newEndOffset ≤ uint16Max ∧ obj.numEdges < uint16Max ∨
        obj.slotsEnd i (obj.neighborSize cfg) ≤ (obj.vertexAt i).neighborEndIdx ∧
          (obj.vertexAt i).neighborEndIdx < obj.slotsEnd i (obj.remaining cfg) ∧
          uint16Max < (obj.vertexAt i).newEndOffset) := by
  rw [insertEdge_eq h.isParse hraw hi hlive hdeg, insertEdgeInSlot_eq hts hraw hi hdeg]
  have hle := slotsEnd_le cfg obj i
  generalize obj.slotsEnd i (obj.neighborSize cfg) = narrow at hle ⊢
  generalize obj.slotsEnd i (obj.remaining cfg) = wide at hle ⊢
  generalize (obj.vertexAt i).neighborEndIdx = k
  generalize (obj.vertexAt i).newEndOffset = stop
  generalize uint16Max = limit
  by_cases hdup : dest ∈ wordReads (obj.vertexAt i).degree
    (obj.data.drop (obj.neighborPos + (obj.vertexAt i).offset))
  · rw [if_pos hdup]
    refine ⟨fun hs => ?_, fun hs => absurd hdup hs.1⟩
    split_ifs at hs
    · cases hs.1
    · cases hs.1
  · rw [if_neg hdup]
    simp only [hdup, not_false_eq_true, true_and]
    -- every pair of outcomes, against the place of the next word
    split_ifs <;> simp <;> omega

/-- Two vertices with a slot each, on a page with timestamps: at the first one the inserts agree. -/
theorem insertEdge_agrees_first : ∃ obj vm',
    (new ⟨⟨128, 64, 2, 4, 1, 0, false⟩, true⟩).buildFromAdjacencyMap
      ⟨⟨128, 64, 2, 4, 1, 0, false⟩, true⟩ (fun _ => 1) [(1, [2]), (4, [5])] [] = (none, obj, vm') ∧
    (obj.insertEdge ⟨⟨128, 64, 2, 4, 1, 0, false⟩, true⟩ 0 (obj.vertexAt 0).vertexId 3).2.data =
      (obj.insertEdgeInSlot ⟨⟨128, 64, 2, 4, 1, 0, false⟩, true⟩ 0
        (obj.vertexAt 0).vertexId 3).2.data := by
  refine ⟨_, _, rfl, ?_⟩
  obtain ⟨hb, -⟩ := @build_ok ⟨⟨128, 64, 2, 4, 1, 0, false⟩, true⟩ (fun _ => 1) [(1, [2]), (4, [5])]
    (new ⟨⟨128, 64, 2, 4, 1, 0, false⟩, true⟩) _ [] _ (by decide) rfl (by decide) (by decide)
    (by decide) (by decide)
  exact ((@insertEdge_agrees_iff ⟨⟨128, 64, 2, 4, 1, 0, false⟩, true⟩ _ 0 3 hb.synced
    (by decide +kernel)
    rfl (by decide +kernel) (by decide +kernel) (by decide +kernel)).2 (by decide +kernel)).2

/-- One vertex without slots, on a page with timestamps: `insert_edge` writes over the timestamp. -/
theorem insertEdge_overruns : ¬ ∀ (cfg : PageConfig) (obj : CsrObject) (i : Nat) (dest : VId),
    obj.Synced cfg → (cfg.transaction = true → obj.edgeTsPtr ≠ none) →
    cfg.neighborCompress = false → i < obj.numVertices → (obj.vertexAt i).isDeleted = false →
    (obj.vertexAt i).degree < cfg.giantDegreeBound → dest ∉ obj.getNeighbors cfg i →
    (obj.insertEdge cfg i (obj.vertexAt i).vertexId dest).1 =
        (obj.insertEdgeInSlot cfg i (obj.vertexAt i).vertexId dest).1 ∧
      (obj.insertEdge cfg i (obj.vertexAt i).vertexId dest).2.data =
        (obj.insertEdgeInSlot cfg i (obj.vertexAt i).vertexId dest).2.data := by
  intro hall
  obtain ⟨hb, -⟩ := @build_ok ⟨⟨128, 64, 2, 4, 1, 0, false⟩, true⟩ (fun _ => 0) [(1, [2])]
    (new ⟨⟨128, 64, 2, 4, 1, 0, false⟩, true⟩) _ [] _ (by decide) rfl (by decide) (by decide)
    (by decide) (by decide)
  have hsame := hall _ _ 0 3 hb.synced (by decide +kernel) rfl (by decide +kernel)
    (by decide +kernel) (by decide +kernel) (by decide +kernel)
  revert hsame
  decide +kernel

end CsrObject

end BwGraph
