import Mathlib.Algebra.Order.Ring.Nat
import Mathlib.Data.List.Infix
import Mathlib.Data.List.Lex
import Mathlib.Data.List.TakeDrop
import Mathlib.Order.Fin.Basic
import BwGraph.Lib.OrdMap
import BwGraph.Lib.Run

/-
  The property store (`property_store_t`, `property_store.cc`). RocksDB is an ordered map from byte
  strings to byte strings; writes to it succeed. Vertex and edge properties share one key space: a
  key is the tag of its kind, the ids, two bytes for the length of the property key, and the
  property key itself.

  The encoding is injective (`propKey_injective`), the keys of one vertex or edge are those that
  start with its prefix (`prefix_isPrefix_propKey`), and these lie together in the order of the
  store (`isPrefix_of_lt`). So every read is the read of a map from properties to values
  (`getProperty_run`). The scan of `get_all` decodes what it finds: the length field has two bytes,
  and an empty name is skipped, so it gives back the map of an entity exactly when its keys are
  neither empty nor longer than the field can say (`PropertyStore.getAll_run_iff`).
-/

namespace BwGraph

open List Nat OrdMap

/-- `char`, in the order of the bytewise comparator. -/
abbrev Byte := Fin 256

/-- `std::string`. -/
abbrev Bytes := List Byte

/-- What a property belongs to. -/
inductive Entity where
  | vertex (vertexId : Fin (2 ^ 32))
  | edge (srcId dstId : Fin (2 ^ 32))
  deriving DecidableEq

namespace PropertyStore

/-! ## Keys -/

def vertexPropTag : Byte := 1

def edgePropTag : Byte := 2

/-- `write_be32`. -/
def writeBe32 (v : Nat) : Bytes :=
  [Fin.ofNat 256 (v / 2 ^ 24), Fin.ofNat 256 (v / 2 ^ 16), Fin.ofNat 256 (v / 2 ^ 8),
    Fin.ofNat 256 v]

/-- `write_be16`. -/
def writeBe16 (v : Nat) : Bytes := [Fin.ofNat 256 (v / 2 ^ 8), Fin.ofNat 256 v]

/-- `make_vertex_prefix`. -/
def makeVertexPrefix (v : Fin (2 ^ 32)) : Bytes := vertexPropTag :: writeBe32 v

/-- `make_edge_prefix`. -/
def makeEdgePrefix (src dst : Fin (2 ^ 32)) : Bytes :=
  edgePropTag :: (writeBe32 src ++ writeBe32 dst)

/-- The property key behind its length, which is cast to `uint16_t`. -/
def propName (key : Bytes) : Bytes := writeBe16 (key.length % 2 ^ 16) ++ key

/-- `make_vertex_prop_key`. -/
def makeVertexPropKey (v : Fin (2 ^ 32)) (key : Bytes) : Bytes :=
  vertexPropTag :: (writeBe32 v ++ propName key)

/-- `make_edge_prop_key`. -/
def makeEdgePropKey (src dst : Fin (2 ^ 32)) (key : Bytes) : Bytes :=
  edgePropTag :: (writeBe32 src ++ writeBe32 dst ++ propName key)

/-- `extract_prop_name`. -/
def extractPropName (raw : Bytes) (prefixLen : Nat) : Bytes :=
  let fixedLen := prefixLen + 2
  if raw.length ≤ fixedLen then [] else
    let keyLen := (raw.getD prefixLen 0).val * 2 ^ 8 + (raw.getD (prefixLen + 1) 0).val
    if raw.length < fixedLen + keyLen then [] else (raw.drop fixedLen).take keyLen

end PropertyStore

namespace Entity

/-- The prefix of the keys of an entity. -/
def keyPrefix : Entity → Bytes
  | .vertex v => PropertyStore.makeVertexPrefix v
  | .edge src dst => PropertyStore.makeEdgePrefix src dst

/-- The length of the prefix, as the scans pass it to `extract_prop_name`. -/
def prefixLen : Entity → Nat
  | .vertex _ => 5
  | .edge _ _ => 9

/-- The storage key of a property. -/
def propKey : Entity → Bytes → Bytes
  | .vertex v, key => PropertyStore.makeVertexPropKey v key
  | .edge src dst, key => PropertyStore.makeEdgePropKey src dst key

end Entity

/-! ## Operations -/

/-- `property_store_t`: its RocksDB. -/
structure PropertyStore where
  db : OrdMap Bytes Bytes

namespace PropertyStore

/-- A new store. -/
def opened : PropertyStore := ⟨OrdMap.empty⟩

def setProperty (e : Entity) (s : PropertyStore) (key value : Bytes) : PropertyStore :=
  ⟨s.db.insert (e.propKey key) value⟩

def getProperty (e : Entity) (s : PropertyStore) (key : Bytes) : Option Bytes :=
  s.db.find? (e.propKey key)

def deleteProperty (e : Entity) (s : PropertyStore) (key : Bytes) : PropertyStore :=
  ⟨s.db.erase (e.propKey key)⟩

/-- The entries that an iterator passes from `Seek(prefix)` on, while they start with the prefix. -/
def prefixScan (e : Entity) (s : PropertyStore) : List (Bytes × Bytes) :=
  s.db.scan e.keyPrefix fun raw => e.keyPrefix.isPrefixOf raw

def getAllProperties (e : Entity) (s : PropertyStore) : OrdMap Bytes Bytes :=
  OrdMap.emplaceAll (((prefixScan e s).map fun x => (extractPropName x.1 e.prefixLen, x.2)).filter
    fun x => !x.1.isEmpty)

/-- The deletes are collected in a batch while the iterator stands on the old store. -/
def deleteAllProperties (e : Entity) (s : PropertyStore) : PropertyStore :=
  ⟨(prefixScan e s).foldl (fun db x => db.erase x.1) s.db⟩

/-- The properties in the order in which the map that is passed iterates over them. -/
def setProperties (e : Entity) (s : PropertyStore) (properties : List (Bytes × Bytes)) :
    PropertyStore :=
  properties.foldl (fun s x => setProperty e s x.1 x.2) s

def setVertexProperty (v : Fin (2 ^ 32)) := setProperty (.vertex v)

def getVertexProperty (v : Fin (2 ^ 32)) := getProperty (.vertex v)

def deleteVertexProperty (v : Fin (2 ^ 32)) := deleteProperty (.vertex v)

def getAllVertexProperties (v : Fin (2 ^ 32)) := getAllProperties (.vertex v)

def deleteAllVertexProperties (v : Fin (2 ^ 32)) := deleteAllProperties (.vertex v)

def setVertexProperties (v : Fin (2 ^ 32)) := setProperties (.vertex v)

def setEdgeProperty (src dst : Fin (2 ^ 32)) := setProperty (.edge src dst)

def getEdgeProperty (src dst : Fin (2 ^ 32)) := getProperty (.edge src dst)

def deleteEdgeProperty (src dst : Fin (2 ^ 32)) := deleteProperty (.edge src dst)

def getAllEdgeProperties (src dst : Fin (2 ^ 32)) := getAllProperties (.edge src dst)

def deleteAllEdgeProperties (src dst : Fin (2 ^ 32)) := deleteAllProperties (.edge src dst)

def setEdgeProperties (src dst : Fin (2 ^ 32)) := setProperties (.edge src dst)

end PropertyStore

/-- The operations of the store. -/
inductive PropOp where
  | set (e : Entity) (key value : Bytes)
  | get (e : Entity) (key : Bytes)
  | delete (e : Entity) (key : Bytes)
  | getAll (e : Entity)
  | deleteAll (e : Entity)
  | setMany (e : Entity) (properties : List (Bytes × Bytes))

/-- The vertex or edge that an operation is about. -/
def PropOp.entity : PropOp → Entity
  | .set e _ _ => e
  | .get e _ => e
  | .delete e _ => e
  | .getAll e => e
  | .deleteAll e => e
  | .setMany e _ => e

namespace PropertyStore

/-- One operation. -/
def step (s : PropertyStore) : PropOp → PropertyStore
  | .set e key value => setProperty e s key value
  | .get _ _ => s
  | .delete e key => deleteProperty e s key
  | .getAll _ => s
  | .deleteAll e => deleteAllProperties e s
  | .setMany e properties => setProperties e s properties

/-- A run of operations on a new store. -/
def run (ops : List PropOp) : PropertyStore := ops.foldl step opened

end PropertyStore

/-! ## What the operations mean -/

/-- The properties of every vertex and edge. -/
abbrev Props := Entity → Bytes → Option Bytes

namespace Props

/-- Change one property. -/
def put (P : Props) (e : Entity) (key : Bytes) (value : Option Bytes) : Props :=
  Function.update P e (Function.update (P e) key value)

/-- One operation. -/
def step (P : Props) : PropOp → Props
  | .set e key value => P.put e key (some value)
  | .get _ _ => P
  | .delete e key => P.put e key none
  | .getAll _ => P
  | .deleteAll e => Function.update P e fun _ => none
  | .setMany e properties => properties.foldl (fun P x => P.put e x.1 (some x.2)) P

/-- The properties that a run of operations leaves. -/
def run (ops : List PropOp) : Props := ops.foldl step fun _ _ => none

theorem put_apply (P : Props) (e e' : Entity) (key key' : Bytes) (value : Option Bytes) :
    P.put e key value e' key' = if e' = e ∧ key' = key then value else P e' key' := by
  unfold put
  by_cases he : e' = e
  · subst he
    simp [Function.update_apply]
  · simp [he]

end Props

/-! ## Prefixes in the order of the keys -/

theorem isPrefix_of_lt {α : Type*} [LinearOrder α] {p x y : List α} (hx : p ≤ x) (hxy : x < y)
    (hy : p <+: y) : p <+: x := by
  induction p generalizing x y with
  | nil => exact nil_prefix
  | cons a p ih =>
    obtain ⟨t, rfl⟩ := hy
    cases x with
    | nil => exact absurd hx (not_le.2 (nil_lt_cons a p))
    | cons b x =>
      rw [cons_append] at hxy
      rcases cons_lt_cons_iff.1 hxy with hba | ⟨rfl, hlt⟩
      · exact absurd hx (not_le.2 (cons_lt_cons_iff.2 (.inl hba)))
      · have hpx : p ≤ x := by
          rw [← not_lt] at hx ⊢
          exact fun h => hx (cons_lt_cons_iff.2 (.inr ⟨rfl, h⟩))
        exact cons_prefix_cons.2 ⟨rfl, ih hpx hlt (prefix_append _ _)⟩

theorem le_of_isPrefix {α : Type*} [LinearOrder α] {p x : List α} (h : p <+: x) : p ≤ x := by
  obtain ⟨t, rfl⟩ := h
  rw [← not_lt]
  intro hlt
  induction p with
  | nil => exact not_lt_nil _ hlt
  | cons a p ih =>
    rw [cons_append] at hlt
    rcases cons_lt_cons_iff.1 hlt with h | ⟨-, h⟩
    · exact lt_irrefl _ h
    · exact ih h

/-! ## The encoding -/

namespace PropertyStore

theorem writeBe32_inj {v w : Fin (2 ^ 32)} (h : writeBe32 v = writeBe32 w) : v = w := by
  simp only [writeBe32, List.cons.injEq, Fin.ext_iff, Fin.val_ofNat, and_true] at h
  apply Fin.ext
  omega

end PropertyStore

namespace Entity

open PropertyStore

variable (e : Entity)

theorem propKey_eq (key : Bytes) : e.propKey key = e.keyPrefix ++ propName key := by
  cases e with
  | vertex v => rfl
  | edge src dst => rfl

@[simp] theorem length_keyPrefix : e.keyPrefix.length = e.prefixLen := by
  cases e with
  | vertex v => rfl
  | edge src dst => rfl

theorem keyPrefix_injective : Function.Injective keyPrefix := by
  intro e e' h
  cases e with
  | vertex v =>
    cases e' with
    | vertex w => rw [writeBe32_inj (List.cons.inj h).2]
    | edge src dst => cases (List.cons.inj h).1
  | edge src dst =>
    cases e' with
    | vertex w => cases (List.cons.inj h).1
    | edge src' dst' =>
      obtain ⟨hsrc, hdst⟩ := append_inj (List.cons.inj h).2 rfl
      rw [writeBe32_inj hsrc, writeBe32_inj hdst]

/-- The prefix of an entity starts its own keys and no other ones. -/
theorem keyPrefix_isPrefix_propKey {e e' : Entity} {key : Bytes} :
    e.keyPrefix <+: e'.propKey key ↔ e = e' := by
  constructor
  · intro h
    by_cases hlen : e.keyPrefix.length = e'.keyPrefix.length
    · rw [propKey_eq, isPrefix_append_of_length hlen.le] at h
      exact keyPrefix_injective (h.eq_of_length hlen)
    · -- the entities are of different kinds, and so are the tags
      cases e with
      | vertex v =>
        cases e' with
        | vertex w => exact absurd rfl hlen
        | edge src dst => cases (cons_prefix_cons.1 h).1
      | edge src dst =>
        cases e' with
        | vertex w => cases (cons_prefix_cons.1 h).1
        | edge src' dst' => exact absurd rfl hlen
  · rintro rfl
    rw [propKey_eq]
    exact prefix_append _ _

theorem propKey_inj {e e' : Entity} {key key' : Bytes} (h : e.propKey key = e'.propKey key') :
    e = e' ∧ key = key' := by
  have he : e = e' := by
    have hpre : e.keyPrefix <+: e'.propKey key' := by
      rw [← h]
      exact keyPrefix_isPrefix_propKey.2 rfl
    exact keyPrefix_isPrefix_propKey.1 hpre
  subst he
  rw [propKey_eq, propKey_eq, append_cancel_left_eq] at h
  exact ⟨rfl, (append_inj h rfl).2⟩

/-- What the scan makes of a key: the length field is the length modulo `2 ^ 16`. -/
theorem extractPropName_propKey (key : Bytes) :
    extractPropName (e.propKey key) e.prefixLen = key.take (key.length % 2 ^ 16) := by
  have hdrop : (e.propKey key).drop e.prefixLen = propName key := by
    rw [propKey_eq, drop_left' e.length_keyPrefix]
  have hlen : (e.propKey key).length = e.prefixLen + 2 + key.length := by
    rw [propKey_eq, length_append, length_keyPrefix, propName, length_append, writeBe16]
    simp only [length_cons, length_nil]
    omega
  have hget : ∀ i, (e.propKey key).getD (e.prefixLen + i) 0 = (propName key).getD i 0 := by
    intro i
    rw [← hdrop, getD_eq_getElem?_getD, getD_eq_getElem?_getD, getElem?_drop]
  have hkey : (((propName key).getD 0 0).val * 2 ^ 8 + ((propName key).getD 1 0).val) =
      key.length % 2 ^ 16 := by
    simp only [propName, writeBe16, cons_append, getD_cons_zero, getD_cons_succ,
      Fin.val_ofNat]
    omega
  have hmod := mod_le key.length (2 ^ 16)
  unfold extractPropName
  simp only
  rw [hget 1, ← Nat.add_zero e.prefixLen, hget 0, Nat.add_zero, hkey, hlen]
  rw [show (e.propKey key).drop (e.prefixLen + 2) = key by rw [← drop_drop, hdrop]; rfl]
  split_ifs with h1 h2
  · rw [length_eq_zero_iff.1 (show key.length = 0 by omega), take_nil]
  · omega
  · rfl

/-- The decoder inverts the encoding as long as the length fits its field. -/
theorem extractPropName_propKey_iff (key : Bytes) :
    extractPropName (e.propKey key) e.prefixLen = key ↔ key.length < 2 ^ 16 := by
  rw [extractPropName_propKey, take_eq_self_iff]
  have hpos := mod_lt key.length (show 0 < 2 ^ 16 by decide)
  constructor
  · exact fun h => lt_of_le_of_lt h hpos
  · exact fun h => (mod_eq_of_lt h).ge

end Entity

/-! ## The scan -/

namespace PropertyStore

/-- The storage keys of a store are encodings. -/
def Encoded (s : PropertyStore) : Prop := ∀ x ∈ s.db.entries, ∃ e key, x.1 = Entity.propKey e key

theorem prefixScan_eq (e : Entity) (s : PropertyStore) :
    prefixScan e s = s.db.entries.filter fun x => e.keyPrefix.isPrefixOf x.1 := by
  apply scan_eq_filter
  · intro x hx
    exact le_of_isPrefix (List.isPrefixOf_iff_prefix.1 hx)
  · intro x y hx hxy hy
    exact List.isPrefixOf_iff_prefix.2
      (isPrefix_of_lt hx hxy (List.isPrefixOf_iff_prefix.1 hy))

section

variable {s : PropertyStore} (hs : s.Encoded) (e : Entity)
include hs

/-- The scan of an entity passes its properties. -/
theorem mem_prefixScan (raw value : Bytes) :
    (raw, value) ∈ prefixScan e s ↔
      ∃ key, raw = e.propKey key ∧ getProperty e s key = some value := by
  rw [prefixScan_eq, mem_filter]
  constructor
  · rintro ⟨hmem, hpre⟩
    obtain ⟨e', key, hraw⟩ := hs _ hmem
    have hraw : raw = e'.propKey key := hraw
    subst hraw
    have he := Entity.keyPrefix_isPrefix_propKey.1 (List.isPrefixOf_iff_prefix.1 hpre)
    subst he
    exact ⟨key, rfl, find?_eq_some.2 hmem⟩
  · rintro ⟨key, rfl, hget⟩
    exact ⟨find?_eq_some.1 hget,
      List.isPrefixOf_iff_prefix.2 (Entity.keyPrefix_isPrefix_propKey.2 rfl)⟩

/-- A name in the result of `get_all` is the decoded key of a property that is set. -/
theorem mem_names (name value : Bytes) :
    (name, value) ∈ ((prefixScan e s).map fun x => (extractPropName x.1 e.prefixLen, x.2)).filter
        (fun x => !x.1.isEmpty) ↔
      name ≠ [] ∧ ∃ key, getProperty e s key = some value ∧
        name = key.take (key.length % 2 ^ 16) := by
  rw [mem_filter, mem_map]
  constructor
  · rintro ⟨⟨⟨raw, val⟩, hmem, hx⟩, hne⟩
    obtain ⟨key, rfl, hget⟩ := (mem_prefixScan hs e raw val).1 hmem
    obtain ⟨rfl, rfl⟩ := Prod.mk.inj hx
    exact ⟨by simpa using hne, key, hget, e.extractPropName_propKey key⟩
  · rintro ⟨hne, key, hget, rfl⟩
    refine ⟨⟨(e.propKey key, value), (mem_prefixScan hs e _ _).2 ⟨key, rfl, hget⟩, ?_⟩, ?_⟩
    · rw [e.extractPropName_propKey]
    · simpa using hne

/-- `get_all` gives the map of the properties that are set exactly when no key is empty or longer
than its length field can say. -/
theorem getAllProperties_iff :
    (∀ key, (getAllProperties e s).find? key = getProperty e s key) ↔
      ∀ key, getProperty e s key ≠ none → key ≠ [] ∧ key.length < 2 ^ 16 := by
  constructor
  · intro h key hset
    obtain ⟨value, hget⟩ := Option.ne_none_iff_exists'.1 hset
    have hfind := h key
    rw [hget] at hfind
    obtain ⟨hne, key', -, hkey⟩ :=
      (mem_names hs e key value).1 (mem_of_find?_emplaceAll hfind)
    refine ⟨hne, ?_⟩
    have hmod := mod_lt key'.length (show 0 < 2 ^ 16 by decide)
    have hlen := length_take_le (key'.length % 2 ^ 16) key'
    rw [← hkey] at hlen
    omega
  · intro h key
    have hmem : ∀ value, (key, value) ∈ ((prefixScan e s).map fun x =>
        (extractPropName x.1 e.prefixLen, x.2)).filter (fun x => !x.1.isEmpty) ↔
          getProperty e s key = some value := by
      intro value
      rw [mem_names hs]
      constructor
      · rintro ⟨-, key', hget, hkey⟩
        have hlen := (h key' (by rw [hget]; exact Option.some_ne_none _)).2
        rw [mod_eq_of_lt hlen, take_length] at hkey
        rw [hkey, hget]
      · intro hget
        obtain ⟨hne, hlen⟩ := h key (by rw [hget]; exact Option.some_ne_none _)
        exact ⟨hne, key, hget, by rw [mod_eq_of_lt hlen, take_length]⟩
    apply Option.ext
    intro value
    rw [← hmem]
    refine find?_emplaceAll_eq_some fun a b ha hb => ?_
    rw [hmem] at ha hb
    exact Option.some.inj (ha.symm.trans hb)

end

/-! ## One operation -/

/-- What the store reads for an entity does not depend on its other entries. -/
structure SameReads (s s' : PropertyStore) (e : Entity) : Prop where
  get : ∀ key, getProperty e s' key = getProperty e s key
  getAll : getAllProperties e s' = getAllProperties e s

theorem SameReads.refl (s : PropertyStore) (e : Entity) : SameReads s s e := ⟨fun _ => rfl, rfl⟩

theorem SameReads.trans {s s' s'' : PropertyStore} {e : Entity} (h : SameReads s s' e)
    (h' : SameReads s' s'' e) : SameReads s s'' e :=
  ⟨fun key => (h'.get key).trans (h.get key), h'.getAll.trans h.getAll⟩

/-- The reads of an entity are those of the entries under its prefix. -/
theorem SameReads.of_filter {s s' : PropertyStore} {e : Entity}
    (hget : ∀ key, getProperty e s' key = getProperty e s key)
    (h : (s'.db.entries.filter fun x => e.keyPrefix.isPrefixOf x.1) =
      s.db.entries.filter fun x => e.keyPrefix.isPrefixOf x.1) : SameReads s s' e := by
  refine ⟨hget, ?_⟩
  unfold getAllProperties
  rw [prefixScan_eq, prefixScan_eq, h]

variable {e e' : Entity}

theorem not_isPrefixOf_propKey (h : e ≠ e') (key : Bytes) :
    e'.keyPrefix.isPrefixOf (e.propKey key) = false := by
  rw [Bool.eq_false_iff]
  intro hpre
  exact h (Entity.keyPrefix_isPrefix_propKey.1 (List.isPrefixOf_iff_prefix.1 hpre)).symm

theorem getProperty_setProperty (e e' : Entity) (s : PropertyStore) (key key' value : Bytes) :
    getProperty e' (setProperty e s key value) key' =
      if e' = e ∧ key' = key then some value else getProperty e' s key' := by
  unfold getProperty setProperty
  split_ifs with h
  · obtain ⟨rfl, rfl⟩ := h
    exact s.db.find?_insert_self _ _
  · exact s.db.find?_insert_ne _ fun heq => h (Entity.propKey_inj heq)

theorem getProperty_deleteProperty (e e' : Entity) (s : PropertyStore) (key key' : Bytes) :
    getProperty e' (deleteProperty e s key) key' =
      if e' = e ∧ key' = key then none else getProperty e' s key' := by
  unfold getProperty deleteProperty
  split_ifs with h
  · obtain ⟨rfl, rfl⟩ := h
    exact s.db.find?_erase_self _
  · exact s.db.find?_erase_ne fun heq => h (Entity.propKey_inj heq)

theorem getProperty_deleteAllProperties {s : PropertyStore} (hs : s.Encoded) (e e' : Entity)
    (key : Bytes) :
    getProperty e' (deleteAllProperties e s) key =
      if e' = e then none else getProperty e' s key := by
  show ((prefixScan e s).foldl (fun db x => db.erase x.1) s.db).find? (e'.propKey key) = _
  rw [find?_foldl_erase]
  by_cases he : e' = e
  · subst he
    rw [if_pos rfl]
    split_ifs with h
    · rfl
    · cases hget : s.db.find? (e'.propKey key) with
      | none => rfl
      | some value =>
        exact absurd (mem_map.2 ⟨_, (mem_prefixScan hs e' _ value).2 ⟨key, rfl, hget⟩, rfl⟩) h
  · rw [if_neg he, if_neg]
    · rfl
    · intro h
      obtain ⟨⟨raw, value⟩, hmem, hraw⟩ := mem_map.1 h
      obtain ⟨key', hkey, -⟩ := (mem_prefixScan hs e raw value).1 hmem
      exact he (Entity.propKey_inj (hraw.symm.trans hkey)).1

section

variable (h : e ≠ e') (s : PropertyStore)
include h

theorem setProperty_sameReads (key value : Bytes) : SameReads s (setProperty e s key value) e' := by
  refine .of_filter (fun key' => ?_) (s.db.filter_insert value (not_isPrefixOf_propKey h key))
  rw [getProperty_setProperty, if_neg fun heq => h heq.1.symm]

theorem setProperties_sameReads (properties : List (Bytes × Bytes)) :
    SameReads s (setProperties e s properties) e' := by
  unfold setProperties
  induction properties generalizing s with
  | nil => exact .refl s e'
  | cons x properties ih => exact (setProperty_sameReads h s x.1 x.2).trans (ih _)

theorem deleteProperty_sameReads (key : Bytes) : SameReads s (deleteProperty e s key) e' := by
  refine .of_filter (fun key' => ?_) (s.db.filter_erase (not_isPrefixOf_propKey h key))
  rw [getProperty_deleteProperty, if_neg fun heq => h heq.1.symm]

end

theorem deleteAllProperties_sameReads (h : e ≠ e') {s : PropertyStore} (hs : s.Encoded) :
    SameReads s (deleteAllProperties e s) e' := by
  refine .of_filter (fun key' => ?_) (filter_foldl_erase _ s.db fun x hx => ?_)
  · rw [getProperty_deleteAllProperties hs, if_neg fun heq => h heq.symm]
  · obtain ⟨key, hkey, -⟩ := (mem_prefixScan hs e x.1 x.2).1 hx
    rw [hkey]
    exact not_isPrefixOf_propKey h key

/-- An operation on one vertex or edge changes no read of another. -/
theorem step_sameReads {s : PropertyStore} (hs : s.Encoded) (op : PropOp) {e : Entity}
    (h : op.entity ≠ e) : SameReads s (s.step op) e := by
  cases op with
  | set e' key value => exact setProperty_sameReads h s key value
  | get e' key => exact .refl s e
  | delete e' key => exact deleteProperty_sameReads h s key
  | getAll e' => exact .refl s e
  | deleteAll e' => exact deleteAllProperties_sameReads h hs
  | setMany e' properties => exact setProperties_sameReads h s properties

theorem Encoded.setProperty {s : PropertyStore} (hs : s.Encoded) (e : Entity) (key value : Bytes) :
    (setProperty e s key value).Encoded := by
  intro x hx
  rcases mem_insertEntry hx with rfl | hx
  · exact ⟨e, key, rfl⟩
  · exact hs x hx

/-! ## Runs -/

/-- The store reads as the properties `P`, and its keys are encodings. -/
structure Models (s : PropertyStore) (P : Props) : Prop where
  encoded : s.Encoded
  get : ∀ e key, getProperty e s key = P e key

theorem Models.setProperty {s : PropertyStore} {P : Props} (h : s.Models P) (e : Entity)
    (key value : Bytes) : (setProperty e s key value).Models (P.put e key (some value)) := by
  refine ⟨h.encoded.setProperty e key value, fun e' key' => ?_⟩
  rw [getProperty_setProperty, P.put_apply, h.get]

theorem Models.step {s : PropertyStore} {P : Props} (h : s.Models P) (op : PropOp) :
    (s.step op).Models (P.step op) := by
  cases op with
  | set e key value => exact h.setProperty e key value
  | get e key => exact h
  | delete e key =>
    refine ⟨fun x hx => h.encoded x (mem_erase.1 hx).1, fun e' key' => ?_⟩
    show getProperty e' (deleteProperty e s key) key' = P.put e key none e' key'
    rw [getProperty_deleteProperty, P.put_apply, h.get]
  | getAll e => exact h
  | deleteAll e =>
    refine ⟨fun x hx => h.encoded x (mem_of_mem_foldl_erase hx), fun e' key' => ?_⟩
    show getProperty e' (deleteAllProperties e s) key' = Function.update P e (fun _ => none) e' key'
    rw [getProperty_deleteAllProperties h.encoded, Function.update_apply, h.get]
    split_ifs
    · rfl
    · rfl
  | setMany e properties =>
    show (setProperties e s properties).Models
      (properties.foldl (fun P x => P.put e x.1 (some x.2)) P)
    unfold setProperties
    induction properties generalizing s P with
    | nil => exact h
    | cons x properties ih => exact ih (h.setProperty e x.1 x.2)

theorem run_models (ops : List PropOp) : (run ops).Models (Props.run ops) := by
  have hfold : ∀ (ops : List PropOp) (s : PropertyStore) (P : Props), s.Models P →
      (ops.foldl PropertyStore.step s).Models (ops.foldl Props.step P) := by
    intro ops
    induction ops with
    | nil => exact fun s P h => h
    | cons op ops ih => exact fun s P h => ih _ _ (h.step op)
  refine hfold ops opened _ ⟨fun x hx => ?_, fun e key => rfl⟩
  cases hx

/-- The encoding is injective, every read of a run is the read of the map that its operations
leave, and no operation on one vertex or edge changes what is read for another. The maps that
`get_all` returns are exactly those of the single reads, and the decoder gives the names back,
if and only if every key that is set is non-empty and shorter than `2 ^ 16`. -/
theorem getAll_run_iff (ops : List PropOp) :
    (Function.Injective fun x : Entity × Bytes => x.1.propKey x.2) ∧
    (∀ e key, getProperty e (run ops) key = Props.run ops e key) ∧
    (∀ op e, op.entity ≠ e → SameReads (run ops) ((run ops).step op) e) ∧
    (((∀ v key, (getAllVertexProperties v (run ops)).find? key =
          getVertexProperty v (run ops) key) ∧
        (∀ src dst key, (getAllEdgeProperties src dst (run ops)).find? key =
          getEdgeProperty src dst (run ops) key) ∧
        ∀ e key, Props.run ops e key ≠ none →
          extractPropName (e.propKey key) e.prefixLen = key) ↔
      ∀ e key, Props.run ops e key ≠ none → key ≠ [] ∧ key.length < 2 ^ 16) := by
  have hm := run_models ops
  refine ⟨fun x y h => ?_, hm.get, fun op e h => step_sameReads hm.encoded op h, ?_⟩
  · obtain ⟨h1, h2⟩ := Entity.propKey_inj h
    exact Prod.ext h1 h2
  · have hiff := fun e => getAllProperties_iff hm.encoded e
    simp only [hm.get] at hiff
    constructor
    · rintro ⟨hv, he, -⟩ e
      cases e with
      | vertex v => exact (hiff _).1 fun key => (hv v key).trans (hm.get _ _)
      | edge src dst => exact (hiff _).1 fun key => (he src dst key).trans (hm.get _ _)
    · intro h
      refine ⟨fun v key => ?_, fun src dst key => ?_, fun e key hset => ?_⟩
      · exact ((hiff (.vertex v)).2 (h _) key).trans (hm.get _ _).symm
      · exact ((hiff (.edge src dst)).2 (h _) key).trans (hm.get _ _).symm
      · exact (e.extractPropName_propKey_iff key).2 (h e key hset).2

/-- The property with the empty key is set and read, and missing among all properties. -/
theorem getAll_run_emptyKey :
    getVertexProperty 7 (run [.set (.vertex 7) [] [1]]) [] = some [1] ∧
      (getAllVertexProperties 7 (run [.set (.vertex 7) [] [1]])).find? [] = none := by
  decide +kernel

end PropertyStore

end BwGraph
