import BoaIdb.Core.Types
import BoaIdb.Lib.ByteCodec
import Mathlib.Tactic.NormNum

/-!
The byte codec of the database metadata, as it stands in `meta.scf` and inside
a `MetaReplace` operation of the log.

Every count and length is a 32-bit field, so an encoding shorter than that reads
back exactly.
-/

namespace BoaIdb.Fs

open ByteCodec

/-! ### Encoding -/

/-- `IMET` as little-endian u32. -/
def metaMagic : ℕ := 0x54454D49

def metaVersion : ℕ := 1

def writeU8 (b : Bool) : Bytes := [if b then 1 else 0]

def writeUtf16 (s : Utf16String) : Bytes :=
  littleEndian 4 s.length ++ s.flatMap (fun u => littleEndian 2 u.toNat)

def encodeKeyPath : KeyPath → Bytes
  | .empty => [0]
  | .single s => 1 :: writeUtf16 s
  | .array items => 2 :: (littleEndian 4 items.length ++ items.flatMap writeUtf16)

def encodeIndex (index : IndexMeta) : Bytes :=
  littleEndian 8 index.id.toNat ++ (littleEndian 8 index.storeId.toNat ++ (writeUtf16 index.name ++
    (encodeKeyPath index.keyPath ++ (writeU8 index.unique ++ (writeU8 index.multiEntry ++
      writeU8 index.deleted)))))

def encodeStore (store : StoreMeta) : Bytes :=
  littleEndian 8 store.id.toNat ++ (writeUtf16 store.name ++ (encodeKeyPath store.keyPath ++
    (writeU8 store.autoIncrement ++ (littleEndian 8 store.keyGen.toNat ++ (writeU8 store.deleted ++
      (littleEndian 4 store.indexes.length ++ store.indexes.flatMap encodeIndex))))))

/-- Encodes the metadata to `meta.scf` bytes. -/
def encodeMeta (m : DatabaseMeta) : Bytes :=
  littleEndian 4 metaMagic ++ (littleEndian 4 metaVersion ++ (writeUtf16 m.name ++
    (littleEndian 8 m.version.toNat ++ (littleEndian 8 m.nextStoreId.toNat ++
      (littleEndian 8 m.nextIndexId.toNat ++ (littleEndian 4 m.stores.length ++
        m.stores.flatMap encodeStore))))))

/-! ### Decoding -/

/-- `Reader::take`. -/
def readTake (n : ℕ) : Parser BackendError Bytes := take n (.corrupted "truncated meta")

def readU8 : Parser BackendError UInt8 := do
  let b ← readTake 1
  pure (b.headD 0)

/-- An unsigned integer of `width` bytes. -/
def readUint (width : ℕ) : Parser BackendError ℕ := do
  let bytes ← readTake width
  pure (ofLittleEndian bytes)

def readU64 : Parser BackendError UInt64 := do
  let n ← readUint 8
  pure (UInt64.ofNat n)

def readFlag : Parser BackendError Bool := do
  let b ← readU8
  pure (b ≠ 0)

def readUnit : Parser BackendError UInt16 := do
  let n ← readUint 2
  pure (UInt16.ofNat n)

def readUtf16 : Parser BackendError Utf16String := do
  let len ← readUint 4
  times readUnit len

/-- `{n:#x}`. -/
def hex (n : ℕ) : String := "0x" ++ String.ofList (Nat.toDigits 16 n)

def decodeKeyPath : Parser BackendError KeyPath := do
  let tag ← readU8
  match tag.toNat with
  | 0 => pure .empty
  | 1 => do
      let s ← readUtf16
      pure (.single s)
  | 2 => do
      let n ← readUint 4
      let items ← times readUtf16 n
      pure (.array items)
  | other => throw (.corrupted ("bad keypath tag " ++ toString other))

def decodeIndex : Parser BackendError IndexMeta := do
  let id ← readU64
  let storeId ← readU64
  let name ← readUtf16
  let keyPath ← decodeKeyPath
  let unique ← readFlag
  let multiEntry ← readFlag
  let deleted ← readFlag
  pure ⟨id, storeId, name, keyPath, unique, multiEntry, deleted⟩

def decodeStore : Parser BackendError StoreMeta := do
  let id ← readU64
  let name ← readUtf16
  let keyPath ← decodeKeyPath
  let autoIncrement ← readFlag
  let keyGen ← readU64
  let deleted ← readFlag
  let n ← readUint 4
  let indexes ← times decodeIndex n
  pure ⟨id, name, keyPath, autoIncrement, keyGen, indexes, deleted⟩

/-- The fields behind magic and version. -/
def decodeMetaBody : Parser BackendError DatabaseMeta := do
  let name ← readUtf16
  let version ← readU64
  let nextStoreId ← readU64
  let nextIndexId ← readU64
  let storeCount ← readUint 4
  let stores ← times decodeStore storeCount
  pure ⟨name, version, stores, nextStoreId, nextIndexId⟩

def decodeMetaHeader : Parser BackendError DatabaseMeta := do
  let magic ← readUint 4
  if magic ≠ metaMagic then throw (.corrupted ("bad meta magic " ++ hex magic))
  else do
    let ver ← readUint 4
    if ver ≠ metaVersion then throw (.corrupted ("unsupported meta version " ++ toString ver))
    else decodeMetaBody

/-- Decodes `meta.scf` bytes. -/
def decodeMeta (bytes : Bytes) : Except BackendError DatabaseMeta := do
  let (m, rest) ← decodeMetaHeader.run bytes
  if rest.isEmpty then .ok m else .error (.corrupted "trailing meta bytes")

/-! ### The decoder reads back what the encoder wrote -/

theorem parses_flag (b : Bool) : Parses readFlag (writeU8 b) b := by
  refine Parses.map (a := if b then 1 else 0) ?_ (by cases b <;> rfl)
  exact (parses_take (writeU8 b) rfl).map (by cases b <;> rfl)

theorem parses_unit (u : UInt16) : Parses readUnit (littleEndian 2 u.toNat) u := by
  refine (parses_littleEndian (by simpa using u.toNat_lt)).map ?_
  rw [UInt16.ofNat_toNat]

/-- A list behind its 32-bit count. -/
theorem parses_counted {α : Type} {p : Parser BackendError α} {enc : α → Bytes} {as : List α}
    (hlen : as.length < 256 ^ 4) (h : ∀ a ∈ as, Parses p (enc a) a) :
    Parses (readUint 4 >>= times p) (littleEndian 4 as.length ++ as.flatMap enc) as :=
  (parses_littleEndian hlen).bind (parses_times h)

/-- What is enclosed in an encoding is no longer than it. -/
theorem length_le_flatMap {α : Type} (enc : α → Bytes) {as : List α} {a : α} (h : a ∈ as) :
    (enc a).length ≤ (as.flatMap enc).length := by
  obtain ⟨before, after, rfl⟩ := List.append_of_mem h
  simp only [List.flatMap_append, List.flatMap_cons, List.length_append]
  omega

/-- An encoder that writes at least one byte. -/
theorem count_le_flatMap {α : Type} {enc : α → Bytes} {as : List α}
    (h : ∀ a, 0 < (enc a).length) : as.length ≤ (as.flatMap enc).length := by
  induction as with
  | nil => simp
  | cons a as ih =>
      have := h a
      rw [List.flatMap_cons, List.length_append, List.length_cons]
      omega

/-! ### Lengths and counts of 32 bits -/

/-- A string whose units are counted in 32 bits. -/
def StringFits (s : Utf16String) : Prop := s.length < 256 ^ 4

def KeyPathFits : KeyPath → Prop
  | .empty => True
  | .single s => StringFits s
  | .array items => items.length < 256 ^ 4 ∧ ∀ item ∈ items, StringFits item

structure IndexFits (index : IndexMeta) : Prop where
  name : StringFits index.name
  keyPath : KeyPathFits index.keyPath

structure StoreFits (store : StoreMeta) : Prop where
  name : StringFits store.name
  keyPath : KeyPathFits store.keyPath
  indexes : store.indexes.length < 256 ^ 4 ∧ ∀ index ∈ store.indexes, IndexFits index

structure MetaFits (m : DatabaseMeta) : Prop where
  name : StringFits m.name
  stores : m.stores.length < 256 ^ 4 ∧ ∀ store ∈ m.stores, StoreFits store

theorem parses_utf16 {s : Utf16String} (h : StringFits s) : Parses readUtf16 (writeUtf16 s) s :=
  parses_counted h fun u _ => parses_unit u

theorem parses_keyPathTag {tag : UInt8} {enc : Bytes} {path : KeyPath}
    {f : UInt8 → Parser BackendError KeyPath} (h : Parses (f tag) enc path) :
    Parses (readU8 >>= f) (tag :: enc) path := by
  have htag : Parses readU8 [tag] tag := (parses_take [tag] rfl).map rfl
  exact htag.bind h

theorem parses_keyPath {path : KeyPath} (h : KeyPathFits path) :
    Parses decodeKeyPath (encodeKeyPath path) path := by
  cases path with
  | empty => exact parses_keyPathTag (Parses.pure _)
  | single s => exact parses_keyPathTag ((parses_utf16 h).map rfl)
  | array items =>
      exact parses_keyPathTag ((parses_littleEndian h.1).bind
        ((parses_times fun item hitem => parses_utf16 (h.2 item hitem)).map rfl))

theorem parses_index {index : IndexMeta} (h : IndexFits index) :
    Parses decodeIndex (encodeIndex index) index :=
  (parses_uint64 _).bind ((parses_uint64 _).bind ((parses_utf16 h.name).bind
    ((parses_keyPath h.keyPath).bind ((parses_flag _).bind ((parses_flag _).bind
      ((parses_flag _).map rfl))))))

theorem parses_store {store : StoreMeta} (h : StoreFits store) :
    Parses decodeStore (encodeStore store) store := by
  refine (parses_uint64 _).bind ((parses_utf16 h.name).bind ((parses_keyPath h.keyPath).bind
    ((parses_flag _).bind ((parses_uint64 _).bind ((parses_flag _).bind
      ((parses_littleEndian h.indexes.1).bind ?_))))))
  exact (parses_times fun index hindex => parses_index (h.indexes.2 index hindex)).map rfl

/-- Metadata reads back, whatever the length of its encoding. -/
theorem decodeMeta_of_fits {m : DatabaseMeta} (h : MetaFits m) :
    decodeMeta (encodeMeta m) = .ok m := by
  have hparses : Parses decodeMetaHeader (encodeMeta m) m := by
    refine (parses_littleEndian (by norm_num [metaMagic])).bind ?_
    rw [if_neg (by simp)]
    refine (parses_littleEndian (by norm_num [metaVersion])).bind ?_
    rw [if_neg (by simp)]
    refine (parses_utf16 h.name).bind ((parses_uint64 _).bind ((parses_uint64 _).bind
      ((parses_uint64 _).bind ((parses_littleEndian h.stores.1).bind ?_))))
    exact (parses_times fun store hstore => parses_store (h.stores.2 store hstore)).map rfl
  have hrun := hparses []
  rw [List.append_nil] at hrun
  rw [decodeMeta, hrun]
  rfl

/-! ### Short encodings

What is written in fewer bytes than a field can count has lengths and counts that fit. -/

theorem length_writeUtf16_pos (s : Utf16String) : 0 < (writeUtf16 s).length := by
  simp [writeUtf16]

theorem length_encodeIndex_pos (index : IndexMeta) : 0 < (encodeIndex index).length := by
  simp [encodeIndex]

theorem length_encodeStore_pos (store : StoreMeta) : 0 < (encodeStore store).length := by
  simp [encodeStore]

theorem stringFits_of_length {s : Utf16String} (h : (writeUtf16 s).length < 256 ^ 4) :
    StringFits s := by
  have hcount : s.length ≤ (s.flatMap fun u => littleEndian 2 u.toNat).length :=
    count_le_flatMap fun u => by simp
  rw [writeUtf16, List.length_append] at h
  unfold StringFits
  omega

/-- A list behind its count. -/
theorem fits_of_flatMap {α : Type} {enc : α → Bytes} {fits : α → Prop} {as : List α}
    (hpos : ∀ a, 0 < (enc a).length) (hfits : ∀ {a}, (enc a).length < 256 ^ 4 → fits a)
    (h : (as.flatMap enc).length < 256 ^ 4) : as.length < 256 ^ 4 ∧ ∀ a ∈ as, fits a :=
  ⟨lt_of_le_of_lt (count_le_flatMap hpos) h,
    fun _ ha => hfits (lt_of_le_of_lt (length_le_flatMap enc ha) h)⟩

theorem keyPathFits_of_length {path : KeyPath} (h : (encodeKeyPath path).length < 256 ^ 4) :
    KeyPathFits path := by
  cases path with
  | empty => trivial
  | single s =>
      simp only [encodeKeyPath, List.length_cons] at h
      exact stringFits_of_length (by omega)
  | array items =>
      simp only [encodeKeyPath, List.length_cons, List.length_append] at h
      exact fits_of_flatMap length_writeUtf16_pos stringFits_of_length (by omega)

theorem indexFits_of_length {index : IndexMeta} (h : (encodeIndex index).length < 256 ^ 4) :
    IndexFits index := by
  simp only [encodeIndex, List.length_append] at h
  exact ⟨stringFits_of_length (by omega), keyPathFits_of_length (by omega)⟩

theorem storeFits_of_length {store : StoreMeta} (h : (encodeStore store).length < 256 ^ 4) :
    StoreFits store := by
  simp only [encodeStore, List.length_append] at h
  exact ⟨stringFits_of_length (by omega), keyPathFits_of_length (by omega),
    fits_of_flatMap length_encodeIndex_pos indexFits_of_length (by omega)⟩

theorem metaFits_of_length {m : DatabaseMeta} (h : (encodeMeta m).length < 256 ^ 4) :
    MetaFits m := by
  simp only [encodeMeta, List.length_append] at h
  exact ⟨stringFits_of_length (by omega),
    fits_of_flatMap length_encodeStore_pos storeFits_of_length (by omega)⟩

/-- Metadata whose encoding is shorter than 4 GiB reads back. -/
theorem decodeMeta_encodeMeta {m : DatabaseMeta} (h : (encodeMeta m).length < 256 ^ 4) :
    decodeMeta (encodeMeta m) = .ok m := decodeMeta_of_fits (metaFits_of_length h)

end BoaIdb.Fs
