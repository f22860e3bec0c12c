import BoaIdb.Core.Crc32c
import BoaIdb.Fs.Database

/-!
The byte codecs of manifests and segments.

Both are a body behind which its checksum stands. A body holds fixed fields, counts and lists;
what is written within the width of its counts reads back exactly.
-/

namespace BoaIdb.Fs

open ByteCodec OrdMap Faults

/-! ### Sealed bodies -/

/-- A body with its CRC32C behind it. -/
def sealBody (body : Bytes) : Bytes := body ++ littleEndian 4 (crc32c body).toNat

/-- The body of a file of a kind, its checksum verified. -/
def openBody (kind : String) (bytes : Bytes) : Except BackendError Bytes :=
  if bytes.length < 4 + 4 + 8 + 8 + 4 + 4 then .error (.corrupted (kind ++ " too short"))
  else
    let body := bytes.take (bytes.length - 4)
    let expected := ofLittleEndian (bytes.drop (bytes.length - 4))
    let actual := (crc32c body).toNat
    if expected ≠ actual then
      .error (.corrupted
        (kind ++ " crc mismatch expected=" ++ hex expected ++ " actual=" ++ hex actual))
    else .ok body

theorem openBody_sealBody (kind : String) {body : Bytes} (h : 4 + 4 + 8 + 8 + 4 ≤ body.length) :
    openBody kind (sealBody body) = .ok body := by
  have hlength : (sealBody body).length = body.length + 4 := by
    rw [sealBody, List.length_append, length_littleEndian]
  have hcrc : ofLittleEndian (littleEndian 4 (crc32c body).toNat) = (crc32c body).toNat :=
    ofLittleEndian_littleEndian (by simpa using (crc32c body).toNat_lt)
  have hbody : (sealBody body).take ((sealBody body).length - 4) = body := by
    rw [hlength, Nat.add_sub_cancel, sealBody, List.take_left]
  have htrailer : (sealBody body).drop ((sealBody body).length - 4) =
      littleEndian 4 (crc32c body).toNat := by
    rw [hlength, Nat.add_sub_cancel, sealBody, List.drop_left]
  have hshort : ¬ (sealBody body).length < 4 + 4 + 8 + 8 + 4 + 4 := by omega
  rw [openBody, if_neg hshort]
  simp only [hbody, htrailer, hcrc]
  exact if_neg (not_not.mpr rfl)

/-! ### Manifests -/

/-- `IMAN` as little-endian u32. -/
def manifestMagic : ℕ := 0x4E414D49

def manifestVersion : ℕ := 1

def manifestBody (d : ManifestData) : Bytes :=
  littleEndian 4 manifestMagic ++ (littleEndian 4 manifestVersion ++
    (littleEndian 8 d.manifestSeq ++ (littleEndian 8 d.walSeq ++
      (littleEndian 4 d.segments.length ++ d.segments.flatMap (littleEndian 8)))))

def encodeManifest (d : ManifestData) : Bytes := sealBody (manifestBody d)

/-- `width` bytes of a body from an offset, as a number. -/
def fieldAt (body : Bytes) (offset width : ℕ) : ℕ := ofLittleEndian ((body.drop offset).take width)

def readSegmentSeq : Parser BackendError ℕ := do
  let bytes ← take 8 (.corrupted "truncated manifest segments")
  pure (ofLittleEndian bytes)

def decodeManifest (bytes : Bytes) : Except BackendError ManifestData := do
  let body ← openBody "manifest" bytes
  let magic := fieldAt body 0 4
  if magic ≠ manifestMagic then .error (.corrupted ("bad manifest magic " ++ hex magic))
  else
    let ver := fieldAt body 4 4
    if ver ≠ manifestVersion then
      .error (.corrupted ("unsupported manifest version " ++ toString ver))
    else do
      let (segments, rest) ← (times readSegmentSeq (fieldAt body 24 4)).run (body.drop 28)
      if rest.isEmpty then .ok ⟨fieldAt body 8 8, fieldAt body 16 8, segments⟩
      else .error (.corrupted "trailing manifest bytes")

/-- Sequence numbers are 64-bit integers; the segments are counted in 32 bits. -/
structure ManifestFits (d : ManifestData) : Prop where
  manifestSeq : d.manifestSeq < 256 ^ 8
  walSeq : d.walSeq < 256 ^ 8
  segments : d.segments.length < 256 ^ 4 ∧ ∀ seq ∈ d.segments, seq < 256 ^ 8

/-- A field between what stands before it and what follows. -/
theorem fieldAt_append {before : Bytes} {offset width n : ℕ} (after : Bytes)
    (hoffset : before.length = offset) (hn : n < 256 ^ width) :
    fieldAt (before ++ (littleEndian width n ++ after)) offset width = n := by
  have hfield : ((before ++ (littleEndian width n ++ after)).drop offset).take width =
      littleEndian width n := by
    rw [List.drop_left' hoffset, List.take_left' (length_littleEndian width n)]
  rw [fieldAt, hfield, ofLittleEndian_littleEndian hn]

/-- Behind the five fields stand the segments. -/
theorem drop_fields {fields rest : Bytes} {n : ℕ} (h : fields.length = n) :
    (fields ++ rest).drop n = rest := List.drop_left' h

theorem parses_segmentSeq {seq : ℕ} (h : seq < 256 ^ 8) :
    Parses readSegmentSeq (littleEndian 8 seq) seq := parses_littleEndian h

theorem decodeManifest_encodeManifest {d : ManifestData} (h : ManifestFits d) :
    decodeManifest (encodeManifest d) = .ok d := by
  -- the fields of the header, in front of the list
  let magic := littleEndian 4 manifestMagic
  let ver := littleEndian 4 manifestVersion
  let manifestSeq := littleEndian 8 d.manifestSeq
  let walSeq := littleEndian 8 d.walSeq
  let count := littleEndian 4 d.segments.length
  let list := d.segments.flatMap (littleEndian 8)
  have hlength : 4 + 4 + 8 + 8 + 4 ≤ (manifestBody d).length := by
    simp only [manifestBody, List.length_append, length_littleEndian]
    omega
  have hmagic : fieldAt (manifestBody d) 0 4 = manifestMagic :=
    @fieldAt_append [] 0 4 _ _ rfl (by norm_num [manifestMagic])
  have hver : fieldAt (manifestBody d) 4 4 = manifestVersion :=
    @fieldAt_append magic 4 4 _ _ rfl (by norm_num [manifestVersion])
  have hmanifestSeq : fieldAt (manifestBody d) 8 8 = d.manifestSeq :=
    @fieldAt_append (magic ++ ver) 8 8 _ _ rfl h.manifestSeq
  have hwalSeq : fieldAt (manifestBody d) 16 8 = d.walSeq :=
    @fieldAt_append (magic ++ ver ++ manifestSeq) 16 8 _ _ rfl h.walSeq
  have hcount : fieldAt (manifestBody d) 24 4 = d.segments.length :=
    @fieldAt_append (magic ++ ver ++ manifestSeq ++ walSeq) 24 4 _ _ rfl h.segments.1
  have hrest : (manifestBody d).drop 28 = list ++ [] := by
    rw [List.append_nil]
    exact @drop_fields (magic ++ ver ++ manifestSeq ++ walSeq ++ count) list 28 rfl
  have hlist := parses_times (fun seq hseq => parses_segmentSeq (h.segments.2 seq hseq)) []
  have hopen : openBody "manifest" (encodeManifest d) = .ok (manifestBody d) :=
    openBody_sealBody "manifest" hlength
  rw [decodeManifest, hopen]
  simp only [bind, Except.bind, hmagic, hver, hmanifestSeq, hwalSeq, hcount, hrest]
  rw [if_neg (not_not.mpr rfl), if_neg (not_not.mpr rfl), hlist]
  rfl

/-! ### Segments -/

/-- `ISEG` as little-endian u32. -/
def segMagic : ℕ := 0x47455349

def segVersion : ℕ := 1

namespace SegmentCodec

def writeBytes (bytes : Bytes) : Bytes := littleEndian 4 bytes.length ++ bytes

def writeRecordKey (key : RecordKey) : Bytes := littleEndian 8 key.store.toNat ++ writeBytes key.key

def writeIndexKey (key : IndexKey) : Bytes :=
  littleEndian 8 key.index.toNat ++ (writeBytes key.key ++ writeBytes key.primaryKey)

def writeRecord (record : RecordKey × Bytes) : Bytes :=
  writeRecordKey record.1 ++ writeBytes record.2

def writeIndexEntry (entry : IndexKey × Unit) : Bytes := writeIndexKey entry.1

def writeGenerator (generator : StoreId × F64Bits) : Bytes :=
  littleEndian 8 generator.1.toNat ++ littleEndian 8 generator.2.toNat

/-- A count and what is counted. -/
def writeList {α : Type} (write : α → Bytes) (as : List α) : Bytes :=
  littleEndian 4 as.length ++ as.flatMap write

/-- The body of a segment; a hash map yields its generators in some order. -/
def segmentBody (seq : UInt64) (s : DbState) (m : DatabaseMeta)
    (generators : List (StoreId × F64Bits)) :
    Bytes :=
  littleEndian 4 segMagic ++ (littleEndian 4 segVersion ++ (littleEndian 8 seq.toNat ++
    (littleEndian 8 s.nextTxnSeq.toNat ++ (writeBytes (encodeMeta m) ++
      (writeList writeRecord s.records.entries ++
        (writeList writeIndexEntry s.indexEntries.entries ++
          writeList writeGenerator generators))))))

def encodeSegment (seq : UInt64) (s : DbState) (generators : List (StoreId × F64Bits)) :
    Except BackendError Bytes :=
  match s.metadata with
  | none => .error (.internal "segment encode without meta")
  | some m => .ok (sealBody (segmentBody seq s m generators))

/-- `Reader::take`. -/
def readTake (n : ℕ) : Parser BackendError Bytes := take n (.corrupted "truncated segment")

def readUint (width : ℕ) : Parser BackendError ℕ := do
  let bytes ← readTake width
  pure (ofLittleEndian bytes)

def readU64 : Parser BackendError UInt64 := do
  let n ← readUint 8
  pure (UInt64.ofNat n)

def readBytes : Parser BackendError Bytes := do
  let len ← readUint 4
  readTake len

def readRecordKey : Parser BackendError RecordKey := do
  let store ← readU64
  let key ← readBytes
  pure ⟨store, key⟩

def readIndexKey : Parser BackendError IndexKey := do
  let index ← readU64
  let idxKey ← readBytes
  let primary ← readBytes
  pure ⟨index, idxKey, primary⟩

def readRecord : Parser BackendError (RecordKey × Bytes) := do
  let key ← readRecordKey
  let value ← readBytes
  pure (key, value)

def readIndexEntry : Parser BackendError (IndexKey × Unit) := do
  let key ← readIndexKey
  pure (key, ())

def readGenerator : Parser BackendError (StoreId × F64Bits) := do
  let store ← readU64
  let bits ← readU64
  pure (store, bits)

def readList {α : Type} (read : Parser BackendError α) : Parser BackendError (List α) := do
  let n ← readUint 4
  times read n

/-- `decode_meta` on a part of the body. -/
def decodeMetaOf (metaBytes : Bytes) : Parser BackendError DatabaseMeta := fun rest =>
  (decodeMeta metaBytes).map fun m => (m, rest)

/-- The fields behind magic and version. -/
def readSegmentBody : Parser BackendError Segment := do
  let seq ← readU64
  let nextTxnSeq ← readU64
  let metaBytes ← readBytes
  let m ← decodeMetaOf metaBytes
  let records ← readList readRecord
  let indexEntries ← readList readIndexEntry
  let generators ← readList readGenerator
  pure ⟨seq.toNat, nextTxnSeq, m, .ofInserts records, .ofInserts indexEntries,
    .ofInserts generators⟩

def readSegment : Parser BackendError Segment := do
  let magic ← readUint 4
  if magic ≠ segMagic then throw (.corrupted ("bad segment magic " ++ hex magic))
  else do
    let ver ← readUint 4
    if ver ≠ segVersion then throw (.corrupted ("unsupported segment version " ++ toString ver))
    else readSegmentBody

/-- `decode_segment`: the sequence number, and the state with its maps replaced. -/
def decodeSegment (bytes : Bytes) (s : DbState) : Except BackendError (ℕ × DbState) := do
  let body ← openBody "segment" bytes
  let (segment, rest) ← readSegment.run body
  if rest.isEmpty then .ok (segment.seq, segment.load s)
  else .error (.corrupted "trailing segment bytes")

/-! ### Reading a segment back -/

/-- Lengths and counts of 32 bits: the encoded metadata, keys, values and the three lists. -/
structure Fits (s : DbState) (m : DatabaseMeta) : Prop where
  metadata : (encodeMeta m).length < 256 ^ 4
  records : s.records.size < 256 ^ 4 ∧
    ∀ e ∈ s.records.entries, e.1.key.length < 256 ^ 4 ∧ e.2.length < 256 ^ 4
  indexEntries : s.indexEntries.size < 256 ^ 4 ∧
    ∀ e ∈ s.indexEntries.entries, e.1.key.length < 256 ^ 4 ∧ e.1.primaryKey.length < 256 ^ 4
  generators : s.keyGenerators.size < 256 ^ 4

theorem parses_bytes {bytes : Bytes} (h : bytes.length < 256 ^ 4) :
    Parses readBytes (writeBytes bytes) bytes :=
  (parses_littleEndian h).bind (parses_take bytes rfl)

theorem parses_record {e : RecordKey × Bytes} (hkey : e.1.key.length < 256 ^ 4)
    (hvalue : e.2.length < 256 ^ 4) : Parses readRecord (writeRecord e) e := by
  have hrecordKey : Parses readRecordKey (writeRecordKey e.1) e.1 :=
    (parses_uint64 _).bind ((parses_bytes hkey).map rfl)
  exact hrecordKey.bind ((parses_bytes hvalue).map rfl)

theorem parses_indexEntry {e : IndexKey × Unit} (hkey : e.1.key.length < 256 ^ 4)
    (hprimary : e.1.primaryKey.length < 256 ^ 4) : Parses readIndexEntry (writeIndexEntry e) e := by
  have hindexKey : Parses readIndexKey (writeIndexKey e.1) e.1 :=
    (parses_uint64 _).bind ((parses_bytes hkey).bind ((parses_bytes hprimary).map rfl))
  exact hindexKey.map rfl

theorem parses_generator (e : StoreId × F64Bits) : Parses readGenerator (writeGenerator e) e :=
  (parses_uint64 _).bind ((parses_uint64 _).map rfl)

theorem parses_list {α : Type} {read : Parser BackendError α} {write : α → Bytes} {as : List α}
    (hcount : as.length < 256 ^ 4) (h : ∀ a ∈ as, Parses read (write a) a) :
    Parses (readList read) (writeList write as) as :=
  (parses_littleEndian hcount).bind (parses_times h)

theorem parses_meta {m : DatabaseMeta} (h : MetaFits m) :
    Parses (decodeMetaOf (encodeMeta m)) [] m := by
  intro rest
  show (decodeMeta (encodeMeta m)).map _ = _
  rw [decodeMeta_of_fits h]
  rfl

/-- A body is read as the segment of its state. -/
theorem parses_segment {s : DbState} {m : DatabaseMeta} (h : Fits s m) (seq : UInt64)
    {generators : List (StoreId × F64Bits)} (horder : generators.Perm s.keyGenerators.entries) :
    Parses readSegment (segmentBody seq s m generators)
      ⟨seq.toNat, s.nextTxnSeq, m, s.records, s.indexEntries, s.keyGenerators⟩ := by
  have hcount : generators.length < 256 ^ 4 := horder.length_eq ▸ h.generators
  refine (parses_littleEndian (by norm_num [segMagic])).bind ?_
  rw [if_neg (not_not.mpr rfl)]
  refine (parses_littleEndian (by norm_num [segVersion])).bind ?_
  rw [if_neg (not_not.mpr rfl)]
  refine (parses_uint64 _).bind ((parses_uint64 _).bind ((parses_bytes h.metadata).bind ?_))
  refine @Parses.bind _ _ _ _ _ [] _ _ _ (parses_meta (metaFits_of_length h.metadata)) ?_
  refine (parses_list h.records.1 fun e he =>
    parses_record (h.records.2 e he).1 (h.records.2 e he).2).bind ?_
  refine (parses_list h.indexEntries.1 fun e he =>
    parses_indexEntry (h.indexEntries.2 e he).1 (h.indexEntries.2 e he).2).bind ?_
  refine (parses_list hcount fun e _ => parses_generator e).map ?_
  rw [OrderedMap.ofInserts_of_perm horder, OrderedMap.ofInserts_of_perm (.refl _),
    OrderedMap.ofInserts_of_perm (.refl _)]

theorem decodeSegment_encodeSegment {s : DbState} {m : DatabaseMeta} (hmeta : s.metadata = some m)
    (h : Fits s m) (seq : UInt64) {generators : List (StoreId × F64Bits)}
    (horder : generators.Perm s.keyGenerators.entries) (target : DbState) :
    ∃ bytes, encodeSegment seq s generators = .ok bytes ∧
      decodeSegment bytes target = .ok (seq.toNat, { target with
        metadata := s.metadata
        records := s.records
        indexEntries := s.indexEntries
        keyGenerators := s.keyGenerators
        nextTxnSeq := s.nextTxnSeq }) := by
  have hlength : 4 + 4 + 8 + 8 + 4 ≤ (segmentBody seq s m generators).length := by
    simp only [segmentBody, writeBytes, List.length_append, length_littleEndian]
    omega
  have hread := parses_segment h seq horder []
  rw [List.append_nil] at hread
  refine ⟨_, by rw [encodeSegment, hmeta], ?_⟩
  rw [decodeSegment, openBody_sealBody "segment" hlength]
  simp only [bind, Except.bind, hread]
  rw [hmeta]
  rfl

end SegmentCodec

/-- **Snapshots** read back: segments into any state, metadata and manifests. -/
theorem snapshots_round_trip :
    (∀ (s : DbState) (m : DatabaseMeta), s.metadata = some m → SegmentCodec.Fits s m →
      ∀ (seq : UInt64) (generators : List (StoreId × F64Bits)),
      generators.Perm s.keyGenerators.entries → ∀ target : DbState,
      ∃ bytes, SegmentCodec.encodeSegment seq s generators = .ok bytes ∧
        SegmentCodec.decodeSegment bytes target = .ok (seq.toNat, { target with
          metadata := s.metadata
          records := s.records
          indexEntries := s.indexEntries
          keyGenerators := s.keyGenerators
          nextTxnSeq := s.nextTxnSeq })) ∧
      (∀ m, MetaFits m → decodeMeta (encodeMeta m) = .ok m) ∧
      ∀ d, ManifestFits d → decodeManifest (encodeManifest d) = .ok d :=
  ⟨fun _ _ hmeta h seq _ horder target =>
      SegmentCodec.decodeSegment_encodeSegment hmeta h seq horder target,
    fun _ h => decodeMeta_of_fits h, fun _ h => decodeManifest_encodeManifest h⟩

/-- A database with one store, one record and one generator. -/
def oneRecord : DbState :=
  { DbState.default with
    metadata :=
      some ⟨[0x61], 1, [⟨1, [0x73], .array [[0x6B], []], true, keyGenStart, [], false⟩], 2, 1⟩
    records := OrderedMap.empty.insert ⟨1, [0x10]⟩ [0xFF, 0x00]
    keyGenerators := OrderedMap.empty.insert 1 keyGenStart }

theorem snapshots_round_trip_oneRecord :
    (∃ bytes, SegmentCodec.encodeSegment 7 oneRecord [(1, keyGenStart)] = .ok bytes ∧
      SegmentCodec.decodeSegment bytes .default = .ok (7, oneRecord)) ∧
      decodeMeta (encodeMeta (emptyMeta [0x61])) = .ok (emptyMeta [0x61]) ∧
      decodeManifest (encodeManifest ⟨2, 3, [7]⟩) = .ok ⟨2, 3, [7]⟩ := by
  refine ⟨?_, snapshots_round_trip.2.1 _ ⟨?_, ?_, fun _ h => by cases h⟩, ?_⟩
  · refine snapshots_round_trip.1 oneRecord _ rfl ?_ 7 [(1, keyGenStart)] (.refl _) .default
    refine ⟨by decide +kernel, ⟨by decide, ?_⟩, ⟨by decide, fun _ h => by cases h⟩, by decide⟩
    intro e he
    rw [List.mem_singleton.mp he]
    exact ⟨by decide, by decide⟩
  · show [0x61].length < 256 ^ 4
    decide
  · show ([] : List StoreMeta).length < 256 ^ 4
    decide
  · refine snapshots_round_trip.2.2 _ ⟨by decide, by decide, by decide, ?_⟩
    intro seq hseq
    rw [List.mem_singleton.mp hseq]
    decide

end BoaIdb.Fs
