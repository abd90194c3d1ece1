import Elide.Journal
import Elide.MapLayers.Basic

/-!
# Promoting a WAL epoch

The write path appends to the open WAL, claims the blocks in the `delta` layer and gives the body
a temporary location in the WAL file. A promote takes the epoch: it freezes the layer, mints dedup
references, takes a compare-and-swap token for each body, splits the journal share off, writes one
or two segments and moves every location from the WAL to its segment. Then the WAL file goes.

The tier of a write is decided twice: by `writeCommit` under the window of the moment, and again by
`splitJournal` under the window the job carries. Between the two the window may have been derived
for the first time, which is the `derived` argument of `takeWalIntoPromoteJob`.

What a formation learns from outside the maps is a `Formation`: the bytes of the WAL file, what the
codecs make of them, and which delta sources can be read and are worth using. Counters, log lines
and the file writes themselves are left out; a formation that fails writes nothing and is not a
promote.
-/

namespace Elide

/-- A write of the open WAL, with the offset of its body in the WAL file. -/
structure PendingWrite where
  entry : SegmentEntry
  walBodyOffset : Option ℕ
  deriving DecidableEq, Repr

/-- The part of a volume that the write path and a promote read and change. -/
structure Volume where
  maps : MapLayers
  /-- The open WAL. -/
  wal : Ulid
  /-- The epoch's writes in WAL order. -/
  pending : List PendingWrite
  /-- The journal window. -/
  journal : JournalRanges

/-! ## The write path -/

namespace Volume

/-- The tail of the write path, past the no-op check. `bodyOffset` is where the append put the
payload. -/
def writeCommit (v : Volume) (lba lbaLength : ℕ) (hash : Hash) (codec : Codec)
    (storedLength bodyOffset : ℕ) : Volume :=
  let maps := v.maps.deltaInsert lba lbaLength hash v.wal
  let isJournal := v.journal.contains lba
  let location : ExtentLocation :=
    { segmentId := v.wal
      bodyOffset
      bodyLength := storedLength
      codec
      bodySource := .local
      bodySectionStart := 0
      inlineData := none }
  let resolves :=
    if isJournal then (maps.lookupJournal v.wal hash).isSome else (maps.lookupExtent hash).isSome
  let index := maps.delta.extentIndex
  let index :=
    if resolves then index
    else if isJournal then (index.insertJournalIfAbsent v.wal hash location).1
    else (index.insertIfAbsent hash location).1
  let entry :=
    { SegmentEntry.newDataNoBody hash lba lbaLength codec storedLength with journal := isJournal }
  { v with
    maps := { maps with delta := { maps.delta with extentIndex := index } }
    pending := v.pending ++ [⟨entry, some bodyOffset⟩] }

/-- A guest zero: a claim of the zero hash, with no body. -/
def zeroCommit (v : Volume) (startLba lbaCount : ℕ) : Volume :=
  { v with
    maps := v.maps.deltaInsert startLba lbaCount ZERO_HASH v.wal
    pending := v.pending ++ [⟨.newZero startLba lbaCount, none⟩] }

end Volume

/-! ## Taking the epoch -/

/-- What a promote is handed. -/
structure PromoteJob where
  segmentUlid : Ulid
  oldWalUlid : Ulid
  pending : List PendingWrite
  /-- The volume's journal window at prep. -/
  journalRanges : JournalRanges
  journalSegmentUlid : Ulid
  /-- The volume's maps at prep, with the epoch as a frozen layer. -/
  layers : MapLayers

/-- Freeze the epoch and hand it over. `derived` is what the poll for a first window found. -/
def Volume.takeWalIntoPromoteJob (v : Volume) (segmentUlid journalSegmentUlid : Ulid)
    (derived : Option JournalRanges) : PromoteJob where
  segmentUlid := segmentUlid
  oldWalUlid := v.wal
  pending := v.pending
  journalRanges := derived.getD v.journal
  journalSegmentUlid := journalSegmentUlid
  layers := v.maps.freeze v.wal

/-! ## Staging -/

/-- One destination segment's share of a promote: each write with the CAS token taken for it. -/
abbrev PendingPartition := List (PendingWrite × Option ℕ)

namespace PendingWrite

variable (write : PendingWrite)

/-- Whether formation mints the write as a DEDUP_REF: its hash resolves, and not to the write's
own record. Journal-tier writes are stored as they are. -/
def mintsDedupRef (index : ExtentIndex) (wal : Ulid) : Bool :=
  match write.entry.kind with
  | .data | .inline =>
    !write.entry.journal && (index.lookup write.entry.hash).any fun loc =>
      !decide (loc.segmentId = wal ∧ some loc.bodyOffset = write.walBodyOffset)
  | _ => false

/-- The write as a DEDUP_REF, its WAL body dropped. -/
def toDedupRef : PendingWrite :=
  ⟨.newDedupRef write.entry.hash write.entry.startLba write.entry.lbaLength, none⟩

/-- The body offset the write's hash has in the index, for the kinds that carry a body. -/
def prePromoteOffset (index : ExtentIndex) : Option ℕ :=
  match write.entry.kind with
  | .data | .inline | .canonicalData | .canonicalInline =>
    (index.lookup write.entry.hash).map ExtentLocation.bodyOffset
  | .dedupRef | .zero | .delta | .canonicalDelta => none

end PendingWrite

variable (writes : List PendingWrite)

/-- Turn each write whose body is elsewhere into a reference. -/
def classifyPendingDedupEntries (index : ExtentIndex) (wal : Ulid) : List PendingWrite :=
  writes.map fun write => if write.mintsDedupRef index wal then write.toDedupRef else write

/-- The offset at which the index has each body. -/
def snapshotPrePromoteOffsets (index : ExtentIndex) : List (Option ℕ) :=
  writes.map fun write => write.prePromoteOffset index

/-- Split off the journal share. The partition stays whole, flags and all, when the window is empty
or no write falls inside it. -/
def splitJournal (partition : PendingPartition) (window : JournalRanges) :
    PendingPartition × Option PendingPartition :=
  let inside := fun (p : PendingWrite × Option ℕ) => window.contains p.1.entry.startLba
  if window.isEmpty || !partition.any inside then (partition, none)
  else
    let marked := partition.map fun p =>
      (({ p.1 with entry := { p.1.entry with journal := inside p } } : PendingWrite), p.2)
    (marked.filter fun p => !p.1.entry.journal, some (marked.filter fun p => p.1.entry.journal))

/-- Classify the writes, then split off those in the journal's window. -/
def stagePendingForPromote (index : ExtentIndex) (wal : Ulid)
    (window : JournalRanges) : PendingPartition × Option PendingPartition :=
  let writes := classifyPendingDedupEntries writes index wal
  splitJournal (writes.zip (snapshotPrePromoteOffsets writes index)) window

/-! ## Forming the segments -/

/-- What a formation learns from files, codecs and the sketch map. -/
structure Formation where
  /-- The bytes of the WAL file at an offset, of a length. -/
  walBytes : ℕ → ℕ → List UInt8
  /-- Codec and stored length of a segment body. -/
  compressBody : SegmentEntry → Codec × ℕ
  /-- Whether the delta tiers run. -/
  deltaEnabled : Bool
  /-- The content of the latest sealed snapshot by LBA; `none` when there is no such map. -/
  prior : Option (ℕ → Option Hash)
  /-- Whether the body at a location is at hand and matches its hash. -/
  readable : ExtentLocation → Bool
  /-- The ranked candidates of the sketch map. -/
  candidates : SegmentEntry → List Hash
  /-- Length and tag of an entry's delta against a source, when it is worth storing. -/
  deltaBlob : SegmentEntry → Hash → Option (ℕ × StoredHash)
  /-- Where the body section of a segment with these entries starts. -/
  bodySectionStart : List SegmentEntry → ℕ

/-- An entry on its way to the segment writer. -/
structure PendingEntry where
  entry : SegmentEntry
  /-- Whether it carries its body, other than inline. -/
  body : Bool
  deriving DecidableEq, Repr

/-- Bytes of a block. -/
def LBA_BYTES : ℕ := 4096

/-- Entries shorter than this have no sketch. -/
def MIN_SKETCH_BYTES : ℕ := 32 * 1024

namespace Formation

/-- Bodies stored as they are, and no delta tier. -/
def plain : Formation where
  walBytes := fun _ _ => []
  compressBody := fun e => (e.codec, e.storedLength)
  deltaEnabled := false
  prior := none
  readable := fun _ => true
  candidates := fun _ => []
  deltaBlob := fun _ _ => none
  bodySectionStart := fun _ => 96

variable (f : Formation)

/-- Pair a write with its bytes, in the form a segment stores them. -/
def materialise (write : PendingWrite) : PendingEntry :=
  match write.walBodyOffset with
  | some off =>
    if write.entry.kind.isInline then
      ⟨{ write.entry with inline := some (f.walBytes off write.entry.storedLength) }, false⟩
    else
      let stored := f.compressBody write.entry
      ⟨{ write.entry with codec := stored.1, storedLength := stored.2 }, true⟩
  | none => ⟨write.entry, false⟩

/-- Read each write's body. -/
def materialisePendingBodies (writes : List PendingWrite) : List PendingEntry :=
  writes.map f.materialise

/-- Whether the delta tiers can read `hash` as a source: through the DATA map alone. -/
def readsSource (index : ExtentIndex) (hash : Hash) : Bool :=
  (index.lookup hash).any f.readable

/-- The hashes a formation batch must leave carrying a body. -/
def reservedDeltaSources (prior : ℕ → Option Hash) (pendings : List PendingEntry) : List Hash :=
  (pendings.filter fun p => decide (p.entry.kind = .data ∧ p.entry.lbaLength = 1)).filterMap fun p =>
    prior p.entry.startLba

/-- The source the same-LBA tier converts an entry against, with the blob. -/
def priorSource (index : ExtentIndex) (prior : ℕ → Option Hash)
    (reserved : List Hash) (p : PendingEntry) : Option (Hash × ℕ × StoredHash) :=
  if p.entry.kind = .data ∧ p.entry.lbaLength = 1 then
    (prior p.entry.startLba).bind fun source =>
      if source ≠ p.entry.hash ∧ p.body ∧ p.entry.hash ∉ reserved ∧ f.readsSource index source then
        (f.deltaBlob p.entry source).map fun blob => (source, blob)
      else none
  else none

/-- The source the resemblance tier converts an entry against. Only the first usable candidate is
tried. -/
def resemblanceSource (maps : Maps) (reserved : List Hash) (p : PendingEntry) :
    Option (Hash × ℕ × StoredHash) :=
  if p.entry.kind = .data ∧ p.entry.deltaOptions = [] ∧ p.entry.journal = false ∧
      MIN_SKETCH_BYTES ≤ p.entry.lbaLength * LBA_BYTES ∧ p.body ∧ p.entry.hash ∉ reserved then
    let usable := fun cand => decide (cand ≠ p.entry.hash ∧
      (maps.lbamap.isReferenced cand ∨ cand ∈ maps.extentIndex.namedDeltaSources) ∧
      f.readsSource maps.extentIndex cand)
    ((f.candidates p.entry).find? usable).bind fun source =>
      (f.deltaBlob p.entry source).map fun blob => (source, blob)
  else none

end Formation

/-- A Data entry turned into a thin Delta against `source`. -/
def PendingEntry.convert (p : PendingEntry) (source : Hash) (deltaOffset : ℕ)
    (blob : ℕ × StoredHash) : PendingEntry :=
  ⟨{ p.entry with
      kind := .delta
      storedOffset := 0
      storedLength := 0
      codec := .none
      deltaOptions := p.entry.deltaOptions ++ [⟨source, deltaOffset, blob.1, blob.2⟩] }, false⟩

/-- One delta tier over a batch; the blobs land at the end of the delta body region. -/
def deltaPendings (choose : PendingEntry → Option (Hash × ℕ × StoredHash)) :
    ℕ → List PendingEntry → List PendingEntry × ℕ
  | deltaLen, [] => ([], deltaLen)
  | deltaLen, p :: ps =>
    match choose p with
    | some (source, blob) =>
      let (rest, total) := deltaPendings choose (deltaLen + blob.1) ps
      (p.convert source deltaLen blob :: rest, total)
    | none =>
      let (rest, total) := deltaPendings choose deltaLen ps
      (p :: rest, total)

namespace Formation

/-- Encode against what the block held before. -/
def deltaPendingsAgainstPrior (f : Formation) (index : ExtentIndex) (prior : ℕ → Option Hash)
    (reserved : List Hash) (pendings : List PendingEntry) : List PendingEntry × ℕ :=
  deltaPendings (f.priorSource index prior reserved) 0 pendings

/-- Encode what is left against what resembles it. -/
def deltaPendingsByResemblance (f : Formation) (maps : Maps) (reserved : List Hash)
    (deltaLen : ℕ) (pendings : List PendingEntry) : List PendingEntry × ℕ :=
  deltaPendings (f.resemblanceSource maps reserved) deltaLen pendings

/-- The delta tiers in cascade order, same-LBA first. -/
def deltaTiers (f : Formation) (maps : Maps) (pendings : List PendingEntry) :
    List PendingEntry × ℕ :=
  if f.deltaEnabled then
    match f.prior with
    | some prior =>
      let reserved := reservedDeltaSources prior pendings
      let (pendings, deltaLen) := f.deltaPendingsAgainstPrior maps.extentIndex prior reserved pendings
      f.deltaPendingsByResemblance maps reserved deltaLen pendings
    | none => f.deltaPendingsByResemblance maps [] 0 pendings
  else (pendings, 0)

end Formation

/-- Give each entry its offset in the inline or the body section. -/
def assignOffsets : ℕ → ℕ → List SegmentEntry → List SegmentEntry
  | _, _, [] => []
  | inlineCursor, bodyCursor, e :: es =>
    match e.kind with
    | .inline | .canonicalInline =>
      { e with storedOffset := inlineCursor } ::
        assignOffsets (inlineCursor + e.storedLength) bodyCursor es
    | .data | .canonicalData =>
      { e with storedOffset := bodyCursor } ::
        assignOffsets inlineCursor (bodyCursor + e.storedLength) es
    | .dedupRef | .zero | .delta | .canonicalDelta => e :: assignOffsets inlineCursor bodyCursor es

/-- A segment a promote wrote. -/
structure SegmentResult where
  segmentUlid : Ulid
  bodySectionStart : ℕ
  entries : List SegmentEntry
  prePromoteOffsets : List (Option ℕ)
  /-- Length of the body region that holds Data entries, under which the delta blobs start. -/
  deltaRegionBodyLength : ℕ

/-- What a promote returns, for one segment or two. -/
structure PromoteResult where
  oldWalUlid : Ulid
  primary : SegmentResult
  journal : Option SegmentResult

namespace Formation

/-- Lay the entries out and write the segment file. -/
def writeAndCommit (f : Formation) (pendings : List PendingEntry) : ℕ × List SegmentEntry :=
  let entries := assignOffsets 0 0 (pendings.map PendingEntry.entry)
  (f.bodySectionStart entries, entries)

/-- Write the staged partitions as segments. `maps` is the job's layers folded into one map. -/
def writePromote (f : Formation) (job : PromoteJob) (maps : Maps)
    (staged : PendingPartition × Option PendingPartition) : PromoteResult :=
  let (pendings, deltaLen) :=
    f.deltaTiers maps (f.materialisePendingBodies (staged.1.map Prod.fst))
  let (bodySectionStart, entries) := if pendings.isEmpty then (0, []) else f.writeAndCommit pendings
  let deltaRegionBodyLength :=
    if deltaLen = 0 then 0
    else ((entries.filter fun e => decide (e.kind = .data)).map SegmentEntry.storedLength).sum
  { oldWalUlid := job.oldWalUlid
    primary := ⟨job.segmentUlid, bodySectionStart, entries, staged.1.map Prod.snd,
      deltaRegionBodyLength⟩
    journal := staged.2.map fun partition =>
      let (bodySectionStart, entries) :=
        f.writeAndCommit (f.materialisePendingBodies (partition.map Prod.fst))
      ⟨job.journalSegmentUlid, bodySectionStart, entries, partition.map Prod.snd, 0⟩ }

/-- The worker's half of a promote. -/
def executePromote (f : Formation) (job : PromoteJob) : PromoteResult :=
  let maps := job.layers.materialised
  f.writePromote job maps
    (stagePendingForPromote job.pending maps.extentIndex job.oldWalUlid job.journalRanges)

end Formation

/-! ## Applying the result -/

namespace SegmentResult

variable (part : SegmentResult)

/-- The location of an entry's body in the segment. -/
def location (entry : SegmentEntry) : ExtentLocation where
  segmentId := part.segmentUlid
  bodyOffset := entry.storedOffset
  bodyLength := entry.storedLength
  codec := entry.codec
  bodySource := .local
  bodySectionStart := part.bodySectionStart
  inlineData := if entry.kind.isInline then entry.inline else none

/-- How the apply registers the segment's deltas. -/
def deltaCtx : SegmentRegistrationCtx where
  segmentId := part.segmentUlid
  bodySectionStart := part.bodySectionStart
  bodyTier := .local
  deltaBodySource := some (.full part.bodySectionStart part.deltaRegionBodyLength)
  inline := .entryInline

/-- Move one entry's location from the WAL to the segment. -/
def applyEntry (wal : Ulid) (index : ExtentIndex) (rawIdx : ℕ)
    (entry : SegmentEntry) (oldWalOffset : Option ℕ) : Except RegisterError ExtentIndex :=
  match entry.kind with
  | .delta =>
    -- a Delta with a token was a Data entry at prep time
    match oldWalOffset with
    | some off =>
      (index.removeIfMatches entry.hash wal off).1.registerEntryConsumingInputs entry rawIdx
        part.deltaCtx {wal}
    | none => .ok index
  | .dedupRef | .zero => .ok index
  | .data | .inline | .canonicalData | .canonicalInline | .canonicalDelta =>
    if entry.journal then
      .ok (index.rekeyJournal wal part.segmentUlid entry.hash (part.location entry))
    else
      match oldWalOffset with
      | some off => .ok (index.replaceIfMatches entry.hash wal off (part.location entry)).1
      | none => .ok index

/-- The hash an entry claims its blocks under. -/
def claimHash (entry : SegmentEntry) : Hash :=
  if entry.kind = .zero then ZERO_HASH else entry.hash

/-- Raise the claimant of every claim the entries still hold. -/
def restampClaims (m : LbaMap) : LbaMap :=
  part.entries.foldl (fun m entry =>
    if entry.kind.isCanonicalOnly then m
    else (m.setClaimantIfMatches entry.startLba entry.lbaLength (claimHash entry)
      part.segmentUlid).1) m

/-- Take the segment's entries into the maps. -/
def applyPromotedPartition (wal : Ulid) (m : Maps) :
    Except RegisterError Maps := do
  let index ← (part.entries.zip part.prePromoteOffsets).zipIdx.foldlM (fun index p =>
    part.applyEntry wal index p.2 p.1.1 p.1.2) m.extentIndex
  return ⟨part.restampClaims m.lbamap, index⟩

end SegmentResult

/-- Apply a committed promote to the maps: the primary segment, then the journal one. -/
def applyPromotedEntries (result : PromoteResult) (m : Maps) : Except RegisterError Maps := do
  let m ← result.primary.applyPromotedPartition result.oldWalUlid m
  match result.journal with
  | some part => part.applyPromotedPartition result.oldWalUlid m
  | none => return m

/-- A promote's fold: the epoch's layer replayed into `base` and the promoted entries applied. -/
def foldPromoteResult (layers : MapLayers) (result : PromoteResult) : Except RegisterError Maps :=
  layers.foldPromote result.oldWalUlid (applyPromotedEntries result)

/-- Take, write and apply, with nothing in between. -/
def Volume.promote (v : Volume) (segmentUlid journalSegmentUlid : Ulid)
    (derived : Option JournalRanges) (f : Formation) : Except RegisterError MapLayers := do
  let job := v.takeWalIntoPromoteJob segmentUlid journalSegmentUlid derived
  let newBase ← foldPromoteResult job.layers (f.executePromote job)
  return job.layers.swapPromote newBase v.wal

end Elide
