import Elide.Rewrite.Plan

/-!
# Materialising a rewrite plan

`materialisePlan` turns the records of a plan into the entries of the output segment, with their
bodies, and its delta body section. A record either fails hard on I/O or cancels the plan; the
cancellations are the `MaterialiseError`s, each with what its message reports.

The codec, the hashes and the delta decoder are functions of the bytes alone and come in as
`Codecs`; files are reached through a `BodyResolver`. What a materialisation spends is not modelled.

## Main definitions

* `MaterialiseCtx.computeCompositeBody` — the uncompressed body of an input entry, by its kind
* `materialisePlan` — the loop over the records, with its one-slot composite cache
-/

namespace Elide

/-- Bytes of a body or a file. -/
abbrev Bytes := List UInt8

/-- Block size in bytes. -/
def BLOCK_BYTES : ℕ := 4096

/-- The message of an `io::Error`. -/
abbrev IoError := String

/-! ## The outside -/

/-- The functions of bytes the materialiser calls. -/
structure Codecs where
  blake3 : Bytes → Hash
  /-- The tag over stored bytes. -/
  storedHash : Bytes → StoredHash
  decode : Codec → Bytes → Except IoError Bytes
  /-- Compress a body for the tier, or leave it raw. -/
  compressBody : Bytes → Bool → Except IoError (Option (Codec × Bytes))
  applyDelta : Bytes → Bytes → Except IoError Bytes

/-- What the file a segment's body is found in holds. -/
inductive SegmentBodyLayout where
  | fullSegment
  | bodyOnly
  deriving DecidableEq, Repr

/-- Where the body section starts in the file. -/
def SegmentBodyLayout.bodySectionFileOffset : SegmentBodyLayout → ℕ → ℕ
  | fullSegment, bodySectionStart => bodySectionStart
  | bodyOnly, _ => 0

/-- Segment body resolution, and reads of the files it finds. -/
structure BodyResolver where
  findSegment : Ulid → ℕ → BodySource → Except IoError (String × SegmentBodyLayout)
  locateSegmentUnchecked : Ulid → Option (String × SegmentBodyLayout)
  openDeltaBody : Ulid → Except IoError String
  /-- `path`, `seek` and length: exactly that many bytes, or an error. -/
  readExactAt : String → ℕ → ℕ → Except IoError Bytes

/-- Parsed state of one input segment. -/
structure InputState where
  entries : List SegmentEntry
  /-- The stored-hash table, by entry index. -/
  storedHashes : ℕ → Option StoredHash
  inline : Bytes
  bodySectionStart : ℕ
  bodyLength : ℕ

/-- External state a materialisation reads. -/
structure MaterialiseCtx where
  codecs : Codecs
  inputStates : Ulid → Option InputState
  extentIndex : ExtentIndex
  resolver : BodyResolver
  /-- Permit journal-tier input entries. -/
  allowJournal : Bool

/-! ## Errors -/

/-- What a cancellation reports. -/
inductive Detail where
  | noState (input : Ulid)
  | entryOutOfRange (input : Ulid) (entryIdx len : ℕ)
  | journalTier (input : Ulid) (entryIdx : ℕ)
  | noStoredHash (lba : ℕ) (kind : EntryKind)
  | storedHashMismatch (lba len : ℕ) (declared computed : StoredHash)
  | bodyHashMismatch (lba len : ℕ) (declared computed : Hash)
  | decodeFailed (e : IoError)
  | nonExtentKind (kind : EntryKind) (input : Ulid)
  | nonInlineKind (kind : EntryKind)
  | inlineOutOfRange (start stop len : ℕ)
  | zeroSplitKind (input : Ulid) (entryIdx : ℕ) (kind : EntryKind)
  | canonicalKind (kind : EntryKind) (input : Ulid) (entryIdx : ℕ)
  | compositeKind (kind : EntryKind) (input : Ulid) (entryIdx : ℕ)
  | noDeltaSource (input : Ulid) (entryIdx : ℕ) (composite : Hash)
  | notInIndex (hash : Hash)
  | applyDeltaFailed (input : Ulid) (entryIdx : ℕ) (e : IoError)
  | deltaHashed (got expected : Hash) (input : Ulid) (entryIdx : ℕ) (source : Hash)
  | sizeMismatch (input : Ulid) (entryIdx : ℕ) (hash : Hash) (lbaLength got expected : ℕ)
  | runOutOfRange (input : Ulid) (entryIdx startLba stop payloadBlockOffset runLen bodyLen : ℕ)
  deriving DecidableEq, Repr

/-- Outcomes that cancel the plan. -/
inductive MaterialiseError where
  | missingInput (d : Detail)
  | unresolvableHash (d : Detail)
  | bodyIntegrity (d : Detail)
  | internal (d : Detail)
  deriving DecidableEq, Repr

/-- A hard I/O error, or a cancellation. -/
inductive MaterialiseOutcome where
  | io (e : IoError)
  | cancel (e : MaterialiseError)
  deriving DecidableEq, Repr

/-- A step of the materialisation, which may cancel it. -/
abbrev MaterialiseResult := Except MaterialiseOutcome

/-- An I/O error propagates as it is. -/
def liftIo {α : Type} : Except IoError α → MaterialiseResult α
  | .ok a => .ok a
  | .error e => .error (.io e)

/-! ## Output entries -/

namespace Rewrite

/-- An output entry paired with its stored body, until the segment write. -/
structure PendingEntry where
  entry : SegmentEntry
  /-- Stored bytes of the data kinds; the inline kinds hold theirs on the entry. -/
  body : Option Bytes
  deriving DecidableEq

namespace PendingEntry

/-- Pair an entry without a body. -/
def fromEntry (entry : SegmentEntry) : PendingEntry := ⟨entry, none⟩

/-- The entry without its claim. -/
def intoCanonical (p : PendingEntry) : PendingEntry := { p with entry := p.entry.intoCanonical }

/-- A DATA or INLINE entry, by the length of its stored bytes. -/
def newData (hash : Hash) (startLba lbaLength : ℕ) (codec : Codec) (data : Bytes) : PendingEntry :=
  if wouldBeInline data.length then
    ⟨{ hash := hash, startLba := startLba, lbaLength := lbaLength, codec := codec, kind := .inline,
       storedLength := data.length, inline := some data }, none⟩
  else
    ⟨{ hash := hash, startLba := startLba, lbaLength := lbaLength, codec := codec, kind := .data,
       storedLength := data.length }, some data⟩

end PendingEntry

end Rewrite

/-- A thin DELTA entry. -/
def SegmentEntry.newDelta (hash : Hash) (startLba lbaLength : ℕ) (deltaOptions : List DeltaOption) :
    SegmentEntry where
  hash := hash
  startLba := startLba
  lbaLength := lbaLength
  kind := .delta
  deltaOptions := deltaOptions

namespace MaterialiseCtx

open Rewrite PendingEntry

variable (ctx : MaterialiseCtx)

/-! ## Input bytes -/

/-- The input's state and one of its entries. A journal-tier entry is let through only where the
pass permits it. -/
def inputEntry (inputUlid : Ulid) (entryIdx : ℕ) : MaterialiseResult (InputState × SegmentEntry) :=
  match ctx.inputStates inputUlid with
  | none => .error (.cancel (.missingInput (.noState inputUlid)))
  | some state =>
    match state.entries[entryIdx]? with
    | none =>
      .error (.cancel (.missingInput (.entryOutOfRange inputUlid entryIdx state.entries.length)))
    | some entry =>
      if entry.journal && !ctx.allowJournal then
        .error (.cancel (.internal (.journalTier inputUlid entryIdx)))
      else .ok (state, entry)

/-- Decode stored bytes; a failure cancels. -/
def decodeBody (stored : Bytes) (codec : Codec) : MaterialiseResult Bytes :=
  match ctx.codecs.decode codec stored with
  | .ok plain => .ok plain
  | .error e => .error (.cancel (.bodyIntegrity (.decodeFailed e)))

/-- Check stored bytes against the entry's tag. -/
def verifyStored (tag : Option StoredHash) (entry : SegmentEntry) (stored : Bytes) :
    MaterialiseResult Unit :=
  if entry.kind.hasBodyBytes then
    match tag with
    | none => .error (.cancel (.bodyIntegrity (.noStoredHash entry.startLba entry.kind)))
    | some declared =>
      let computed := ctx.codecs.storedHash stored
      if computed = declared then .ok ()
      else .error (.cancel (.bodyIntegrity
        (.storedHashMismatch entry.startLba stored.length declared computed)))
  else .ok ()

/-- Check decoded bytes against the entry's content hash. -/
def verifyPlaintext (entry : SegmentEntry) (plain : Bytes) : MaterialiseResult Unit :=
  if entry.kind.hasBodyBytes then
    let computed := ctx.codecs.blake3 plain
    if computed = entry.hash then .ok ()
    else .error (.cancel (.bodyIntegrity
      (.bodyHashMismatch entry.startLba plain.length entry.hash computed)))
  else .ok ()

/-- The stored bytes of a Data-kind input entry. -/
def readInputExtentStoredBytes (inputUlid : Ulid) (entryIdx : ℕ) (state : InputState)
    (entry : SegmentEntry) : MaterialiseResult Bytes :=
  if !entry.kind.hasBodyBytes || entry.kind.isInline then
    .error (.cancel (.internal (.nonExtentKind entry.kind inputUlid)))
  else do
    let (path, layout) ← liftIo
      (ctx.resolver.findSegment inputUlid state.bodySectionStart (.cached entryIdx))
    let seek := layout.bodySectionFileOffset state.bodySectionStart + entry.storedOffset
    liftIo (ctx.resolver.readExactAt path seek entry.storedLength)

/-- The stored bytes of an Inline-kind input entry. -/
def readInputInlineStoredBytes (state : InputState) (entry : SegmentEntry) :
    MaterialiseResult Bytes :=
  if !entry.kind.isInline then .error (.cancel (.internal (.nonInlineKind entry.kind)))
  else
    let start := entry.storedOffset
    let stop := start + entry.storedLength
    if stop ≤ state.inline.length then .ok ((state.inline.drop start).take entry.storedLength)
    else .error (.cancel (.internal (.inlineOutOfRange start stop state.inline.length)))

/-- The stored bytes of a body-bearing input entry, from the section its kind puts them in. -/
def readStored (inputUlid : Ulid) (entryIdx : ℕ) (state : InputState) (entry : SegmentEntry) :
    MaterialiseResult Bytes :=
  if entry.kind.isInline then readInputInlineStoredBytes state entry
  else ctx.readInputExtentStoredBytes inputUlid entryIdx state entry

/-- A delta blob of an input segment. -/
def readInputDeltaBlob (inputUlid : Ulid) (state : InputState) (deltaOffset deltaLength : ℕ) :
    MaterialiseResult Bytes :=
  match ctx.resolver.locateSegmentUnchecked inputUlid with
  | some (path, .fullSegment) =>
    let seek := SegmentBodyLayout.fullSegment.bodySectionFileOffset state.bodySectionStart +
      state.bodyLength + deltaOffset
    liftIo (ctx.resolver.readExactAt path seek deltaLength)
  | some (_, .bodyOnly) | none => do
    let path ← liftIo (ctx.resolver.openDeltaBody inputUlid)
    liftIo (ctx.resolver.readExactAt path deltaOffset deltaLength)

/-! ## Bodies by hash -/

/-- The uncompressed body at a location of the data map. -/
def readLocation (loc : ExtentLocation) : MaterialiseResult Bytes :=
  match loc.inlineData with
  | some idata => ctx.decodeBody idata loc.codec
  | none => do
    let (path, layout) ← liftIo
      (ctx.resolver.findSegment loc.segmentId loc.bodySectionStart loc.bodySource)
    let seek := layout.bodySectionFileOffset loc.bodySectionStart + loc.bodyOffset
    let buf ← liftIo (ctx.resolver.readExactAt path seek loc.bodyLength)
    ctx.decodeBody buf loc.codec

/-- Resolve a body by hash. Only the data map is asked. -/
def resolveBodyByHashDecompressed (hash : Hash) : MaterialiseResult Bytes :=
  match ctx.extentIndex.lookup hash with
  | none => .error (.cancel (.unresolvableHash (.notInIndex hash)))
  | some loc => ctx.readLocation loc

/-- The composite of a Delta entry: its first option whose source resolves, applied. -/
def computeDeltaBody (inputUlid : Ulid) (entryIdx : ℕ) (state : InputState)
    (entry : SegmentEntry) : MaterialiseResult Bytes :=
  match entry.deltaOptions.find? fun o => (ctx.extentIndex.lookup o.sourceHash).isSome with
  | none =>
    .error (.cancel (.unresolvableHash (.noDeltaSource inputUlid entryIdx entry.hash)))
  | some opt => do
    let base ← ctx.resolveBodyByHashDecompressed opt.sourceHash
    let blob ← ctx.readInputDeltaBlob inputUlid state opt.deltaOffset opt.deltaLength
    match ctx.codecs.applyDelta base blob with
    | .error e => .error (.cancel (.internal (.applyDeltaFailed inputUlid entryIdx e)))
    | .ok composite =>
      let got := ctx.codecs.blake3 composite
      if got = entry.hash then .ok composite
      else .error (.cancel (.bodyIntegrity
        (.deltaHashed got entry.hash inputUlid entryIdx opt.sourceHash)))

/-- The composite of an input entry, by its kind. -/
def compositeByKind (inputUlid : Ulid) (entryIdx : ℕ) (state : InputState) (entry : SegmentEntry) :
    MaterialiseResult Bytes :=
  match entry.kind with
  | .data | .inline => do
    let stored ← ctx.readStored inputUlid entryIdx state entry
    let plain ← ctx.decodeBody stored entry.codec
    ctx.verifyPlaintext entry plain
    return plain
  | .dedupRef => ctx.resolveBodyByHashDecompressed entry.hash
  | .delta => ctx.computeDeltaBody inputUlid entryIdx state entry
  | other => .error (.cancel (.internal (.compositeKind other inputUlid entryIdx)))

/-- The uncompressed composite body of an input entry, which must fill its LBA range. -/
def computeCompositeBody (inputUlid : Ulid) (entryIdx : ℕ) : MaterialiseResult Bytes := do
  let (state, entry) ← ctx.inputEntry inputUlid entryIdx
  let body ← ctx.compositeByKind inputUlid entryIdx state entry
  let expectedLen := entry.lbaLength * BLOCK_BYTES
  if body.length = expectedLen then return body
  else throw (.cancel (.internal
    (.sizeMismatch inputUlid entryIdx entry.hash entry.lbaLength body.length expectedLen)))

/-! ## Records -/

/-- The composite of the input entry last sliced. -/
structure CompositeSlot where
  key : Ulid × ℕ
  body : Bytes

/-- What the loop over the records has built. -/
structure State where
  entries : List PendingEntry := []
  deltaBody : Bytes := []
  slot : Option CompositeSlot := none

namespace State

/-- Append an output entry. -/
def push (st : State) (p : PendingEntry) : State := { st with entries := st.entries ++ [p] }

end State

/-- The composite through the slot: held, or computed and put in it. -/
def resolveCompositeBody (inputUlid : Ulid) (entryIdx : ℕ) (slot : Option CompositeSlot) :
    MaterialiseResult CompositeSlot :=
  match slot.filter fun s => decide (s.key = (inputUlid, entryIdx)) with
  | some s => .ok s
  | none => do
    let body ← ctx.computeCompositeBody inputUlid entryIdx
    return ⟨(inputUlid, entryIdx), body⟩

/-- Copy delta blobs into the output's delta body, and re-base their options against it. -/
def carryDeltaBlobs (inputUlid : Ulid) (state : InputState) :
    List DeltaOption → Bytes → MaterialiseResult (List DeltaOption × Bytes)
  | [], deltaBody => .ok ([], deltaBody)
  | opt :: opts, deltaBody => do
    let blob ← ctx.readInputDeltaBlob inputUlid state opt.deltaOffset opt.deltaLength
    let newOpt := { opt with deltaOffset := deltaBody.length }
    let (newOptions, deltaBody) ← carryDeltaBlobs inputUlid state opts (deltaBody ++ blob)
    return (newOpt :: newOptions, deltaBody)

/-- The stored bytes of a body-bearing input entry, held to its tag. -/
def verifiedStored (inputUlid : Ulid) (entryIdx : ℕ) (state : InputState) (entry : SegmentEntry) :
    MaterialiseResult Bytes := do
  let bytes ← ctx.readStored inputUlid entryIdx state entry
  ctx.verifyStored (state.storedHashes entryIdx) entry bytes
  return bytes

/-- Pass an entry on as it is. -/
def emitKeep (inputUlid : Ulid) (entryIdx : ℕ) (st : State) : MaterialiseResult State := do
  let (state, entry) ← ctx.inputEntry inputUlid entryIdx
  match entry.kind with
  | .zero => return st.push (.fromEntry (.newZero entry.startLba entry.lbaLength))
  | .dedupRef =>
    return st.push (.fromEntry (.newDedupRef entry.hash entry.startLba entry.lbaLength))
  | .data | .inline =>
    let bytes ← ctx.verifiedStored inputUlid entryIdx state entry
    return st.push (.newData entry.hash entry.startLba entry.lbaLength entry.codec bytes)
  | .canonicalData | .canonicalInline =>
    let bytes ← ctx.verifiedStored inputUlid entryIdx state entry
    return st.push (newData entry.hash 0 0 entry.codec bytes).intoCanonical
  | .delta =>
    let (newOptions, deltaBody) ←
      ctx.carryDeltaBlobs inputUlid state entry.deltaOptions st.deltaBody
    return { st with deltaBody := deltaBody }.push
      (.fromEntry (.newDelta entry.hash entry.startLba entry.lbaLength newOptions))
  | .canonicalDelta =>
    let (newOptions, deltaBody) ←
      ctx.carryDeltaBlobs inputUlid state entry.deltaOptions st.deltaBody
    return { st with deltaBody := deltaBody }.push
      (fromEntry (.newDelta entry.hash 0 0 newOptions)).intoCanonical

/-- Pass on a part of a zero entry. -/
def emitZeroSplit (inputUlid : Ulid) (entryIdx startLba lbaLength : ℕ) (st : State) :
    MaterialiseResult State := do
  let (_, entry) ← ctx.inputEntry inputUlid entryIdx
  if entry.kind = .zero then return st.push (.fromEntry (.newZero startLba lbaLength))
  else throw (.cancel (.internal (.zeroSplitKind inputUlid entryIdx entry.kind)))

/-- Pass a body or recipe on without its claim. -/
def emitCanonical (inputUlid : Ulid) (entryIdx : ℕ) (st : State) : MaterialiseResult State := do
  let (state, entry) ← ctx.inputEntry inputUlid entryIdx
  match entry.kind with
  | .data | .canonicalData | .inline | .canonicalInline =>
    let bytes ← ctx.verifiedStored inputUlid entryIdx state entry
    return st.push (newData entry.hash 0 0 entry.codec bytes).intoCanonical
  | .delta | .canonicalDelta =>
    let (newOptions, deltaBody) ←
      ctx.carryDeltaBlobs inputUlid state entry.deltaOptions st.deltaBody
    return { st with deltaBody := deltaBody }.push
      (fromEntry (.newDelta entry.hash 0 0 newOptions)).intoCanonical
  | other => throw (.cancel (.internal (.canonicalKind other inputUlid entryIdx)))

/-- One fresh Data entry for a surviving sub-run: a slice of the composite, hashed anew. -/
def emitRun (inputUlid : Ulid) (entryIdx payloadBlockOffset startLba lbaLength : ℕ) (st : State) :
    MaterialiseResult State :=
  if lbaLength = 0 then .ok st
  else do
    let slot ← ctx.resolveCompositeBody inputUlid entryIdx st.slot
    let start := payloadBlockOffset * BLOCK_BYTES
    let stop := start + lbaLength * BLOCK_BYTES
    if slot.body.length < stop then
      throw (.cancel (.internal (.runOutOfRange inputUlid entryIdx startLba (startLba + lbaLength)
        payloadBlockOffset (lbaLength * BLOCK_BYTES) slot.body.length)))
    let slice := (slot.body.drop start).take (lbaLength * BLOCK_BYTES)
    let encoded ← liftIo (ctx.codecs.compressBody slice ctx.allowJournal)
    let (codec, body) := encoded.getD (.none, slice)
    return { st with slot := some slot }.push
      (.newData (ctx.codecs.blake3 slice) startLba lbaLength codec body)

/-- Render one record of the plan. -/
def applyOneOutput (st : State) : PlanOutput → MaterialiseResult State
  | .keep input entryIdx => ctx.emitKeep input entryIdx st
  | .zeroSplit input entryIdx startLba lbaLength =>
    ctx.emitZeroSplit input entryIdx startLba lbaLength st
  | .canonical input entryIdx => ctx.emitCanonical input entryIdx st
  | .run input entryIdx payloadBlockOffset startLba lbaLength =>
    ctx.emitRun input entryIdx payloadBlockOffset startLba lbaLength st
  | .drop _ => .ok st

/-- The loop over the records of a plan. -/
def applyOutputs (st : State) (outputs : List PlanOutput) : MaterialiseResult State :=
  outputs.foldlM ctx.applyOneOutput st

end MaterialiseCtx

/-- The entries of an output segment and its delta body section. -/
structure Materialised where
  entries : List Rewrite.PendingEntry
  deltaBody : Bytes

/-- Materialise a plan. -/
def materialisePlan (plan : RewritePlan) (ctx : MaterialiseCtx) : MaterialiseResult Materialised :=
  (ctx.applyOutputs {} plan.outputs).map fun st => ⟨st.entries, st.deltaBody⟩

end Elide
