import Elide.Lib.Refcount
import Elide.Segment

/-!
# The extent index

The in-memory index from content hash to stored body. It has three tiers: `inner` for durable
bodies, `deltas` for thin Delta entries, and `journal` for the bodies of the journal window, which
are keyed by their segment as well. Beside them `deltaSources` records, per segment and composite
hash, the sources that segment's Delta encoding names, and `deltaSourceCounts` counts over those
records how often a hash is named.

Every function here is a translation of the function of the same name. The presence bitsets of
cached segments are left out: no function of the model reads them.

## Main definitions

* `ExtentIndex.registerEntry` — one segment entry under an admission policy
* `ExtentIndex.removeOwnerAt`, `removeInputOwned`, `purgeSegmentDeltaSources` — its removal duals
* `ExtentIndex.rekeyJournal`, `replaceIfMatches`, `removeIfMatches` — a promote's moves
-/

namespace Elide

/-- Where the body bytes of an extent are read from. -/
inductive BodySource where
  | local
  | cached (entryIdx : ℕ)
  deriving DecidableEq, Repr

/-- The stored location of an extent. -/
structure ExtentLocation where
  segmentId : Ulid
  bodyOffset : ℕ
  bodyLength : ℕ
  codec : Codec
  bodySource : BodySource
  bodySectionStart : ℕ
  inlineData : Option (List UInt8)
  deriving DecidableEq, Repr

/-- Where a Delta entry's blob lives. -/
inductive DeltaBodySource where
  | full (bodySectionStart bodyLength : ℕ)
  | cached
  deriving DecidableEq, Repr

/-- The location of a thin Delta entry. -/
structure DeltaLocation where
  segmentId : Ulid
  entryIdx : ℕ
  bodySource : DeltaBodySource
  options : List DeltaOption
  deriving DecidableEq, Repr

/-- How a registering segment's body-bearing entries resolve their bytes. -/
inductive RegistrationBodyTier where
  | local
  | cached
  deriving DecidableEq, Repr

/-- Where a registering segment's inline entry bytes come from. -/
inductive InlineSource where
  /-- The segment's inline section; a truncated section skips the entry. -/
  | inlineSection (bytes : List UInt8)
  /-- The entry's own `inline` field. -/
  | entryInline
  deriving DecidableEq, Repr

/-- The segment whose entries are being registered. -/
structure SegmentRegistrationCtx where
  segmentId : Ulid
  bodySectionStart : ℕ
  bodyTier : RegistrationBodyTier
  deltaBodySource : Option DeltaBodySource
  inline : InlineSource
  deriving DecidableEq, Repr

/-- "registering delta entry for segment … with no delta body source". -/
inductive RegisterError where
  | noDeltaBodySource (segmentId : Ulid)
  deriving DecidableEq, Repr

/-- In-memory index mapping content hash to segment location. -/
structure ExtentIndex where
  inner : AList fun _ : Hash => ExtentLocation
  deltas : AList fun _ : Hash => DeltaLocation
  /-- Journal-tier bodies by segment, then by hash. -/
  journal : AList fun _ : Ulid => AList fun _ : Hash => ExtentLocation
  /-- Source hashes named by every Delta encoding, by segment, then by composite hash. -/
  deltaSources : AList fun _ : Ulid => AList fun _ : Hash => List Hash
  /-- How many recorded encodings name each source. -/
  deltaSourceCounts : AList fun _ : Hash => ℕ

namespace ExtentIndex

/-- Admission policy for `registerEntry`. -/
inductive Admission where
  | ifAbsent
  | consumingInputs (inputs : Finset Ulid)

/-- The empty index. -/
def new : ExtentIndex where
  inner := ∅
  deltas := ∅
  journal := ∅
  deltaSources := ∅
  deltaSourceCounts := ∅

variable (x : ExtentIndex)

/-- Count one more user of each source. -/
def bumpSourceCounts (sources : List Hash) : ExtentIndex :=
  { x with deltaSourceCounts := sources.foldl Refcount.incref x.deltaSourceCounts }

/-- Count one user less of each source. -/
def dropSourceCounts (sources : List Hash) : ExtentIndex :=
  { x with deltaSourceCounts := sources.foldl Refcount.decref x.deltaSourceCounts }

/-! ## The durable tier -/

/-- Where the body of a hash is. -/
def lookup (hash : Hash) : Option ExtentLocation := x.inner.lookup hash

/-- Where the delta of a hash is. -/
def lookupDelta (hash : Hash) : Option DeltaLocation := x.deltas.lookup hash

/-- Insert or overwrite the DATA location for `hash`, clearing a Delta slot of the same hash. -/
def insert (hash : Hash) (location : ExtentLocation) : ExtentIndex :=
  { x with inner := x.inner.insert hash location, deltas := x.deltas.erase hash }

/-- First-instance admission: insert when absent, and say whether `location` is now the owner. -/
def insertIfAbsent (hash : Hash) (location : ExtentLocation) : ExtentIndex × Bool :=
  match x.inner.lookup hash with
  | none => ({ x with inner := x.inner.insert hash location }, true)
  | some _ => (x, false)

/-- Overwrite the entry for `hash` only if it is at the expected segment and offset. -/
def replaceIfMatches (hash : Hash) (expectedSegmentId : Ulid)
    (expectedBodyOffset : ℕ) (newLocation : ExtentLocation) : ExtentIndex × Bool :=
  match x.inner.lookup hash with
  | some loc =>
    if loc.segmentId = expectedSegmentId ∧ loc.bodyOffset = expectedBodyOffset then
      ({ x with inner := x.inner.insert hash newLocation }, true)
    else (x, false)
  | none => (x, false)

/-- Drop the entry for `hash` only if it is at the expected segment and offset. -/
def removeIfMatches (hash : Hash) (expectedSegmentId : Ulid)
    (expectedBodyOffset : ℕ) : ExtentIndex × Bool :=
  match x.inner.lookup hash with
  | some loc =>
    if loc.segmentId = expectedSegmentId ∧ loc.bodyOffset = expectedBodyOffset then
      ({ x with inner := x.inner.erase hash }, true)
    else (x, false)
  | none => (x, false)

/-- Give the entry for `hash` a new owner, only if it is at the expected segment and offset. -/
def rekeyOwner (hash : Hash) (expectedSegmentId : Ulid) (expectedBodyOffset : ℕ)
    (newSegmentId : Ulid) : ExtentIndex × Bool :=
  match x.inner.lookup hash with
  | some loc =>
    if loc.segmentId = expectedSegmentId ∧ loc.bodyOffset = expectedBodyOffset then
      ({ x with inner := x.inner.insert hash { loc with segmentId := newSegmentId } }, true)
    else (x, false)
  | none => (x, false)

/-- Register a Delta location unless the hash has a DATA or a Delta entry. -/
def insertDeltaIfAbsent (hash : Hash) (location : DeltaLocation) : ExtentIndex × Bool :=
  if (x.inner.lookup hash).isSome || (x.deltas.lookup hash).isSome then (x, false)
  else ({ x with deltas := x.deltas.insert hash location }, true)

/-- Remove `hash` from whichever of the two maps `expectedSegmentId` owns it in. -/
def removeOwnerAt (hash : Hash) (expectedSegmentId : Ulid) : ExtentIndex × Bool :=
  let ownsInner := (x.inner.lookup hash).any fun loc => decide (loc.segmentId = expectedSegmentId)
  let x := if ownsInner then { x with inner := x.inner.erase hash } else x
  let ownsDelta := (x.deltas.lookup hash).any fun loc => decide (loc.segmentId = expectedSegmentId)
  let x := if ownsDelta then { x with deltas := x.deltas.erase hash } else x
  (x, ownsInner || ownsDelta)

/-- Drop `input`'s ownership of every hash in `owned` that `carried` does not re-register. -/
def removeInputOwned (input : Ulid) (owned : List Hash)
    (carried : Finset Hash) : ExtentIndex × List Hash :=
  owned.foldl (fun (x, removed) hash =>
    if hash ∈ carried then (x, removed)
    else
      let (x, gone) := x.removeOwnerAt hash input
      (x, if gone then removed ++ [hash] else removed)) (x, [])

/-! ## The journal tier -/

variable (segment : Ulid)

/-- The journal-tier body for `hash` claimed by `segment`. -/
def lookupJournal (hash : Hash) : Option ExtentLocation :=
  (x.journal.lookup segment).bind fun seg => seg.lookup hash

/-- Insert a journal-tier body, keeping the first when a hash recurs within one segment. -/
def insertJournalIfAbsent (hash : Hash) (location : ExtentLocation) : ExtentIndex × Bool :=
  let seg := (x.journal.lookup segment).getD ∅
  match seg.lookup hash with
  | none => ({ x with journal := x.journal.insert segment (seg.insert hash location) }, true)
  | some _ => ({ x with journal := x.journal.insert segment seg }, false)

/-- Remove `(from, hash)`, dropping the submap if it empties. -/
def takeJournal (source : Ulid) (hash : Hash) : ExtentIndex × Option ExtentLocation :=
  match x.journal.lookup source with
  | none => (x, none)
  | some seg =>
    let rest := seg.erase hash
    let journal :=
      if rest.entries.isEmpty then x.journal.erase source else x.journal.insert source rest
    ({ x with journal }, seg.lookup hash)

/-- Re-key a journal body from `(source, hash)` to `(target, hash)` with its new location. No-op
when it is absent. -/
def rekeyJournal (source target : Ulid) (hash : Hash) (location : ExtentLocation) : ExtentIndex :=
  match x.takeJournal source hash with
  | (x, none) => x
  | (x, some _) =>
    let seg := (x.journal.lookup target).getD ∅
    { x with journal := x.journal.insert target (seg.insert hash location) }

/-! ## Delta sources -/

/-- Every source hash some recorded encoding names. -/
def namedDeltaSources : List Hash :=
  x.deltaSources.entries.flatMap fun perHash => perHash.2.entries.flatMap fun sources => sources.2

/-- Drop every Delta-source record contributed by `segment`. -/
def purgeSegmentDeltaSources : ExtentIndex :=
  match x.deltaSources.lookup segment with
  | none => x
  | some perHash =>
    perHash.entries.foldl (fun x sources => x.dropSourceCounts sources.2)
      { x with deltaSources := x.deltaSources.erase segment }

/-- Whether any recorded encoding names `hash` as a source. -/
def isNamedDeltaSource (hash : Hash) : Bool :=
  (x.deltaSourceCounts.lookup hash).isSome

/-- Record the sources of one encoding: count the new ones, then drop the replaced ones. -/
def recordSources (hash : Hash) (sources : List Hash) : ExtentIndex :=
  let x := x.bumpSourceCounts sources
  let perHash := (x.deltaSources.lookup segment).getD ∅
  let replaced := perHash.lookup hash
  let x := { x with deltaSources := x.deltaSources.insert segment (perHash.insert hash sources) }
  match replaced with
  | some old => x.dropSourceCounts old
  | none => x

/-! ## Registration -/

/-- Whether a Delta entry for `hash` may take the home slot. -/
def admitsDelta (hash : Hash) : Admission → Bool
  | .ifAbsent => (x.inner.lookup hash).isNone && (x.deltas.lookup hash).isNone
  | .consumingInputs inputs =>
    match x.deltas.lookup hash with
    | none => (x.inner.lookup hash).isNone
    | some loc => decide (loc.segmentId ∈ inputs)

variable (entry : SegmentEntry)

/-- The Delta arm of `registerEntry`. The sources are recorded whether or not the encoding takes
the home slot. -/
def registerDelta (rawIdx : ℕ) (segmentId : Ulid)
    (bodySource : DeltaBodySource) (admission : Admission) : ExtentIndex :=
  let admitted := x.admitsDelta entry.hash admission
  let x :=
    if entry.deltaOptions.isEmpty then x
    else x.recordSources segmentId entry.hash (entry.deltaOptions.map DeltaOption.sourceHash)
  if admitted then
    { x with deltas := x.deltas.insert entry.hash ⟨segmentId, rawIdx, bodySource,
        entry.deltaOptions⟩ }
  else x

/-- The bytes of an inline entry: `none` when the inline section is truncated, which skips the
entry; `some none` for an entry that is not inline. -/
def inlineBytes (source : InlineSource) : Option (Option (List UInt8)) :=
  if entry.kind.isInline then
    match source with
    | .inlineSection bytes =>
      if entry.storedOffset + entry.storedLength ≤ bytes.length then
        some (some ((bytes.drop entry.storedOffset).take entry.storedLength))
      else none
    | .entryInline => some entry.inline
  else some none

/-- The body arm of `registerEntry`. -/
def registerBody (rawIdx : ℕ)
    (ctx : SegmentRegistrationCtx) (admission : Admission) : ExtentIndex :=
  match inlineBytes entry ctx.inline with
  | none => x
  | some inlineData =>
    let location : ExtentLocation :=
      { segmentId := ctx.segmentId
        bodyOffset := entry.storedOffset
        bodyLength := entry.storedLength
        codec := entry.codec
        bodySource :=
          match ctx.bodyTier with
          | .local => .local
          | .cached => .cached rawIdx
        bodySectionStart := ctx.bodySectionStart
        inlineData }
    if entry.journal then (x.insertJournalIfAbsent ctx.segmentId entry.hash location).1
    else
      match admission with
      | .ifAbsent => (x.insertIfAbsent entry.hash location).1
      | .consumingInputs inputs =>
        match x.inner.lookup entry.hash with
        | some owner => if owner.segmentId ∈ inputs then x.insert entry.hash location else x
        | none => x.insert entry.hash location

/-- Register one segment-index entry as the disk rebuild does. -/
def registerEntry (rawIdx : ℕ)
    (ctx : SegmentRegistrationCtx) (admission : Admission) : Except RegisterError ExtentIndex :=
  match entry.kind with
  | .dedupRef | .zero => .ok x
  | .delta | .canonicalDelta =>
    match ctx.deltaBodySource with
    | none => .error (.noDeltaBodySource ctx.segmentId)
    | some bodySource => .ok (x.registerDelta entry rawIdx ctx.segmentId bodySource admission)
  | .data | .inline | .canonicalData | .canonicalInline =>
    .ok (x.registerBody entry rawIdx ctx admission)

/-- Register, keeping whatever is there. -/
def registerEntryIfAbsent (rawIdx : ℕ)
    (ctx : SegmentRegistrationCtx) : Except RegisterError ExtentIndex :=
  x.registerEntry entry rawIdx ctx .ifAbsent

/-- Register an output's entry over what its inputs had. -/
def registerEntryConsumingInputs (rawIdx : ℕ)
    (ctx : SegmentRegistrationCtx) (inputs : Finset Ulid) : Except RegisterError ExtentIndex :=
  x.registerEntry entry rawIdx ctx (.consumingInputs inputs)

/-- Whether it locates nothing outside the journal. -/
def isEmpty : Bool := x.inner.entries.isEmpty && x.deltas.entries.isEmpty

/-- Whether it has no journal body. -/
def journalIsEmpty : Bool := x.journal.entries.isEmpty

end ExtentIndex

end Elide
