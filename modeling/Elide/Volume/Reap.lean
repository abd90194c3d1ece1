import Elide.ExtentIndex.DeltaSources
import Elide.ExtentIndex.Removal
import Elide.Volume.GuestTraffic

/-!
# Reaping the open generation

A pass that unlinks segments of `pending/open` nothing references. It has four parts: a sweep over
the published snapshot that finds the segments without a claim and without a live body, a parse of
what each of them owns, a fold that checks every data segment again over the maps of the moment and
drops what it owns, and a swap that refuses the whole pass when a write has claimed a dropped hash
since. Guest writes land between the parts.

Every function here is a translation of the function of the same name. Sets that the sweep collects
are the predicates they stand for; body-byte totals and log lines are left out.
-/

namespace Elide

namespace ExtentIndex

/-- Whether `segment` holds any journal-tier body. -/
def isJournalSegment (x : ExtentIndex) (segment : Ulid) : Bool := (x.journal.lookup segment).isSome

/-- Drop every journal-tier body of `segment`. -/
def purgeJournalSegment (x : ExtentIndex) (segment : Ulid) : ExtentIndex :=
  { x with journal := x.journal.erase segment }

end ExtentIndex

/-- A file of `pending/open`. `index` is what a parse of its index region finds, `none` when that
fails. -/
structure OpenSegment where
  ulid : Ulid
  bytes : ℕ
  index : Option (List SegmentEntry)

/-- A segment the sweep found unreachable. A journal-tier one is reaped without a parse. -/
structure ReapCandidate where
  segment : OpenSegment
  journal : Bool

/-- A candidate with the hashes whose location it may own. -/
structure ReapSegment where
  ulid : Ulid
  bytes : ℕ
  journal : Bool
  ownedHashes : List Hash

/-- Counts of a reap. -/
structure ReapStats where
  segmentsReaped : ℕ := 0
  entriesRemoved : ℕ := 0
  bytesReclaimed : ℕ := 0
  segmentsRefused : ℕ := 0
  deriving DecidableEq, Repr

/-! ## The sweep -/

variable (lbamap : LbaMap)

/-- A claim or a recorded encoding names `hash`. -/
def sweepLive (index : ExtentIndex) (hash : Hash) : Bool :=
  lbamap.isReferenced hash || index.isNamedDeltaSource hash

/-- A claim is of `segment`, or a location at it holds a live hash. -/
def sweepReferenced (index : ExtentIndex) (segment : Ulid) : Bool :=
  (lbamap.iterEntriesWithClaimant.any fun (_, _, _, _, claimant) => decide (claimant = segment)) ||
    (index.inner.entries.any fun e =>
      decide (e.2.segmentId = segment) && sweepLive lbamap index e.1) ||
    index.deltas.entries.any fun e =>
      decide (e.2.segmentId = segment) && sweepLive lbamap index e.1

/-- Some location is at `segment`, live or dead. -/
def sweepDurable (index : ExtentIndex) (segment : Ulid) : Bool :=
  (index.inner.entries.any fun e => decide (e.2.segmentId = segment)) ||
    index.deltas.entries.any fun e => decide (e.2.segmentId = segment)

/-- The open segments above the snapshot floor that nothing references. -/
def sweepUnreachable (index : ExtentIndex) (files : List OpenSegment)
    (floor : Option Ulid) : List ReapCandidate :=
  (files.filter fun f => (floor.all fun floor => decide (floor < f.ulid)) &&
      !sweepReferenced lbamap index f.ulid).map fun f =>
    { segment := f
      journal := index.isJournalSegment f.ulid && !sweepDurable index f.ulid }

/-! ## The parse -/

/-- Entries one pass may remove. -/
def REAP_ENTRY_CAP : ℕ := 32768

/-- Stop taking data segments once the hashes taken reach `cap`; `entries` counts them. -/
def parseWithCap (cap : ℕ) : ℕ → List ReapCandidate → List ReapSegment
  | _, [] => []
  | entries, c :: cs =>
    if c.journal then
      ⟨c.segment.ulid, c.segment.bytes, true, []⟩ :: parseWithCap cap entries cs
    else if cap ≤ entries then parseWithCap cap entries cs
    else
      match c.segment.index with
      | some segEntries =>
        let owned := (segEntries.filter fun e => decide (e.kind ≠ .dedupRef)).map SegmentEntry.hash
        ⟨c.segment.ulid, c.segment.bytes, false, owned⟩ ::
          parseWithCap cap (entries + owned.length) cs
      | none => parseWithCap cap entries cs

/-- The candidates that could be parsed, up to the cap. -/
def parseReapCandidates (cs : List ReapCandidate) : List ReapSegment :=
  parseWithCap REAP_ENTRY_CAP 0 cs

/-! ## The fold -/

/-- What the fold has done so far. -/
structure ReapProgress where
  stats : ReapStats
  index : ExtentIndex
  removed : Finset Hash
  reaped : List ReapSegment

/-- A hash the segment still owns is claimed in `view` or named by an encoding. -/
def reapRefuses (view : LbaMap) (index : ExtentIndex) (seg : ReapSegment) : Bool :=
  !seg.journal && seg.ownedHashes.any fun hash =>
    index.ownerHere seg.ulid hash && (view.isReferenced hash || index.isNamedDeltaSource hash)

/-- One segment of the fold. -/
def reapSegment (view : LbaMap) (s : ReapProgress) (seg : ReapSegment) : ReapProgress :=
  if reapRefuses view s.index seg then
    { s with stats := { s.stats with segmentsRefused := s.stats.segmentsRefused + 1 } }
  else
    let (index, dropped) := s.index.removeInputOwned seg.ulid seg.ownedHashes ∅
    { stats :=
        { s.stats with
          segmentsReaped := s.stats.segmentsReaped + 1
          entriesRemoved := s.stats.entriesRemoved + dropped.length
          bytesReclaimed := s.stats.bytesReclaimed + seg.bytes }
      index := (index.purgeJournalSegment seg.ulid).purgeSegmentDeltaSources seg.ulid
      removed := s.removed ∪ dropped.toFinset
      reaped := s.reaped ++ [seg] }

/-- A pass between its fold and its swap. -/
structure ReapFold where
  stats : ReapStats
  /-- `base` with the reaped segments removed. -/
  post : Maps
  /-- The hashes the fold dropped from the extent index. -/
  removed : Finset Hash
  reaped : List ReapSegment

/-- The loop over the segments. Claims are read from the layers folded into one map, owners and
source counts from the index as the pass leaves it. -/
def reapProgress (layers : MapLayers) (segments : List ReapSegment) : ReapProgress :=
  segments.foldl (reapSegment layers.materialised.lbamap)
    { stats := {}, index := layers.base.extentIndex, removed := ∅, reaped := [] }

/-- The fold over a clone of `base`. -/
def foldReap (layers : MapLayers) (segments : List ReapSegment) : ReapFold :=
  let s := reapProgress layers segments
  { stats := s.stats
    post := { layers.base with extentIndex := s.index }
    removed := s.removed
    reaped := s.reaped }

/-! ## The swap -/

/-- What a swap leaves: the maps, the totals and the files to unlink. -/
structure ReapSwap where
  maps : MapLayers
  stats : ReapStats
  unlink : List Ulid

/-- Swap the maps, unless the open epoch claims a removed hash. -/
def swapReap (maps : MapLayers) (fold : ReapFold) : ReapSwap :=
  if fold.reaped.isEmpty then ⟨maps, fold.stats, []⟩
  else
    match maps.deltaClaimsAny fold.removed with
    | some _ =>
      ⟨maps, { segmentsRefused := fold.stats.segmentsRefused + fold.reaped.length }, []⟩
    | none =>
      ⟨maps.swapBase fold.post, fold.stats, fold.reaped.map ReapSegment.ulid⟩

/-- A whole pass: the sweep over the maps published then, the fold over the maps at its first hold
and the swap over those at the second. -/
def reapPass (files : List OpenSegment) (floor : Option Ulid) (swept folded swapped : MapLayers) :
    ReapSwap :=
  let snapshot := swept.materialised
  let candidates := sweepUnreachable snapshot.lbamap snapshot.extentIndex files floor
  swapReap swapped (foldReap folded (parseReapCandidates candidates))

end Elide
