import Elide.LbaMap.Rebuild
import Elide.Volume.Promote

/-!
# Opening a volume

`openImpl` rebuilds the LBA map from the committed segments and replays the WAL files over it, in
the order of their names. A replay overrides whatever the map holds. Every WAL but the last is then
promoted to fresh segments, above every ULID in use, and its file goes; the last one is reopened for
appending.

The extent index comes out of a walk of its own over the same segments and plays no part in the LBA
map, so `openImpl` is given the index that walk built, and with it the clock of the mint and what a
formation learns from files. Snapshots, ancestor layers and the keys are left out. A recovery promote
runs with the delta tiers off.
-/

namespace Elide

/-! ## WAL files -/

/-- A record of a WAL file. -/
inductive LogRecord where
  | data (hash : Hash) (startLba lbaLength : ℕ) (codec : Codec) (bodyOffset bodyLength : ℕ)
  | ref (hash : Hash) (startLba lbaLength : ℕ)
  | zero (startLba lbaLength : ℕ)
  deriving DecidableEq, Repr

/-- A WAL file: its name and its records, oldest first. -/
structure WalFile where
  ulid : Ulid
  records : List LogRecord
  deriving DecidableEq, Repr

namespace LogRecord

/-- The write a record stands for. -/
def write : LogRecord → GuestWrite
  | data hash startLba lbaLength .. => ⟨startLba, lbaLength, hash⟩
  | ref hash startLba lbaLength => ⟨startLba, lbaLength, hash⟩
  | zero startLba lbaLength => ⟨startLba, lbaLength, ZERO_HASH⟩

/-- Replay one record into the maps. -/
def replay (ulid : Ulid) (journal : JournalRanges) (m : Maps) : LogRecord → Maps
  | data hash startLba lbaLength codec bodyOffset bodyLength =>
    let location : ExtentLocation :=
      { segmentId := ulid
        bodyOffset
        bodyLength
        codec
        bodySource := .local
        bodySectionStart := 0
        inlineData := none }
    { lbamap := m.lbamap.insert startLba lbaLength hash ulid
      extentIndex :=
        if journal.contains startLba then (m.extentIndex.insertJournalIfAbsent ulid hash location).1
        else (m.extentIndex.insertIfAbsent hash location).1 }
  | ref hash startLba lbaLength =>
    { m with lbamap := m.lbamap.insert startLba lbaLength hash ulid }
  | zero startLba lbaLength =>
    { m with lbamap := m.lbamap.insert startLba lbaLength ZERO_HASH ulid }

/-- The pending write a record stages for the next promote. -/
def pendingWrite (journal : JournalRanges) : LogRecord → PendingWrite
  | data hash startLba lbaLength codec bodyOffset bodyLength =>
    ⟨{ SegmentEntry.newDataNoBody hash startLba lbaLength codec bodyLength with
        journal := journal.contains startLba }, some bodyOffset⟩
  | ref hash startLba lbaLength => ⟨.newDedupRef hash startLba lbaLength, none⟩
  | zero startLba lbaLength => ⟨.newZero startLba lbaLength, none⟩

end LogRecord

/-- Replay a WAL into the maps and stage its writes. -/
def replayWalRecords (wal : WalFile) (m : Maps) (journal : JournalRanges) : Maps × List PendingWrite :=
  (wal.records.foldl (LogRecord.replay wal.ulid journal) m,
    wal.records.map (LogRecord.pendingWrite journal))

/-! ## The mint -/

/-- Monotonic ULID generator over a clock that may run backwards. -/
structure UlidMint where
  last : Ulid
  /-- How often the clock has been read. -/
  ticks : ℕ

/-- The clock's ULID, or the next above the last. -/
def UlidMint.next (mint : UlidMint) (clock : ℕ → Ulid) : Ulid × UlidMint :=
  let candidate := clock mint.ticks
  let result := if mint.last < candidate then candidate else mint.last + 1
  (result, ⟨result, mint.ticks + 1⟩)

/-! ## Opening -/

/-- The segment files a promote commits. No file is written for an empty batch. -/
def PromoteResult.segments (result : PromoteResult) : List SegmentFile :=
  (if result.primary.entries.isEmpty then []
    else [⟨result.primary.segmentUlid, [], result.primary.entries⟩]) ++
  (result.journal.map fun part => (⟨part.segmentUlid, [], part.entries⟩ : SegmentFile)).toList

/-- The files of a volume. -/
structure Disk where
  segments : List SegmentFile
  wals : List WalFile

/-- What an open learns from outside the LBA map's files. -/
structure OpenEnv where
  /-- The rebuilt extent index. -/
  index : ExtentIndex
  clock : ℕ → Ulid
  formation : Formation

/-- The state of the recovery loop: the maps so far, the mint and the segment files. -/
structure Recovering where
  maps : Maps
  mint : UlidMint
  segments : List SegmentFile

/-- Replay a stale WAL and promote it to fresh segments. -/
def recoverStale (journal : JournalRanges) (env : OpenEnv) (st : Recovering) (wal : WalFile) :
    Except RegisterError Recovering := do
  let (maps, pending) := replayWalRecords wal st.maps journal
  if pending.isEmpty then return { st with maps }
  let (segmentUlid, mint) := st.mint.next env.clock
  let (journalSegmentUlid, mint) := mint.next env.clock
  let job : PromoteJob :=
    { segmentUlid
      oldWalUlid := wal.ulid
      pending
      journalRanges := journal
      journalSegmentUlid
      layers := MapLayers.new maps }
  let result := { env.formation with deltaEnabled := false }.executePromote job
  let maps ← applyPromotedEntries result maps
  return { maps, mint, segments := st.segments ++ result.segments }

/-- The WAL files to replay, in name order. One that shares its name with a segment was promoted
before its delete was interrupted, and is dropped. -/
def Disk.walFiles (disk : Disk) : List WalFile :=
  (disk.wals.mergeSort fun a b => decide (a.ulid ≤ b.ulid)).filter fun wal =>
    !disk.segments.any fun seg => decide (seg.ulid = wal.ulid)

/-- The highest ULID in use. -/
def Disk.mintFloor (disk : Disk) : Ulid :=
  max (disk.segments.foldl (fun m seg => max m seg.ulid) 0)
    ((disk.walFiles.getLast?.map WalFile.ulid).getD 0)

/-- The maps an open ends up with, and the files it leaves. -/
def openImpl (disk : Disk) (journal : JournalRanges) (env : OpenEnv) :
    Except RegisterError (Maps × Disk) := do
  let st ← disk.walFiles.dropLast.foldlM (recoverStale journal env)
    ⟨⟨LbaMapBuilder.build disk.segments, env.index⟩, ⟨disk.mintFloor, 0⟩, disk.segments⟩
  match disk.walFiles.getLast? with
  | some wal => return ((replayWalRecords wal st.maps journal).1, ⟨st.segments, [wal]⟩)
  | none => return (st.maps, ⟨st.segments, []⟩)

end Elide
