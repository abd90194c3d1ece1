import Elide.Lib.OrdMap
import Elide.Lib.Refcount
import Elide.Segment

/-!
# The LBA map

The in-memory map from logical block addresses to content hashes, as the code computes it. The
map holds extents keyed by their first LBA; an insert trims, splits or removes the extents it
overlaps. A guarded insert first collects the sub-ranges whose claimant blocks it and then fills
the gaps between them.

Every function here is a translation of the function of the same name. Loops over collected keys
are folds over the list the code collects. A `debug_assert!` is compiled out of a release build,
which carries on past it, so the model carries on too and only counts the failure in
`failedAsserts`. No function reads that field.

## Main definitions

* `LbaMap.insertInner` — an unconditional overwrite
* `LbaMap.insertInnerIfNewer` — an overwrite under a `Blocking` rule
* `LbaMap.registerEntryInner` — one segment entry's claim under an `Admission` policy
* `LbaMap.setClaimantIfMatches`, `setClaimantConsumingInput` — restamping claims in place
* `LbaMap.lookupWithClaimant`, `extentsInRange` — the reads
-/

namespace Elide

/-- Value stored per LBA map entry. -/
structure MapEntry where
  lbaLength : ℕ
  hash : Hash
  /-- Blocks from the start of the stored payload to the data of this entry's first LBA. -/
  payloadBlockOffset : ℕ
  /-- The segment or WAL that staked this claim. -/
  claimantUlid : Ulid
  deriving DecidableEq, Repr

/-- Admission policy for `LbaMap.registerEntryInner`. -/
inductive Admission where
  | unconditional
  | ifNewer
  | consumingInputs (inputs : Finset Ulid)
  | outputHorizon (horizon : Ulid)

/-- Overlap-blocking rule for `LbaMap.insertInnerIfNewer`. -/
inductive Blocking where
  /-- An existing claimant `≥` ours keeps its sub-range. -/
  | sameOrHigher
  /-- An existing claimant `>` ours keeps its sub-range. -/
  | higher
  /-- Structural-commit apply: only consumed inputs, our own earlier entries and lower claimants
  of our hash give way. -/
  | consuming (inputs : Finset Ulid)
  /-- Rebuild admission for a compaction output: claimants at or below the horizon give way. -/
  | aboveHorizon (horizon : Ulid)

/-- Whether an existing claim keeps its sub-range against an insert of `hash` by `claimant`. -/
def Blocking.blocks (blocking : Blocking) (claimant : Ulid) (hash : Hash)
    (existing : Ulid) (existingHash : Hash) : Bool :=
  match blocking with
  | .consuming set =>
    !(decide (existing ∈ set) || decide (existing = claimant)
      || decide (existingHash = hash) && decide (existing < claimant))
  | .sameOrHigher => decide (claimant ≤ existing)
  | .higher => decide (claimant < existing)
  | .aboveHorizon horizon =>
    !(decide (existing ≤ horizon) || decide (existing = claimant)
      || decide (existingHash = hash) && decide (existing < claimant))

/-- A portion of a stored extent that overlaps a read request. -/
structure ExtentRead where
  hash : Hash
  rangeStart : ℕ
  rangeEnd : ℕ
  payloadBlockOffset : ℕ
  claimantUlid : Ulid
  deriving DecidableEq, Repr

/-- The live in-memory LBA map. -/
structure LbaMap where
  /-- First LBA of an extent to the extent. -/
  inner : OrdMap ℕ MapEntry
  /-- Refcounts for hashes claimed by an LBA. -/
  claimCounts : AList fun _ : Hash => ℕ
  /-- How many `debug_assert!`s have failed so far. -/
  failedAsserts : ℕ

namespace LbaMap

/-- The empty map. -/
def new : LbaMap where
  inner := OrdMap.empty
  claimCounts := ∅
  failedAsserts := 0

variable (m : LbaMap)

/-- `debug_assert!(cond)`. -/
def debugAssert (cond : Bool) : LbaMap :=
  if cond then m else { m with failedAsserts := m.failedAsserts + 1 }

/-- Count one more claim of the hash. -/
def claimIncref (h : Hash) : LbaMap :=
  { m with claimCounts := Refcount.incref m.claimCounts h }

/-- Decref of an unclaimed hash fails an assertion and changes nothing else. -/
def claimDecref (h : Hash) : LbaMap :=
  let m := m.debugAssert (m.claimCounts.lookup h).isSome
  { m with claimCounts := Refcount.decref m.claimCounts h }

/-- Remove the entry at `key` and decref its claimed hash. -/
def removeEntry (key : ℕ) : LbaMap × Option MapEntry :=
  match m.inner.get? key with
  | none => (m, none)
  | some entry => ({ m with inner := m.inner.erase key }.claimDecref entry.hash, some entry)

/-- Insert `(key, entry)` and incref the claimed hash. Displacing an occupied key fails an
assertion. -/
def addEntry (key : ℕ) (entry : MapEntry) : LbaMap :=
  let m := (m.debugAssert (m.inner.get? key).isNone).claimIncref entry.hash
  { m with inner := m.inner.insert key entry }

/-! ## Unconditional insertion -/

/-- Step 1 of an insert of `[startLba, newEnd)`: a predecessor that reaches past `startLba` keeps
its head, and its tail too when it reaches past `newEnd`. -/
def trimPredecessor (startLba newEnd : ℕ) : LbaMap :=
  match m.inner.pred? startLba with
  | none => m
  | some (predStart, pred) =>
    let predEnd := predStart + pred.lbaLength
    if startLba < predEnd then
      let m := (m.removeEntry predStart).1
      let m := m.addEntry predStart { pred with lbaLength := startLba - predStart }
      if newEnd < predEnd then
        m.addEntry newEnd
          { pred with
            lbaLength := predEnd - newEnd
            payloadBlockOffset := pred.payloadBlockOffset + (newEnd - predStart) }
      else m
    else m

/-- Step 2, for one key in `[startLba, newEnd)`: remove the entry, keeping what it has past
`newEnd`. -/
def removeOverlapping (newEnd : ℕ) (m : LbaMap) (key : ℕ) : LbaMap :=
  match m.removeEntry key with
  | (m, none) => m
  | (m, some e) =>
    let entryEnd := key + e.lbaLength
    if newEnd < entryEnd then
      m.addEntry newEnd
        { e with
          lbaLength := entryEnd - newEnd
          payloadBlockOffset := e.payloadBlockOffset + (newEnd - key) }
    else m

/-- Insert a claim over whatever the range holds. -/
def insertInner (startLba lbaLength payloadBlockOffset : ℕ) (hash : Hash)
    (claimant : Ulid) : LbaMap :=
  let newEnd := startLba + lbaLength
  let m := m.trimPredecessor startLba newEnd
  let overlapping := (m.inner.range startLba newEnd).map Prod.fst
  let m := overlapping.foldl (removeOverlapping newEnd) m
  m.addEntry startLba ⟨lbaLength, hash, payloadBlockOffset, claimant⟩

/-- Insert an extent, trimming or splitting the entries it overlaps. -/
def insert (startLba lbaLength : ℕ) (hash : Hash) (claimant : Ulid) : LbaMap :=
  m.insertInner startLba lbaLength 0 hash claimant

/-- `insert` of an entry that is the tail of a split payload. -/
def insertWithOffset (startLba lbaLength payloadBlockOffset : ℕ) (hash : Hash)
    (claimant : Ulid) : LbaMap :=
  m.insertInner startLba lbaLength payloadBlockOffset hash claimant

/-! ## Guarded insertion -/

/-- The sub-ranges of `[startLba, newEnd)` whose claimant blocks an insert, in ascending order. -/
def blockedRanges (startLba newEnd : ℕ) (blocks : Ulid → Hash → Bool) : List (ℕ × ℕ) :=
  let fromPred :=
    match m.inner.pred? startLba with
    | none => []
    | some (predStart, pred) =>
      let predEnd := predStart + pred.lbaLength
      if startLba < predEnd ∧ blocks pred.claimantUlid pred.hash then
        [(startLba, min predEnd newEnd)]
      else []
  let fromRange := (m.inner.range startLba newEnd).filterMap fun (k, e) =>
    if blocks e.claimantUlid e.hash then some (k, min (k + e.lbaLength) newEnd) else none
  fromPred ++ fromRange

/-- The state of the gap sweep: the map, the blocks installed and the cursor. -/
structure GapSweep where
  map : LbaMap
  installed : ℕ
  cursor : ℕ

/-- Install the claim of `[startLba, …)` on the gap from the cursor to `gapEnd`, if there is one.
Body block 0 is anchored at `startLba`, so the gap's payload offset is its distance from there. -/
def GapSweep.fill (s : GapSweep) (startLba gapEnd : ℕ) (hash : Hash) (claimant : Ulid) :
    GapSweep :=
  if s.cursor < gapEnd then
    let gapLen := gapEnd - s.cursor
    let pbo := s.cursor - startLba
    { s with
      map := s.map.insertInner s.cursor gapLen pbo hash claimant
      installed := s.installed + gapLen }
  else s

/-- One blocked sub-range: fill the gap before it and move past it. -/
def GapSweep.step (startLba : ℕ) (hash : Hash) (claimant : Ulid) (s : GapSweep)
    (blocked : ℕ × ℕ) : GapSweep :=
  let s := s.fill startLba blocked.1 hash claimant
  { s with cursor := max s.cursor blocked.2 }

/-- Insert where the map holds nothing that blocks the claimant, and count the blocks taken. -/
def insertInnerIfNewer (startLba lbaLength : ℕ) (hash : Hash) (claimant : Ulid)
    (blocking : Blocking) : LbaMap × ℕ :=
  let newEnd := startLba + lbaLength
  let blocks := blocking.blocks claimant hash
  let sweep : LbaMap × ℕ :=
    let blocked := m.blockedRanges startLba newEnd blocks
    let s := blocked.foldl (GapSweep.step startLba hash claimant) ⟨m, 0, startLba⟩
    let s := s.fill startLba newEnd hash claimant
    (s.map, s.installed)
  -- Exact-extent fast path: an entry keyed at `startLba` and exactly this long is the only one
  -- the range meets, so the claim is restated in place.
  match m.inner.get? startLba with
  | none => sweep
  | some existing =>
    if existing.lbaLength = lbaLength then
      if blocks existing.claimantUlid existing.hash then (m, 0)
      else
        let m := { m with inner := m.inner.insert startLba ⟨lbaLength, hash, 0, claimant⟩ }
        let m := if existing.hash ≠ hash then (m.claimDecref existing.hash).claimIncref hash else m
        (m, lbaLength)
    else sweep

/-- Insert only on sub-ranges where no current entry has a claimant `≥` ours. -/
def insertIfNewer (startLba lbaLength : ℕ) (hash : Hash) (claimant : Ulid) : LbaMap × ℕ :=
  m.insertInnerIfNewer startLba lbaLength hash claimant .sameOrHigher

/-- `insertIfNewer` for rewrite apply paths, which consume `consumedInputs`. -/
def insertConsumingInputs (startLba lbaLength : ℕ) (hash : Hash) (claimant : Ulid)
    (consumedInputs : Finset Ulid) : LbaMap × ℕ :=
  m.insertInnerIfNewer startLba lbaLength hash claimant (.consuming consumedInputs)

/-! ## Registration of segment entries -/

variable (entry : SegmentEntry)

/-- Register one segment entry's LBA claim. The canonical-only kinds make none. -/
def registerEntryInner (claimant : Ulid) (admission : Admission) : LbaMap × ℕ :=
  if entry.kind.isCanonicalOnly then (m, 0)
  else
    match admission with
    | .unconditional =>
      (m.insert entry.startLba entry.lbaLength entry.hash claimant, entry.lbaLength)
    | .ifNewer =>
      m.insertInnerIfNewer entry.startLba entry.lbaLength entry.hash claimant .higher
    | .consumingInputs inputs =>
      m.insertConsumingInputs entry.startLba entry.lbaLength entry.hash claimant inputs
    | .outputHorizon horizon =>
      m.insertInnerIfNewer entry.startLba entry.lbaLength entry.hash claimant
        (.aboveHorizon horizon)

/-- Register over everything. -/
def registerEntry (claimant : Ulid) : LbaMap × ℕ :=
  m.registerEntryInner entry claimant .unconditional

/-- Register over what is older. -/
def registerEntryIfNewer (claimant : Ulid) : LbaMap × ℕ :=
  m.registerEntryInner entry claimant .ifNewer

/-- Register over what the inputs hold. -/
def registerEntryConsumingInputs (claimant : Ulid) (inputs : Finset Ulid) : LbaMap × ℕ :=
  m.registerEntryInner entry claimant (.consumingInputs inputs)

/-- Register over what is at or below the horizon. -/
def registerEntryWithHorizon (claimant horizon : Ulid) : LbaMap × ℕ :=
  m.registerEntryInner entry claimant (.outputHorizon horizon)

/-! ## Restamping claimants -/

/-- The keys of the entries that meet `[startLba, stop)`, hold `expectedHash` and whose claimant
`promotes` accepts: a predecessor reaching into the range first, then the range in order. -/
def restampKeys (startLba stop : ℕ) (expectedHash : Hash) (promotes : Ulid → Bool) : List ℕ :=
  let fromPred :=
    match m.inner.pred? startLba with
    | none => []
    | some (predStart, pred) =>
      if startLba < predStart + pred.lbaLength ∧ pred.hash = expectedHash
          ∧ promotes pred.claimantUlid then [predStart]
      else []
  let fromRange := (m.inner.range startLba stop).filterMap fun (k, entry) =>
    if entry.hash = expectedHash ∧ promotes entry.claimantUlid then some k else none
  fromPred ++ fromRange

/-- Set the claimant of the entry at `k`, if there is one. -/
def setClaimantAt (newClaimant : Ulid) (m : LbaMap) (k : ℕ) : LbaMap :=
  match m.inner.get? k with
  | none => m
  | some entry => { m with inner := m.inner.insert k { entry with claimantUlid := newClaimant } }

/-- Restamp every entry `restampKeys` lists, and count them. -/
def restamp (startLba stop : ℕ) (expectedHash : Hash) (newClaimant : Ulid)
    (promotes : Ulid → Bool) : LbaMap × ℕ :=
  let keys := m.restampKeys startLba stop expectedHash promotes
  (keys.foldl (setClaimantAt newClaimant) m, keys.length)

/-- Promote the claimant of the entries in a range that hold `expectedHash` under a strictly
lower claimant. -/
def setClaimantIfMatches (startLba lbaLength : ℕ) (expectedHash : Hash)
    (newClaimant : Ulid) : LbaMap × ℕ :=
  m.restamp startLba (startLba + lbaLength) expectedHash newClaimant
    fun existing => decide (existing < newClaimant)

/-- `setClaimantIfMatches` that also promotes the claims of the consumed input. -/
def setClaimantConsumingInput (startLba lbaLength : ℕ) (expectedHash : Hash)
    (newClaimant consumedInput : Ulid) : LbaMap × ℕ :=
  m.restamp startLba (startLba + lbaLength) expectedHash newClaimant
    fun existing => decide (existing < newClaimant) || decide (existing = consumedInput)

/-! ## Reads -/

/-- The content hash at `lba`, the block offset into its payload and the claiming ULID. -/
def lookupWithClaimant (lba : ℕ) : Option (Hash × ℕ × Ulid) :=
  match m.inner.floor? lba with
  | none => none
  | some (start, e) =>
    if lba < start + e.lbaLength then
      some (e.hash, e.payloadBlockOffset + (lba - start), e.claimantUlid)
    else none

/-- The content hash at `lba` and the block offset into its payload. -/
def lookup (lba : ℕ) : Option (Hash × ℕ) :=
  match m.inner.floor? lba with
  | none => none
  | some (start, e) =>
    if lba < start + e.lbaLength then some (e.hash, e.payloadBlockOffset + (lba - start))
    else none

/-- An extent keyed at exactly `startLba` holds the whole payload of `hash`, in `lbaLength` blocks. -/
def hasFullMatch (startLba lbaLength : ℕ) (hash : Hash) : Bool :=
  (m.inner.get? startLba).any fun e =>
    e.lbaLength == lbaLength && e.payloadBlockOffset == 0 && e.hash == hash

/-- The extents that overlap `[startLba, endLba)`, clipped to it, in ascending order. -/
def extentsInRange (startLba endLba : ℕ) : List ExtentRead :=
  let predecessor :=
    match m.inner.pred? startLba with
    | none => []
    | some (key, e) =>
      let entryEnd := key + e.lbaLength
      if startLba < entryEnd then
        [⟨e.hash, startLba, min entryEnd endLba, e.payloadBlockOffset + (startLba - key),
          e.claimantUlid⟩]
      else []
  let inRange := (m.inner.range startLba endLba).map fun (key, e) =>
    (⟨e.hash, key, min (key + e.lbaLength) endLba, e.payloadBlockOffset, e.claimantUlid⟩ :
      ExtentRead)
  predecessor ++ inRange

/-- Whether nothing is claimed. -/
def isEmpty : Bool := m.inner.entries.isEmpty

/-- Every entry as `(start_lba, lba_length, hash, payload_block_offset, claimant)`. -/
def iterEntriesWithClaimant : List (ℕ × ℕ × Hash × ℕ × Ulid) :=
  m.inner.entries.map fun (lba, e) =>
    (lba, e.lbaLength, e.hash, e.payloadBlockOffset, e.claimantUlid)

/-- Whether any LBA claims `hash`. -/
def isReferenced (hash : Hash) : Bool := (m.claimCounts.lookup hash).isSome

/-- How many entries claim `target`. -/
def claimRefcount (target : Hash) : ℕ := (m.claimCounts.lookup target).getD 0

end LbaMap

end Elide
