import Mathlib.Data.Finset.Basic

/-!
# Segment index entries

The index record of a segment and the words every other module uses: content hashes, ULIDs and
the entry kinds. Only the fields some modelled function reads are here; the resemblance sketch
and the stored-bytes tag of an entry are carried by code outside the model.

ULIDs are compared and never taken apart, so a natural number stands for one. LBAs, lengths and
byte offsets are natural numbers too: the statements about them assume, as the code's callers
do, that no `u64` or `u32` sum overflows.
-/

namespace Elide

/-- A BLAKE3 content hash: 32 bytes. -/
abbrev Hash := BitVec 256

/-- A ULID, which orders segments and WAL files by mint time. -/
abbrev Ulid := ℕ

/-- The all-zero hash, the sentinel an explicit zero extent is claimed under. -/
def ZERO_HASH : Hash := 0

/-- A truncated BLAKE3 over stored bytes: 16 bytes. -/
abbrev StoredHash := BitVec 128

/-- Codec of a stored payload. -/
inductive Codec where
  | none
  | lz4
  | zstd
  | zstdChunked
  deriving DecidableEq, Repr

/-- What a segment index entry stands for. -/
inductive EntryKind where
  | data
  | dedupRef
  | zero
  | inline
  | delta
  | canonicalData
  | canonicalInline
  | canonicalDelta
  deriving DecidableEq, Repr

namespace EntryKind

/-- Entries that carry no LBA claim on rebuild. -/
def isCanonicalOnly : EntryKind → Bool
  | canonicalData | canonicalInline | canonicalDelta => true
  | _ => false

/-- Entries whose body bytes live in the body section. -/
def isData : EntryKind → Bool
  | data | canonicalData => true
  | _ => false

/-- Entries whose body bytes live in the inline section. -/
def isInline : EntryKind → Bool
  | inline | canonicalInline => true
  | _ => false

/-- Entries that carry options addressing blobs in the delta body section. -/
def isDelta : EntryKind → Bool
  | delta | canonicalDelta => true
  | _ => false

/-- Entries that carry body bytes, in either section. -/
def hasBodyBytes : EntryKind → Bool
  | data | inline | canonicalData | canonicalInline => true
  | _ => false

/-- Entries whose hash the extent-index rebuild registers as owned by their segment. -/
def ownsExtentHash : EntryKind → Bool
  | data | inline | canonicalData | canonicalInline | delta | canonicalDelta => true
  | _ => false

variable {k : EntryKind}

theorem isDelta_of_hasBodyBytes (h : k.hasBodyBytes = true) : k.isDelta = false := by
  revert h
  cases k <;> decide

theorem hasBodyBytes_of_isDelta (h : k.isDelta = true) : k.hasBodyBytes = false := by
  revert h
  cases k <;> decide

theorem ownsExtentHash_of_hasBodyBytes (h : k.hasBodyBytes = true) : k.ownsExtentHash = true := by
  revert h
  cases k <;> decide

theorem ownsExtentHash_of_isDelta (h : k.isDelta = true) : k.ownsExtentHash = true := by
  revert h
  cases k <;> decide

end EntryKind

/-- One way to rebuild an extent: a delta blob and the hash of the body it is applied to. -/
structure DeltaOption where
  sourceHash : Hash
  deltaOffset : ℕ
  deltaLength : ℕ
  deltaHash : StoredHash
  deriving DecidableEq, Repr

/-- One entry of a segment's index section. -/
structure SegmentEntry where
  hash : Hash
  startLba : ℕ
  lbaLength : ℕ
  codec : Codec := .none
  kind : EntryKind
  storedOffset : ℕ := 0
  storedLength : ℕ := 0
  /-- Inline-section bytes of the inline kinds. -/
  inline : Option (List UInt8) := none
  deltaOptions : List DeltaOption := []
  /-- Journal-tier entry: routed to the extent index's per-segment journal map. -/
  journal : Bool := false
  deriving DecidableEq, Repr

/-- Payloads stored in fewer bytes than this live in the inline section. -/
def INLINE_THRESHOLD : ℕ := 256

/-- Whether a payload of this stored length goes to the inline section. -/
def wouldBeInline (storedLength : ℕ) : Bool := decide (storedLength < INLINE_THRESHOLD)

namespace SegmentEntry

/-- A DATA or INLINE entry whose bytes are still in the WAL. -/
def newDataNoBody (hash : Hash) (startLba lbaLength : ℕ) (codec : Codec) (storedLength : ℕ) :
    SegmentEntry where
  hash := hash
  startLba := startLba
  lbaLength := lbaLength
  codec := codec
  kind := if wouldBeInline storedLength then .inline else .data
  storedLength := storedLength

/-- A DEDUP_REF entry: no body bytes, resolved through the extent index. -/
def newDedupRef (hash : Hash) (startLba lbaLength : ℕ) : SegmentEntry where
  hash := hash
  startLba := startLba
  lbaLength := lbaLength
  kind := .dedupRef

/-- A ZERO entry: the range reads as zeros. -/
def newZero (startLba lbaLength : ℕ) : SegmentEntry where
  hash := ZERO_HASH
  startLba := startLba
  lbaLength := lbaLength
  kind := .zero

/-- The entry covers `lba`. -/
def Covers (e : SegmentEntry) (lba : ℕ) : Prop :=
  e.startLba ≤ lba ∧ lba < e.startLba + e.lbaLength

instance (e : SegmentEntry) (lba : ℕ) : Decidable (e.Covers lba) :=
  inferInstanceAs (Decidable (_ ∧ _))

end SegmentEntry

/-! ## Guest writes -/

/-- A guest write or zero. -/
structure GuestWrite where
  startLba : ℕ
  lbaLength : ℕ
  hash : Hash
  deriving DecidableEq

/-- The last write that covers `x`, in a history kept newest first: its hash, and how far into its
payload `x` lies. -/
def lastWrite (history : List GuestWrite) (x : ℕ) : Option (Hash × ℕ) :=
  (history.find? fun w => decide (w.startLba ≤ x ∧ x < w.startLba + w.lbaLength)).map fun w =>
    (w.hash, x - w.startLba)

/-- A history in two parts, the newer first. -/
theorem lastWrite_append (newer older : List GuestWrite) (x : ℕ) :
    lastWrite (newer ++ older) x = (lastWrite newer x).or (lastWrite older x) := by
  rw [lastWrite, List.find?_append, Option.map_or]
  rfl

end Elide
