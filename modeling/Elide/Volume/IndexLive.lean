import Elide.LbaMap.Rebuild
import Elide.MapLayers.Structural

/-!
# Which indexed segments are live

A seal does not sign all of `index/`: it leaves out the segments no entry of which is live. An entry
that refers to a body, or to zeroes, is live while some block of its range still shows what it put
there. An entry that has a body is judged by the body alone: somebody must want the hash, a claim on
any block or an encoding that names it as its source, and the location the extent index has for it
must be the entry's own. Whether the entry still holds a block does not count, in either direction.

`live_index_segments` computes this from reference counts and extents; `Maps.Taken` is what that
comes to, block by block.

## Main results

* `isSegmentLive_iff`: a segment is left out exactly if the maps have taken it whole.
-/

namespace Elide

open List

/-- Every hash some block claims. -/
def LbaMap.claimReferencedHashes (m : LbaMap) : List Hash := m.claimCounts.keys

/-- Whether an entry of an indexed segment is live. -/
def isIndexEntryLive (segUlid : Ulid) (entry : SegmentEntry) (extentIndex : ExtentIndex)
    (lbamap : LbaMap) (liveHashes : List Hash) : Bool :=
  let extents := lbamap.extentsInRange entry.startLba (entry.startLba + entry.lbaLength)
  match entry.kind with
  | .zero => extents.any fun r => decide (r.hash = ZERO_HASH)
  | .dedupRef | .delta => extents.any fun r => decide (r.hash = entry.hash)
  | .canonicalDelta =>
    liveHashes.contains entry.hash &&
      (extentIndex.lookupDelta entry.hash).any fun loc => decide (loc.segmentId = segUlid)
  | .data | .inline | .canonicalData | .canonicalInline =>
    if entry.journal then
      liveHashes.contains entry.hash &&
        (extentIndex.lookupJournal segUlid entry.hash).any fun loc =>
          decide (loc.bodyOffset = entry.storedOffset)
    else
      liveHashes.contains entry.hash &&
        (extentIndex.lookup entry.hash).any fun loc =>
          decide (loc.segmentId = segUlid) && decide (loc.bodyOffset = entry.storedOffset)

/-- Some entry of the segment is live: the test `live_index_segments` makes of each file. -/
def isSegmentLive (maps : Maps) (seg : SegmentFile) : Bool :=
  let liveHashes := maps.lbamap.claimReferencedHashes ++ maps.extentIndex.namedDeltaSources
  seg.entries.any fun e => isIndexEntryLive seg.ulid e maps.extentIndex maps.lbamap liveHashes

namespace Maps

variable (maps : Maps)

/-- Some block of the entry's range shows `hash`. -/
def Shows (entry : SegmentEntry) (hash : Hash) : Prop :=
  ∃ lba offset, entry.Covers lba ∧ maps.lbamap.lookup lba = some (hash, offset)

/-- A block shows `hash`, or an encoding names it as its source. -/
def Wants (hash : Hash) : Prop :=
  (∃ lba offset, maps.lbamap.lookup lba = some (hash, offset)) ∨
    hash ∈ maps.extentIndex.namedDeltaSources

/-- What the maps have left of an entry of segment `ulid`: a block that shows it, or a body that is
wanted and located there. -/
def Leaves (ulid : Ulid) (entry : SegmentEntry) : Prop :=
  match entry.kind with
  | .zero => maps.Shows entry ZERO_HASH
  | .dedupRef | .delta => maps.Shows entry entry.hash
  | .canonicalDelta => maps.Wants entry.hash ∧
      ∃ loc ∈ maps.extentIndex.lookupDelta entry.hash, loc.segmentId = ulid
  | .data | .inline | .canonicalData | .canonicalInline => maps.Wants entry.hash ∧
      if entry.journal then
        ∃ loc ∈ maps.extentIndex.lookupJournal ulid entry.hash, loc.bodyOffset = entry.storedOffset
      else
        ∃ loc ∈ maps.extentIndex.lookup entry.hash,
          loc.segmentId = ulid ∧ loc.bodyOffset = entry.storedOffset

/-- Nothing is left of the segment. -/
def Taken (seg : SegmentFile) : Prop := ∀ entry ∈ seg.entries, ¬ maps.Leaves seg.ulid entry

end Maps

variable {maps : Maps} (hm : maps.lbamap.Inv)
include hm

theorem any_extentsInRange_iff {entry : SegmentEntry} (hpos : 0 < entry.lbaLength) (hash : Hash) :
    ((maps.lbamap.extentsInRange entry.startLba (entry.startLba + entry.lbaLength)).any fun r =>
      decide (r.hash = hash)) = true ↔ maps.Shows entry hash := by
  have hreads := hm.wf.reads_extentsInRange (Nat.le_add_right entry.startLba entry.lbaLength)
  simp only [any_eq_true, decide_eq_true_eq]
  constructor
  · rintro ⟨r, hr, rfl⟩
    have hlt := hm.wf.lt_of_mem_extentsInRange (by omega) hr
    obtain ⟨hlo, -, hhi⟩ := hreads.inOrder.bounds r hr
    have hlook := hreads.eq_some_of_mem hr ⟨le_rfl, hlt⟩
    refine ⟨r.rangeStart, (r.valueAt r.rangeStart).2.1, ⟨hlo, hlt.trans_le hhi⟩, ?_⟩
    rw [LbaMap.lookup_eq_map, hlook]
    rfl
  · rintro ⟨lba, offset, hcov, hlook⟩
    rw [LbaMap.lookup_eq_map, Option.map_eq_some_iff] at hlook
    obtain ⟨v, hv, hvalue⟩ := hlook
    obtain ⟨r, hr, -, hval⟩ := hreads.exists_of_eq_some hcov.1 hcov.2 hv
    exact ⟨r, hr, (congrArg Prod.fst hval).trans (congrArg Prod.fst hvalue)⟩

theorem contains_liveHashes_iff {hash : Hash} :
    (maps.lbamap.claimReferencedHashes ++ maps.extentIndex.namedDeltaSources).contains hash = true ↔
      maps.Wants hash := by
  rw [contains_iff_mem, mem_append]
  exact or_congr_left (LbaMap.mem_claimHashes.trans (hm.isReferenced_iff hash))

theorem isIndexEntryLive_iff {entry : SegmentEntry} (hfits : LbaMap.EntryFits entry) (ulid : Ulid) :
    isIndexEntryLive ulid entry maps.extentIndex maps.lbamap
        (maps.lbamap.claimReferencedHashes ++ maps.extentIndex.namedDeltaSources) = true ↔
      maps.Leaves ulid entry := by
  have hwants := @contains_liveHashes_iff maps hm entry.hash
  have hpos : entry.kind.isCanonicalOnly = false → 0 < entry.lbaLength := fun hkind =>
    (hfits hkind).1
  rw [isIndexEntryLive, Maps.Leaves]
  cases hkind : entry.kind with
  | zero | dedupRef | delta =>
    exact any_extentsInRange_iff hm (hpos (by rw [hkind]; rfl)) _
  | canonicalDelta =>
    simp only [Bool.and_eq_true, hwants, Option.any_eq_true, decide_eq_true_eq]
    rfl
  | data | inline | canonicalData | canonicalInline =>
    cases entry.journal <;>
      simp only [if_true, Bool.false_eq_true, if_false, Bool.and_eq_true, hwants, Option.any_eq_true,
        decide_eq_true_eq] <;> rfl

/-- **A segment is left out exactly if the maps have taken it whole.** -/
theorem isSegmentLive_iff {seg : SegmentFile} (hfits : ∀ e ∈ seg.entries, LbaMap.EntryFits e) :
    isSegmentLive maps seg = true ↔ ¬ maps.Taken seg := by
  simp only [isSegmentLive, any_eq_true, Maps.Taken, not_forall, not_not, exists_prop]
  exact exists_congr fun e => and_congr_right fun he => isIndexEntryLive_iff hm (hfits e he) seg.ulid

end Elide
