import Elide.Coordinator.SegmentHead
import Elide.Provenance.Basic

/-!
# What a forced claim takes over

A forced claim builds a fork out of what the bucket has of another fork, its source. It pins the new
fork to the source's last user snapshot, the basis, and copies what is live in the source beyond the
basis. Everything it decides is a function of the source's objects, and of the record's hint of the
basis for the provenance that is written before they may be read.
-/

namespace Elide

/-- The objects of a fork that a forced claim reads. -/
structure ForkObjects where
  pubkey : Vector UInt8 32
  provenance : ProvenanceLineage
  /-- `snapshots/LATEST`. -/
  latest : Option Ulid
  /-- The segments listed by the user manifests. -/
  manifests : OrdMap Ulid (Finset Ulid)
  /-- The segments listed by the stop manifests. -/
  stopManifests : OrdMap Ulid (Finset Ulid)
  /-- HEAD, if it is there and can be parsed. -/
  head : Option SegmentHead

namespace ForkObjects

variable (o : ForkObjects)

/-- The newest snapshot of either kind. -/
def newestSeal : Option Ulid :=
  ((o.manifests.entries ++ o.stopManifests.entries).map Prod.fst).max?

/-- The manifest of a snapshot, of the user kind if there are both. -/
def fetchManifestAnyKind (snap : Ulid) : Option (Finset Ulid) :=
  (o.manifests.get? snap).or (o.stopManifests.get? snap)

/-- The segments of the basis. A manifest that is not found counts as empty. -/
def manifestSegments : Finset Ulid :=
  (o.latest.bind fun snap => o.manifests.get? snap).getD ∅

/-- HEAD, or an empty one at the newest snapshot if it is damaged. -/
def sourceHead : SegmentHead := o.head.getD (.empty o.newestSeal)

/-- The segments of the newest snapshot, where HEAD's anchor is beyond the basis. -/
def frontierSegments : Finset Ulid :=
  match o.sourceHead.anchor with
  | some anchor =>
    if o.latest.all fun basis => decide (basis < anchor) then
      (o.fetchManifestAnyKind anchor).getD o.manifestSegments
    else o.manifestSegments
  | none => o.manifestSegments

/-- The segments to copy. -/
def headDelta : Finset Ulid :=
  (SegmentHead.liveSet o.frontierSegments o.sourceHead).filter fun u => decide (u ∉ o.manifestSegments)

/-- The HEAD of the new fork, which is written before the copies if there are any. -/
def intent : SegmentHead := { SegmentHead.empty o.latest with added := o.headDelta }

/-- The provenance of the new fork before the source's snapshots may be read. Without a hint the new
fork takes over the source's parent. -/
def provisional (source : Ulid) (hint : Option Ulid) : ProvenanceLineage :=
  match hint with
  | some basis => .fork ⟨source, basis, o.pubkey⟩ []
  | none => .fromParts o.provenance.parent o.provenance.extentIndex [source]

variable (lineage : ProvenanceLineage)

/-- Drop the recovery grant, if there is one. -/
def withoutGrant : ProvenanceLineage :=
  if lineage.recoverySources.isEmpty then lineage else lineage.clearedRecovery

/-- The provenance of the finished fork, from the one on disk. -/
def finalLineage (source : Ulid) (lineage : ProvenanceLineage) : ProvenanceLineage :=
  match o.latest with
  | some basis =>
    if (lineage.parent.filter fun p => decide (p.volumeUlid = source)).map ParentRef.snapshotUlid =
        some basis then withoutGrant lineage
    else .fork ⟨source, basis, o.pubkey⟩ []
  | none => withoutGrant lineage

theorem recoverySources_withoutGrant : (withoutGrant lineage).recoverySources.isEmpty = true := by
  rw [withoutGrant]
  split_ifs with h
  · exact h
  · cases lineage with
    | recovering parent extents sources => cases parent <;> rfl
    | _ => rfl

theorem parent_withoutGrant : (withoutGrant lineage).parent = lineage.parent := by
  rw [withoutGrant]
  split_ifs
  · rfl
  · cases lineage with
    | recovering parent extents sources => cases parent <;> rfl
    | _ => rfl

theorem withoutGrant_withoutGrant : withoutGrant (withoutGrant lineage) = withoutGrant lineage := by
  rw [withoutGrant, if_pos (recoverySources_withoutGrant lineage)]

/-- To finish a finished fork again changes nothing. -/
theorem finalLineage_finalLineage (source : Ulid) (lineage : ProvenanceLineage) :
    o.finalLineage source (o.finalLineage source lineage) = o.finalLineage source lineage := by
  cases hlatest : o.latest with
  | none =>
    simp only [finalLineage, hlatest]
    exact withoutGrant_withoutGrant lineage
  | some basis =>
    simp only [finalLineage, hlatest]
    by_cases hpin : (lineage.parent.filter fun p => decide (p.volumeUlid = source)).map
        ParentRef.snapshotUlid = some basis
    · rw [if_pos hpin, parent_withoutGrant, if_pos hpin, withoutGrant_withoutGrant]
    · rw [if_neg hpin, if_pos (by simp [ProvenanceLineage.parent])]
      rfl

end ForkObjects

end Elide
