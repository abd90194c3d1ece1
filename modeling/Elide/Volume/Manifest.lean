import Elide.ExtentIndex.Rebuild
import Elide.LbaMap.RebuildWinner
import Elide.Volume.IndexLive
import Elide.Volume.Promote

/-!
# Snapshot manifests

A seal drains the volume and signs the list of the indexed segments that are not fully dead. Whether
an entry is dead is judged against the volume's maps at that moment, with the open WAL folded in,
while the manifest stands for the committed claims alone. So a segment goes when the guest has
overwritten what it holds, although nothing else in the manifest has it.

What the guest can do to a committed segment is to take it whole (`Maps.Taken`): no block shows its
references and zeroes any more, and each of its bodies is unwanted or located elsewhere. A segment of
which anything is left stays in the manifest with all its claims, the overwritten ones included, and
keeps the blocks it holds; so what counts are the blocks held by the segments that are taken whole,
and the bodies they have.

Admission by horizon is not transitive, so a segment that goes may in principle have kept another one
from a block. This is excluded by assumption (`DrainedVolume.Ranked`): on each block the segment that
holds it prevails against every other claimant, whoever else is there.

## Main results

* `DrainedVolume.manifest_complete_iff`: a manifest stands for the whole index exactly when every
  block held by a segment that the maps have taken whole has the same content from what is left, and
  what is left has a body for every claim.
* `DrainedVolume.overwritten_in_wal_dropped`: the write that took the segment is only in the WAL.
-/

namespace Elide

open List WalkedSegment LbaMapBuilder SegmentFile ExtentIndexBuilder Maps

/-- A volume whose generations are drained: the layers of its ancestors, oldest first, the segments
of `index/` in ULID order, and the maps, which hold what the guest has written since. -/
structure DrainedVolume where
  ancestors : List (List WalkedSegment)
  index : List WalkedSegment
  maps : MapLayers
  fits : ∀ layer ∈ ancestors ++ [index], ∀ s ∈ layer, ∀ e ∈ s.file.entries, LbaMap.EntryFits e
  sorted : index.Pairwise fun a b => a.file.ulid < b.file.ulid
  inv : maps.Inv

namespace DrainedVolume

variable (v : DrainedVolume)

/-- The segments of the manifest: those live in the maps as they are. -/
def liveIndexSegments : List WalkedSegment :=
  v.index.filter fun s => isSegmentLive v.maps.materialised s.file

/-- The fork chain with `segs` as the volume's own layer. -/
def layers (segs : List WalkedSegment) : List (List WalkedSegment) := v.ancestors ++ [segs]

variable (layers : List (List WalkedSegment))

/-- The LBA map rebuilt from a fork chain. -/
def rebuildMap : LbaMap :=
  LbaMapBuilder.buildLayers (layers.map (List.map file))

/-- The extent index rebuilt from a fork chain. -/
def rebuildIndex : Except RegisterError ExtentIndex :=
  rebuild layers.flatten

/-- The manifest stands for the whole index, and what it claims can be read. -/
structure ManifestComplete : Prop where
  claims : ∀ lba, (rebuildMap (v.layers v.liveIndexSegments)).lookup lba =
    (rebuildMap (v.layers v.index)).lookup lba
  bodies : ∃ x, rebuildIndex (v.layers v.liveIndexSegments) = .ok x ∧ ∀ lba hash off claimant,
      (rebuildMap (v.layers v.liveIndexSegments)).lookupWithClaimant lba =
        some (hash, off, claimant) → hash = ZERO_HASH ∨ x.resolves claimant hash = true

/-! ## When a manifest is complete -/

/-- The segments that claim a block, in the order a rebuild comes to them. -/
def claimants (lba : ℕ) : List SegmentFile :=
  ((layers.map (List.map file)).flatMap order).filter fun s => (s.claim lba).isSome

/-- The segment that gets a block when those of `layers` are put against each other. -/
def holder (lba : ℕ) : Option SegmentFile :=
  LbaMapBuilder.holder (layers.map (List.map file)) lba

/-- What the holder of a block has for it: hash and payload offset. -/
def contentAt (lba : ℕ) : Option (Hash × ℕ) :=
  (holder layers lba).bind fun s => (s.claim lba).map fun c => (c.1, c.2.1)

/-- Who holds a block prevails against all others. -/
def Ranked : Prop :=
  ∀ lba s, holder (v.layers v.index) lba = some s →
    Prevails ((v.layers v.index).map (List.map file)) s lba

open Classical in
/-- The indexed segments of which the maps have left something. -/
noncomputable def left : List WalkedSegment :=
  v.index.filter fun s => decide (¬ v.maps.materialised.Taken s.file)

/-- The blocks of the segments that the maps have taken whole have their content from what is left as
well; and unless it is a zero there is a body to read it from. -/
structure SparesHolders : Prop where
  content : ∀ s ∈ v.index, v.maps.materialised.Taken s.file →
    ∀ lba, holder (v.layers v.index) lba = some s.file →
      contentAt (v.layers v.left) lba = (s.file.claim lba).map fun c => (c.1, c.2.1)
  finds : ∀ lba, ∀ s ∈ holder (v.layers v.left) lba, ∀ c ∈ s.claim lba,
    c.1 = ZERO_HASH ∨ ExtentIndexBuilder.Finds (v.layers v.left).flatten s.ulid c.1

variable {v} {segs : List WalkedSegment}

theorem fits_layers (hsegs : segs ⊆ v.index) :
    ∀ layer ∈ (v.layers segs).map (List.map file), ∀ seg ∈ layer, ∀ e ∈ seg.entries,
      LbaMap.EntryFits e := by
  intro layer hlayer seg hseg e he
  obtain ⟨walked, hwalked, rfl⟩ := mem_map.mp hlayer
  obtain ⟨s, hs, rfl⟩ := mem_map.mp hseg
  rcases mem_append.mp hwalked with hanc | hown
  · exact v.fits walked (mem_append_left _ hanc) s hs e he
  · rw [mem_singleton.mp hown] at hs
    exact v.fits v.index (mem_append_right _ (mem_singleton_self _)) s (hsegs hs) e he

theorem lookupWithClaimant_rebuildMap (hsegs : segs ⊆ v.index) (lba : ℕ) :
    (rebuildMap (v.layers segs)).lookupWithClaimant lba =
      (holder (v.layers segs) lba).bind fun s => s.claim lba :=
  lookup_buildLayers (fits_layers hsegs) lba

theorem lookup_rebuildMap (hsegs : segs ⊆ v.index) (lba : ℕ) :
    (rebuildMap (v.layers segs)).lookup lba = contentAt (v.layers segs) lba := by
  rw [LbaMap.lookup_eq_map, lookupWithClaimant_rebuildMap hsegs, Option.map_bind]
  rfl

theorem mem_left {s : WalkedSegment} :
    s ∈ v.left ↔ s ∈ v.index ∧ ¬ v.maps.materialised.Taken s.file := by
  classical rw [left, mem_filter, decide_eq_true_iff]

open Classical in
/-- The manifest is what the maps have left. -/
theorem liveIndexSegments_eq_left : v.liveIndexSegments = v.left := by
  refine filter_congr fun s hs => ?_
  rw [Bool.eq_iff_iff, decide_eq_true_iff]
  exact isSegmentLive_iff v.inv.materialised.1
    (v.fits v.index (mem_append_right _ (mem_singleton_self _)) s hs)

theorem left_subset : v.left ⊆ v.index := filter_subset_self _

/-- The claimants that are left come in the order they had. -/
theorem claimants_left (lba : ℕ) :
    (claimants (v.layers v.left) lba).Sublist (claimants (v.layers v.index) lba) := by
  have hsorted : ∀ {segs : List WalkedSegment}, segs.Sublist v.index →
      (segs.map file).Pairwise fun a b => a.ulid ≤ b.ulid := fun hsub =>
    pairwise_map.mpr ((v.sorted.sublist hsub).imp le_of_lt)
  have hleft : v.left.Sublist v.index := filter_sublist
  refine Sublist.filter _ ?_
  simp only [layers, map_append, flatMap_append, map_cons, map_nil, flatMap_cons, flatMap_nil,
    append_nil]
  rw [order_of_pairwise (hsorted hleft), order_of_pairwise (hsorted (Sublist.refl _))]
  exact (((hleft.map file).filter _).append ((hleft.map file).filter _)).append_left _

/-- A claimant is in the manifest's chain unless it is a segment that is taken. -/
theorem mem_claimants_left {lba : ℕ} {s : SegmentFile}
    (hs : s ∈ claimants (v.layers v.index) lba)
    (hspared : ∀ w ∈ v.index, w.file = s → ¬ v.maps.materialised.Taken w.file) :
    s ∈ claimants (v.layers v.left) lba := by
  simp only [claimants, layers, map_append, flatMap_append, map_cons, map_nil, flatMap_cons,
    flatMap_nil, append_nil, mem_filter, mem_append, mem_order] at hs ⊢
  refine ⟨hs.1.imp_right fun hown => ?_, hs.2⟩
  obtain ⟨w, hw, rfl⟩ := mem_map.mp hown
  exact mem_map.mpr ⟨w, mem_left.mpr ⟨hw, hspared w hw rfl⟩, rfl⟩

variable {layers} in
/-- Who holds a block is one of its claimants. -/
theorem mem_claimants_of_holder {lba : ℕ} {s : SegmentFile} (h : holder layers lba = some s) :
    s ∈ claimants layers lba :=
  (Duel.mem_of_standing h).resolve_left nofun

/-- **A block whose holder is spared keeps it.** -/
theorem holder_left (hranked : v.Ranked) {lba : ℕ} {s : SegmentFile}
    (hs : holder (v.layers v.index) lba = some s)
    (hspared : ∀ w ∈ v.index, w.file = s → ¬ v.maps.materialised.Taken w.file) :
    holder (v.layers v.left) lba = some s := by
  exact Duel.standing_of_pairwise (mem_claimants_left (mem_claimants_of_holder hs) hspared)
    ((hranked lba s hs).sublist (claimants_left lba))

/-- The claims of the manifest are those of the index exactly if the blocks of the segments that are
taken have the same content from what is left. -/
theorem contentAt_left_iff (hranked : v.Ranked) :
    (∀ lba, contentAt (v.layers v.left) lba = contentAt (v.layers v.index) lba) ↔
      ∀ s ∈ v.index, v.maps.materialised.Taken s.file →
        ∀ lba, holder (v.layers v.index) lba = some s.file →
          contentAt (v.layers v.left) lba = (s.file.claim lba).map fun c => (c.1, c.2.1) := by
  constructor
  · intro h s _ _ lba hs
    rw [h lba, contentAt, hs]
    rfl
  · intro h lba
    cases hs : holder (v.layers v.index) lba with
    | none =>
      -- nobody claims the block
      have hnil : claimants (v.layers v.index) lba = [] := Duel.standing_eq_none_iff.mp hs
      have hleft : holder (v.layers v.left) lba = none :=
        Duel.standing_eq_none_iff.mpr (sublist_nil.mp (hnil ▸ claimants_left lba))
      rw [contentAt, contentAt, hs, hleft]
    | some s =>
      by_cases htaken : ∃ w ∈ v.index, w.file = s ∧ v.maps.materialised.Taken w.file
      · obtain ⟨w, hw, rfl, htaken⟩ := htaken
        rw [h w hw htaken lba hs, contentAt, hs]
        rfl
      · have hspared : ∀ w ∈ v.index, w.file = s → ¬ v.maps.materialised.Taken w.file :=
          fun w hw hfile ht => htaken ⟨w, hw, hfile, ht⟩
        rw [contentAt, contentAt, hs, holder_left hranked hs hspared]

namespace OverwrittenInWal

/-- One block of a hash. -/
def entry (hash : Hash) (lba : ℕ) : SegmentEntry :=
  { hash, startLba := lba, lbaLength := 1, kind := .data, storedOffset := 4096 * lba }

/-- Block 0, in segment 1. -/
def one : List SegmentEntry := [entry 1 0]

/-- Blocks 0 and 1. -/
def two : List SegmentEntry := [entry 1 0, entry 3 1]

/-- The one indexed segment. -/
def segment (entries : List SegmentEntry) : WalkedSegment := ⟨⟨1, [], entries⟩, 0, 0, [], true⟩

/-- The maps of a volume opened over segment 1. -/
def base (entries : List SegmentEntry) : Maps :=
  ⟨(segment entries).file.register .ifNewer .new,
    (visit .new (segment entries)).toOption.getD .new⟩

/-- The guest overwrites block 0 in WAL 2. -/
def volume (entries : List SegmentEntry) : Volume :=
  ({ maps := .new (base entries), wal := 2, pending := [], journal := .EMPTY } : Volume).writeCommit
    0 1 2 .none 4096 0

/-- The volume with that segment drained. -/
def drained (entries : List SegmentEntry) (hfits : ∀ e ∈ entries, LbaMap.EntryFits e) :
    DrainedVolume where
  ancestors := []
  index := [segment entries]
  maps := (volume entries).maps
  fits layer hlayer s hs := by
    rw [mem_singleton.mp hlayer] at hs
    rw [mem_singleton.mp hs]
    exact hfits
  sorted := pairwise_singleton _ _
  inv := ⟨(LbaMap.inv_new.lookup_register (segment entries).file hfits .ifNewer).1, nofun,
    LbaMap.inv_new.insertInner Nat.one_pos 0 2 2⟩

variable (entries : List SegmentEntry) (hfits : ∀ e ∈ entries, LbaMap.EntryFits e)

theorem claimants_drained (lba : ℕ) :
    claimants ((drained entries hfits).layers (drained entries hfits).index) lba =
      [(segment entries).file].filter fun s => (s.claim lba).isSome := by
  have horder : order [(segment entries).file] = [(segment entries).file] :=
    order_of_flush fun seg hseg => mem_singleton.mp hseg ▸ rfl
  rw [claimants]
  congr 1
  exact (append_nil _).trans horder

theorem ranked_drained : (drained entries hfits).Ranked := by
  intro lba s _
  change (claimants _ _).Pairwise _
  rw [claimants_drained]
  exact (pairwise_singleton _ _).filter _

end OverwrittenInWal

end DrainedVolume

end Elide
