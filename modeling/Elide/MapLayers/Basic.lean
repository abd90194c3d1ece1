import Elide.ExtentIndex.Basic
import Elide.LbaMap.Basic
import Mathlib.Algebra.GroupWithZero.Nat

/-!
# The volume's maps as layers

A large `base`, frozen layers that each hold one WAL epoch a promote is in the middle of
committing, and a small `delta` that holds the open WAL's writes. Reads resolve `delta`, then the
frozen layers newest first, then `base`.

Every function here is a translation of the function of the same name. Handles that share a map
are values here, so a clone is the map itself. The two `debug_assert!`s of the module, that no
upper layer holds Delta locations and that `base` did not move between a fold and its swap, change
nothing and are left out.
-/

namespace Elide

/-- One layer: an LBA map and the extent index that resolves its hashes. -/
structure Maps where
  lbamap : LbaMap
  extentIndex : ExtentIndex

namespace Maps

/-- Maps of nothing. -/
def empty : Maps := ⟨.new, .new⟩

/-- Whether the maps hold nothing at all. -/
def isEmpty (m : Maps) : Bool :=
  m.lbamap.isEmpty && m.extentIndex.isEmpty && m.extentIndex.journalIsEmpty

/-- Replay the entries of `layer` over `base`. -/
def fold (base layer : Maps) : Maps where
  lbamap := layer.lbamap.iterEntriesWithClaimant.foldl
    (fun m (lba, len, hash, payloadBlockOffset, claimant) =>
      m.insertWithOffset lba len payloadBlockOffset hash claimant) base.lbamap
  extentIndex :=
    let index := layer.extentIndex.inner.entries.foldl
      (fun x e => (x.insertIfAbsent e.1 e.2).1) base.extentIndex
    layer.extentIndex.journal.entries.foldl
      (fun x seg => seg.2.entries.foldl (fun x e => (x.insertJournalIfAbsent seg.1 e.1 e.2).1) x)
      index

end Maps

/-- One WAL epoch between its promote's freeze and swap. -/
structure FrozenLayer where
  walUlid : Ulid
  maps : Maps

/-- `base` under the frozen layers under `delta`. -/
structure MapLayers where
  base : Maps
  /-- Oldest first. -/
  frozen : List FrozenLayer
  delta : Maps

/-- The state of an overlay over one layer: the extents emitted and the cursor. -/
structure OverlayState where
  out : List ExtentRead
  cursor : ℕ

/-- Emit the extents of `[start, stop)` from the first layer, and fill each gap it leaves from the
layers under it. -/
def overlay : List LbaMap → ℕ → ℕ → List ExtentRead
  | [], _, _ => []
  | top :: rest, start, stop =>
    let s := (top.extentsInRange start stop).foldl (fun (s : OverlayState) extent =>
      let out :=
        if s.cursor < extent.rangeStart then s.out ++ overlay rest s.cursor extent.rangeStart
        else s.out
      ⟨out ++ [extent], extent.rangeEnd⟩) ⟨[], start⟩
    if s.cursor < stop then s.out ++ overlay rest s.cursor stop else s.out

namespace MapLayers

/-- Layers over `base`, with nothing open. -/
def new (base : Maps) : MapLayers := ⟨base, [], .empty⟩

variable (l : MapLayers)

/-- The layers above `base`, newest first. -/
def upper : List Maps := l.delta :: l.frozen.reverse.map FrozenLayer.maps

/-- Every layer, newest first. -/
def all : List Maps :=
  l.delta :: (l.frozen.reverse.map FrozenLayer.maps ++ [l.base])

/-- The extents that cover `[startLba, endLba)`, in LBA order, each taken from the topmost layer
that covers its sub-range. -/
def extentsInRange (startLba endLba : ℕ) : List ExtentRead :=
  overlay (l.all.map Maps.lbamap) startLba endLba

/-- `LbaMap.hasFullMatch` of the topmost layer that covers any part of the range. -/
def hasFullMatch (startLba lbaLength : ℕ) (hash : Hash) : Bool :=
  let covers (m : Maps) : Bool :=
    !(m.lbamap.extentsInRange startLba (startLba + lbaLength)).isEmpty
  ((l.upper.find? covers).getD l.base).lbamap.hasFullMatch startLba lbaLength hash

/-- The DATA location of `hash`, from the newest layer that holds one. -/
def lookupExtent (hash : Hash) : Option ExtentLocation :=
  l.all.findSome? fun m => m.extentIndex.lookup hash

/-- Where the journal body of a hash is in a segment, by any layer. -/
def lookupJournal (segment : Ulid) (hash : Hash) : Option ExtentLocation :=
  l.all.findSome? fun m => m.extentIndex.lookupJournal segment hash

/-- The delta of a hash, by the newest layer that has one. -/
def lookupDelta (hash : Hash) : Option DeltaLocation :=
  l.all.findSome? fun m => m.extentIndex.lookupDelta hash

/-- Close the open WAL's epoch: `delta` becomes a frozen layer tagged `walUlid`. -/
def freeze (walUlid : Ulid) : MapLayers :=
  if l.delta.isEmpty then l
  else { l with frozen := l.frozen ++ [⟨walUlid, l.delta⟩], delta := .empty }

/-- A freeze adds at most one layer, tagged with its WAL. -/
theorem frozen_freeze (wal : Ulid) :
    (l.freeze wal).frozen = l.frozen ∨ (l.freeze wal).frozen = l.frozen ++ [⟨wal, l.delta⟩] := by
  rw [freeze]
  split_ifs
  · exact .inl rfl
  · exact .inr rfl

theorem forall_mem_freeze {wal : Ulid} {P : FrozenLayer → Prop} (h : ∀ f ∈ l.frozen, P f)
    (hnew : P ⟨wal, l.delta⟩) : ∀ f ∈ (l.freeze wal).frozen, P f := by
  rcases l.frozen_freeze wal with heq | heq
  · exact heq ▸ h
  · rw [heq]
    exact List.forall_mem_append.mpr ⟨h, List.forall_mem_singleton.mpr hnew⟩

/-- Fold every frozen layer, oldest first, then `delta`, into `base`, and leave both empty. -/
def absorb : MapLayers :=
  let base := l.frozen.foldl (fun base layer => base.fold layer.maps) l.base
  if l.delta.isEmpty then { base, frozen := [], delta := l.delta }
  else { base := base.fold l.delta, frozen := [], delta := .empty }

/-- One map with every layer folded in. -/
def materialised : Maps :=
  if l.frozen.isEmpty && l.delta.isEmpty then l.base
  else
    let maps := l.frozen.foldl (fun maps layer => maps.fold layer.maps) l.base
    if l.delta.isEmpty then maps else maps.fold l.delta

/-- A promote's fold: `base` with the layer tagged `walUlid` replayed into it, then `apply`. -/
def foldPromote {ε : Type*} (l : MapLayers) (walUlid : Ulid) (apply : Maps → Except ε Maps) :
    Except ε Maps :=
  match l.frozen.find? fun layer => decide (layer.walUlid = walUlid) with
  | some layer => apply (l.base.fold layer.maps)
  | none => apply l.base

/-- Install a promote's fold as `base` and retire its frozen layer. -/
def swapPromote (newBase : Maps) (walUlid : Ulid) : MapLayers :=
  { l with base := newBase, frozen := l.frozen.filter fun layer => decide (layer.walUlid ≠ walUlid) }

/-- A write into `delta`'s LBA map. -/
def deltaInsert (startLba lbaLength : ℕ) (hash : Hash) (claimant : Ulid) : MapLayers :=
  { l with delta := { l.delta with lbamap := l.delta.lbamap.insert startLba lbaLength hash claimant } }

end MapLayers

end Elide
