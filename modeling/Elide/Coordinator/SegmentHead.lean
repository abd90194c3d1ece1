import Elide.Lib.OrdMap
import Elide.Segment
import Mathlib.Data.Finset.Basic

/-!
# HEAD, the delta over the latest manifest

The coordinator keeps one small object per volume next to the signed snapshot manifests. It lists the
segments uploaded since the anchor manifest, the segments a compaction output has taken the place of,
and those whose objects have been deleted. A reader takes the manifest, adds what HEAD adds and
leaves out what it supersedes or tombstones (`liveSet`).
-/

namespace Elide

open List

/-- A supersession edge: the output that took the input's place, and when that was recorded. -/
structure Supersession where
  output : Ulid
  since : ℕ
  deriving DecidableEq, Repr

/-- The post-snapshot delta. -/
structure SegmentHead where
  /-- The manifest this is a delta over. -/
  anchor : Option Ulid
  /-- Segments uploaded or produced since the anchor. -/
  added : Finset Ulid
  /-- Edges, by input. -/
  superseded : OrdMap Ulid Supersession
  /-- Segments the reaper has deleted. -/
  tombstoned : Finset Ulid

namespace SegmentHead

/-- The delta with no entries, anchored at `anchor`. -/
def empty (anchor : Option Ulid) : SegmentHead := ⟨anchor, ∅, .empty, ∅⟩

variable (head : SegmentHead)

/-- No entries in any section. -/
def isEmpty : Bool :=
  decide (head.added = ∅) && head.superseded.entries.isEmpty && decide (head.tombstoned = ∅)

/-- Record that the object of `u` is gone. -/
def reapOne (u : Ulid) : SegmentHead :=
  { head with
    added := head.added.erase u
    superseded := head.superseded.erase u
    tombstoned := insert u head.tombstoned }

/-- Record a reap: the inputs leave `added` and `superseded` and are tombstoned. -/
def applyReap (reaped : List Ulid) : SegmentHead := reaped.foldl reapOne head

/-- What the manifest and the delta together call live. -/
def liveSet (manifestSegments : Finset Ulid) (head : SegmentHead) : Finset Ulid :=
  (manifestSegments ∪ head.added).filter fun u =>
    (head.superseded.get? u).isNone && decide (u ∉ head.tombstoned)

theorem mem_liveSet {manifestSegments : Finset Ulid} {head : SegmentHead} {u : Ulid} :
    u ∈ liveSet manifestSegments head ↔
      (u ∈ manifestSegments ∨ u ∈ head.added) ∧ head.superseded.get? u = none ∧
        u ∉ head.tombstoned := by
  simp [liveSet]

section applyReap

variable (head : SegmentHead) (reaped : List Ulid)

@[simp]
theorem anchor_applyReap : (head.applyReap reaped).anchor = head.anchor := by
  induction reaped generalizing head with
  | nil => rfl
  | cons u reaped ih => exact ih _

theorem mem_added_applyReap {u : Ulid} :
    u ∈ (head.applyReap reaped).added ↔ u ∈ head.added ∧ u ∉ reaped := by
  induction reaped generalizing head with
  | nil => simp [applyReap]
  | cons v reaped ih =>
    rw [applyReap, foldl_cons, ← applyReap, ih]
    simp only [reapOne, Finset.mem_erase, mem_cons]
    tauto

theorem superseded_applyReap (u : Ulid) : (head.applyReap reaped).superseded.get? u =
    if u ∈ reaped then none else head.superseded.get? u := by
  induction reaped generalizing head with
  | nil => simp [applyReap]
  | cons v reaped ih =>
    rw [applyReap, foldl_cons, ← applyReap, ih]
    simp only [reapOne, OrdMap.get?_erase]
    split_ifs <;> simp_all

theorem mem_tombstoned_applyReap {u : Ulid} :
    u ∈ (head.applyReap reaped).tombstoned ↔ u ∈ head.tombstoned ∨ u ∈ reaped := by
  induction reaped generalizing head with
  | nil => simp [applyReap]
  | cons v reaped ih =>
    rw [applyReap, foldl_cons, ← applyReap, ih]
    simp only [reapOne, Finset.mem_insert, mem_cons]
    tauto

end applyReap

end SegmentHead

end Elide
