import Elide.Rewrite.Materialise
import Elide.Lib.Run
import Mathlib.Data.Finset.Basic

/-!
# Reads of files that move

A reader loads the published snapshot and needs, one after another, parts of segment files. For each
it takes a cached descriptor or walks the places where the file may be, opens what it finds and reads
at the offset that the found layout implies. When a file is not found it reads again under the
snapshot that is published then, at most twice and only if that one is newer.

Files move meanwhile. What retires a segment publishes the snapshot that does without it before it
unlinks, so a reader that misses a retired segment finds a newer snapshot. A rotation is different:
it renames the open generation to the upload generation, which the walk has probed before, and
publishes afterwards. And a Delta entry whose blob is in a full segment keeps that address when the
walk ends at `cache/<id>.body`, which has no delta section.

## Scope

One read of one request. Files of ancestors do not move and are left out. A cached body has its
presence bit, so nothing is fetched, and materialised deltas are not reused. What a read takes from a
file is right because a segment's bytes never change; the content check is in `Elide.Cache.Content`.
Other readers share the descriptor cache and may put descriptors into it or displace them.

## Main definitions

* `ReadScene`, `ReadScene.step` — the fork, its snapshots and the read
* `ReadScene.Right` — a read that has ended has the bytes of a snapshot published during it
* `ReadScene.InTime` — what is asked of the steps
-/

namespace Elide

open Function

/-! ### Files -/

/-- The directories of a fork in which parts of a segment are found. -/
inductive FilePlace where
  | wal
  | upload
  | openGen
  | gc
  | cacheBody
  | cacheDelta
  deriving DecidableEq, Repr

/-- Where the body section starts and how long the sections are. A WAL file is all body. -/
structure SegmentShape where
  bodySectionStart : ℕ
  bodyLength : ℕ
  deltaLength : ℕ

/-- Length of the file that has the body. -/
def SegmentShape.fileLength (shape : SegmentShape) : SegmentBodyLayout → ℕ
  | .fullSegment => shape.bodySectionStart + shape.bodyLength + shape.deltaLength
  | .bodyOnly => shape.bodyLength

/-- `.body` for `cache/<id>.body`, full for everything else. -/
def FilePlace.layout : FilePlace → SegmentBodyLayout
  | .cacheBody => .bodyOnly
  | _ => .fullSegment

/-- What a read needs of a file: an extent body, or the blob of a Delta entry. -/
inductive Access where
  | body (segmentId : Ulid) (source : BodySource) (offset length : ℕ)
  | deltaFull (segmentId : Ulid) (offset length : ℕ)
  | deltaCached (segmentId : Ulid) (offset length : ℕ)
  deriving DecidableEq

namespace Access

/-- The segment an access opens. -/
def segmentId : Access → Ulid
  | body segmentId _ _ _ | deltaFull segmentId _ _ | deltaCached segmentId _ _ => segmentId

/-- The order in which `locate_segment_body` probes. -/
def lifecycle : List FilePlace := [.wal, .upload, .openGen, .gc, .cacheBody]

/-- The places an access probes: a cached body is looked for in the cache first. -/
def places : Access → List FilePlace
  | body _ .local _ _ => lifecycle
  | body _ (.cached _) _ _ => .cacheBody :: lifecycle
  | deltaFull _ _ _ => lifecycle
  | deltaCached _ _ _ => [.cacheDelta]

variable (shape : Ulid → SegmentShape)

/-- It lies in its section. Blobs are not empty. -/
def Fits : Access → Prop
  | body segmentId _ offset length => offset + length ≤ (shape segmentId).bodyLength
  | deltaFull segmentId offset length | deltaCached segmentId offset length =>
    0 < length ∧ offset + length ≤ (shape segmentId).deltaLength

instance : (access : Access) → Decidable (access.Fits shape)
  | body _ _ _ _ => inferInstanceAs (Decidable (_ ≤ _))
  | deltaFull _ _ _ => inferInstanceAs (Decidable (_ ∧ _))
  | deltaCached _ _ _ => inferInstanceAs (Decidable (_ ∧ _))

/-- Whether `read_exact_at` gets all its bytes from a file of that layout. The offset of a blob in a
full segment does not depend on the layout. -/
def reads (layout : SegmentBodyLayout) : Access → Bool
  | body segmentId _ offset length =>
    layout.bodySectionFileOffset (shape segmentId).bodySectionStart + offset + length ≤
      (shape segmentId).fileLength layout
  | deltaFull segmentId offset length =>
    (shape segmentId).bodySectionStart + (shape segmentId).bodyLength + offset + length ≤
      (shape segmentId).fileLength layout
  | deltaCached segmentId offset length => offset + length ≤ (shape segmentId).deltaLength

/-- A blob of a full segment is not read from a `.body`. -/
def Served (layout : SegmentBodyLayout) : Access → Prop
  | deltaFull _ _ _ => layout = .fullSegment
  | _ => True

/-- A `.body` ends before the delta section. -/
theorem reads_iff {shape : Ulid → SegmentShape} {access : Access} (h : access.Fits shape)
    (layout : SegmentBodyLayout) : access.reads shape layout = true ↔ access.Served layout := by
  cases access with
  | body segmentId source offset length =>
    simp only [Fits] at h
    simp only [reads, Served, iff_true, decide_eq_true_eq]
    cases layout with
    | fullSegment | bodyOnly =>
      simp only [SegmentBodyLayout.bodySectionFileOffset, SegmentShape.fileLength]
      omega
  | deltaFull segmentId offset length =>
    simp only [Fits] at h
    simp only [reads, Served, decide_eq_true_eq]
    cases layout with
    | fullSegment =>
      simp only [SegmentShape.fileLength, iff_true]
      omega
    | bodyOnly =>
      simp only [SegmentShape.fileLength, reduceCtorEq, iff_false]
      omega
  | deltaCached segmentId offset length =>
    simp only [reads, Served, iff_true, decide_eq_true_eq]
    exact h.2

end Access

/-! ### The machine -/

/-- A published snapshot, as far as the request goes: what reading it needs and what it gives. -/
structure ReadView where
  accesses : List Access
  bytes : Bytes
  flushGen : ℕ
  layoutGen : ℕ
  deriving DecidableEq

/-- One pass over the extents. The last four fields record what happened, for the reasoning only. -/
structure Attempt where
  number : ℕ
  view : ReadView
  todo : List Access
  /-- The generation the read started with. -/
  startGen : ℕ
  /-- Segments of the view retired since it was loaded. -/
  retired : List Ulid
  /-- Snapshots published during the read that retired a segment of the view it had then. -/
  retirements : ℕ
  /-- That number when the view was loaded. -/
  retirementsBefore : ℕ
  /-- Some pass has missed a segment that was not retired. -/
  overtaken : Bool

/-- Within one access. -/
inductive Lookup where
  | next
  | probing (places : List FilePlace)
  | found (place : FilePlace)

/-- Where a read stands. -/
inductive Reading where
  | idle
  | reading (attempt : Attempt) (lookup : Lookup)
  /-- The pass ended with NotFound. -/
  | missed (attempt : Attempt) (segmentId : Ulid)
  | done (startGen endGen : ℕ) (result : Except IoError Bytes)

/-- The fork and a read. -/
structure ReadScene where
  files : FilePlace → Finset Ulid
  /-- Files of retired segments, to be unlinked. -/
  doomed : Finset (FilePlace × Ulid)
  published : ReadView
  /-- All snapshots published so far. -/
  history : List ReadView
  /-- The descriptor cache, and its generation. -/
  fdGen : ℕ
  fds : Ulid → Option SegmentBodyLayout
  reading : Reading

/-- What happens beside a read, and its own steps. -/
inductive SceneAct where
  /-- A new segment file is renamed into place. -/
  | commit (place : FilePlace) (segmentId : Ulid)
  /-- `promote_segment` writes the cache files. -/
  | fillCache (segmentId : Ulid)
  | rotate
  /-- A guest write, or the publication after a rotation, which replaces descriptors. -/
  | publish (accesses : List Access) (bytes : Bytes) (replacesFiles : Bool)
  /-- The publication of a promote, a repack or a GC apply, which then unlinks files. -/
  | retire (accesses : List Access) (bytes : Bytes) (doomed : Finset (FilePlace × Ulid))
  | unlink (place : FilePlace) (segmentId : Ulid)
  /-- Another reader inserts a descriptor, or displaces one. -/
  | insertFd (layoutGen : ℕ) (segmentId : Ulid) (layout : SegmentBodyLayout)
  | dropFd (segmentId : Ulid)
  | load
  /-- Ask the descriptor cache for the next access. -/
  | lookup
  | probe
  | openFound
  | reload

/-- Note a retirement in the pass under way. -/
def Attempt.retire (a : Attempt) (doomed : Finset (FilePlace × Ulid)) : Attempt :=
  let hit := (a.view.accesses.map Access.segmentId).filter fun id => id ∈ doomed.image Prod.snd
  if hit = [] then a
  else { a with retired := a.retired ++ hit, retirements := a.retirements + 1 }

/-- Note what is unlinked while the read is under way. -/
def Reading.retire (r : Reading) (doomed : Finset (FilePlace × Ulid)) : Reading :=
  match r with
  | .reading a lookup => .reading (a.retire doomed) lookup
  | .missed a segmentId => .missed (a.retire doomed) segmentId
  | r => r

/-- At most two snapshots that retire a segment of the read are published during it. -/
def Reading.admits (r : Reading) : Bool :=
  match r with
  | .reading a _ | .missed a _ => a.retirements ≤ 2
  | _ => true

/-- Note a miss. -/
def Attempt.miss (a : Attempt) (segmentId : Ulid) : Attempt :=
  { a with overtaken := a.overtaken || decide (segmentId ∉ a.retired) }

namespace ReadScene

variable (shape : Ulid → SegmentShape) (s : ReadScene)

/-- Whether a snapshot that is published finds its files: none that it walks into is to be unlinked,
and a complete segment file is there unless the body or blob is in the cache. -/
def available (access : Access) : Bool :=
  match access with
  | .body segmentId (.cached _) _ _ =>
    segmentId ∈ s.files .cacheBody ∧ (.cacheBody, segmentId) ∉ s.doomed
  | .deltaCached segmentId _ _ =>
    segmentId ∈ s.files .cacheDelta ∧ (.cacheDelta, segmentId) ∉ s.doomed
  | .body segmentId .local _ _ | .deltaFull segmentId _ _ =>
    (∃ place ∈ [FilePlace.wal, .upload, .openGen, .gc], segmentId ∈ s.files place) ∧
      ∀ place ∈ Access.lifecycle, (place, segmentId) ∉ s.doomed

/-- Whether a view may be published: every snapshot names files on disk. -/
def publishable (accesses : List Access) : Bool :=
  accesses.all fun access => decide (access.Fits shape) && s.available access

/-- Publish a view under the next generation. -/
def publishView (accesses : List Access) (bytes : Bytes) (replacesFiles : Bool) : ReadScene :=
  let view : ReadView := {
    accesses
    bytes
    flushGen := s.published.flushGen + 1
    layoutGen := if replacesFiles then s.published.layoutGen + 1 else s.published.layoutGen }
  { s with published := view, history := s.history ++ [view] }

variable (layoutGen : ℕ)

/-- `FileCache::advance`. -/
def advanceFds : ReadScene :=
  if s.fdGen < layoutGen then { s with fdGen := layoutGen, fds := fun _ => none } else s

/-- `FileCache::get`. -/
def getFd (segmentId : Ulid) : Option SegmentBodyLayout :=
  if layoutGen < (s.advanceFds layoutGen).fdGen then none
  else (s.advanceFds layoutGen).fds segmentId

/-- `FileCache::insert`. -/
def insertFd (segmentId : Ulid) (layout : SegmentBodyLayout) : ReadScene :=
  let s' := s.advanceFds layoutGen
  if layoutGen < s'.fdGen then s'
  else { s' with fds := update s'.fds segmentId (some layout) }

/-- Take the bytes of an access from an open file. -/
def serve (a : Attempt) (access : Access) (rest : List Access)
    (layout : SegmentBodyLayout) : ReadScene :=
  if access.reads shape layout then { s with reading := .reading { a with todo := rest } .next }
  else
    { s with
      reading := .done a.startGen s.published.flushGen (.error "failed to fill whole buffer") }

/-- The next access, or the end of the pass. A `.delta` file is not in the descriptor cache. -/
def lookup : ReadScene :=
  match s.reading with
  | .reading a .next =>
    match a.todo with
    | [] => { s with reading := .done a.startGen s.published.flushGen (.ok a.view.bytes) }
    | .deltaCached segmentId offset length :: _ =>
      { s with
        reading := .reading a (.probing (Access.deltaCached segmentId offset length).places) }
    | access :: rest =>
      let s' := s.advanceFds a.view.layoutGen
      match s.getFd a.view.layoutGen access.segmentId with
      | some layout => serve shape s' a access rest layout
      | none => { s' with reading := .reading a (.probing access.places) }
  | _ => s

/-- Look in the next directory. -/
def probe : ReadScene :=
  match s.reading with
  | .reading a (.probing places) =>
    match a.todo, places with
    | access :: _, [] => { s with reading := .missed (a.miss access.segmentId) access.segmentId }
    | access :: _, place :: places =>
      if access.segmentId ∈ s.files place then { s with reading := .reading a (.found place) }
      else { s with reading := .reading a (.probing places) }
    | [], _ => s
  | _ => s

/-- Open what the probe found, which may be gone by now. -/
def openFound : ReadScene :=
  match s.reading with
  | .reading a (.found place) =>
    match a.todo with
    | [] => s
    | access :: rest =>
      if access.segmentId ∈ s.files place then
        if place = .cacheDelta then serve shape s a access rest place.layout
        else
          serve shape (s.insertFd a.view.layoutGen access.segmentId place.layout) a access rest
            place.layout
      else { s with reading := .missed (a.miss access.segmentId) access.segmentId }
  | _ => s

/-- Up to two more passes, each under a newer snapshot. -/
def reload : ReadScene :=
  match s.reading with
  | .missed a _ =>
    if 3 ≤ a.number ∨ s.published.flushGen = a.view.flushGen then
      { s with reading := .done a.startGen s.published.flushGen (.error "segment not found") }
    else
      { s with
        reading := .reading
          { a with
            number := a.number + 1
            view := s.published
            todo := s.published.accesses
            retired := []
            retirementsBefore := a.retirements } .next }
  | _ => s

/-- Start a pass over the published view. -/
def load : ReadScene :=
  match s.reading with
  | .idle =>
    { s with
      reading := .reading
        { number := 1
          view := s.published
          todo := s.published.accesses
          startGen := s.published.flushGen
          retired := []
          retirements := 0
          retirementsBefore := 0
          overtaken := false } .next }
  | _ => s

/-- One action. -/
def step : SceneAct → ReadScene
  | .commit place segmentId =>
    if place ∈ [FilePlace.wal, .upload, .openGen, .gc] ∧
        ∀ p ∈ Access.lifecycle, segmentId ∉ s.files p then
      { s with files := update s.files place (insert segmentId (s.files place)) }
    else s
  | .fillCache segmentId =>
    if segmentId ∈ s.files .upload ∨ segmentId ∈ s.files .openGen ∨ segmentId ∈ s.files .gc then
      { s with
        files := update
          (update s.files .cacheBody (insert segmentId (s.files .cacheBody)))
          .cacheDelta (insert segmentId (s.files .cacheDelta)) }
    else s
  | .rotate =>
    -- whoever has published without a file has unlinked it before the actor rotates
    if s.files .upload = ∅ ∧ ∀ x ∈ s.doomed, x.1 ≠ .openGen then
      { s with
        files := update (update s.files .upload (s.files .openGen)) .openGen ∅ }
    else s
  | .publish accesses bytes replacesFiles =>
    if s.publishable shape accesses then s.publishView accesses bytes replacesFiles else s
  | .retire accesses bytes doomed =>
    let s' := { s with doomed := s.doomed ∪ doomed, reading := s.reading.retire doomed }
    if s'.publishable shape accesses && s'.reading.admits then s'.publishView accesses bytes true
    else s
  | .unlink place segmentId =>
    if (place, segmentId) ∈ s.doomed then
      { s with
        files := update s.files place ((s.files place).erase segmentId)
        doomed := s.doomed.erase (place, segmentId) }
    else s
  | .insertFd layoutGen segmentId layout =>
    if ∃ place ∈ Access.lifecycle, place.layout = layout ∧ segmentId ∈ s.files place then
      s.insertFd layoutGen segmentId layout
    else s
  | .dropFd segmentId => { s with fds := update s.fds segmentId none }
  | .load => s.load
  | .lookup => lookup shape s
  | .probe => s.probe
  | .openFound => openFound shape s
  | .reload => s.reload

/-! ### What is said about it -/

/-- If the read has ended, it has the bytes of a snapshot that was published between its start and
its end. -/
def Right : Prop :=
  match s.reading with
  | .done startGen endGen result => ∃ view ∈ s.history,
      startGen ≤ view.flushGen ∧ view.flushGen ≤ endGen ∧ result = .ok view.bytes
  | _ => True

/-- Where a step takes bytes, the layout has them. Where a read comes back after a miss, and one of
its misses was of a segment that no snapshot had retired, it has missed at most twice, and if it is
this last one, a newer snapshot is published. -/
def InTime : SceneAct → Prop
  | .lookup =>
    match s.reading with
    | .reading a .next =>
      match a.todo with
      | access :: _ => ∀ layout, s.getFd a.view.layoutGen access.segmentId = some layout →
          access.Served layout
      | [] => True
    | _ => True
  | .openFound =>
    match s.reading with
    | .reading a (.found place) =>
      match a.todo with
      | access :: _ => access.segmentId ∈ s.files place → access.Served place.layout
      | [] => True
    | _ => True
  | .reload =>
    match s.reading with
    | .missed a segmentId => a.overtaken = true →
        a.number < 3 ∧ (segmentId ∉ a.retired → a.view.flushGen < s.published.flushGen)
    | _ => True
  | _ => True

end ReadScene

end Elide
