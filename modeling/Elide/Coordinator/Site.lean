import Elide.Coordinator.PublishedBody

/-!
# One volume and its bucket

A `Site` is what the coordinator's task for one volume works on: the files of the fork directory, the
objects and the HEAD of the bucket, and the task itself. Its steps are the ones that move segments:
flushes and repacks in `pending/`, the close of a generation, compaction outputs and their handoff,
drains, seals, publishes, and the faults (a lost or damaged HEAD, a restart).

Contents are left out. A segment is its ULID and the inputs table it was signed with, which is all
that a publish reads.
-/

namespace Elide

/-- A compaction output the volume has applied, bare under `gc/`. -/
structure Handoff where
  inputs : List Ulid
  /-- It has entries, so it is uploaded and indexed. -/
  carries : Bool
  deriving DecidableEq, Repr

/-- A signed snapshot manifest. -/
structure Snapshot where
  /-- A stable user snapshot, as opposed to the checkpoint of a stop. -/
  user : Bool
  segments : Finset Ulid

/-- One volume: fork directory, bucket, task. -/
structure Site where
  /-- `pending/open/`, with inputs tables. -/
  pendingOpen : OrdMap Ulid (List Ulid)
  /-- `pending/upload/`, with inputs tables. -/
  pendingUpload : OrdMap Ulid (List Ulid)
  /-- The bare files under `gc/`. -/
  gc : OrdMap Ulid Handoff
  /-- `index/`, with inputs tables. -/
  index : OrdMap Ulid (List Ulid)
  /-- The signed manifests. -/
  snapshots : OrdMap Ulid Snapshot
  /-- The manifests that are not in the bucket yet. -/
  outstanding : List Ulid
  /-- The segment objects that were uploaded and not deleted. -/
  objects : Finset Ulid
  stored : HeadObject
  orch : Orchestrator

/-- A bucket of a repack: the inputs it consumes, and the output unless all of it was dead. -/
structure RepackBin where
  inputs : List Ulid
  output : Option Ulid
  deriving DecidableEq, Repr

/-- How far a drain gets with a segment. -/
inductive DrainAnswer where
  | uploadFailed
  | promoteFailed
  | done
  deriving DecidableEq, Repr

/-- How far a handoff gets. -/
inductive HandoffAnswer where
  | uploadFailed
  | promoteFailed
  | finalizeFailed
  | done
  deriving DecidableEq, Repr

namespace Site

variable (s : Site)

/-- A new volume. -/
def init : Site := ⟨.empty, .empty, .empty, .empty, .empty, [], ∅, .missing, .new⟩

/-- The manifest a body is a delta over. -/
def manifest (anchor : Option Ulid) : Finset Ulid :=
  ((anchor.bind s.snapshots.get?).map Snapshot.segments).getD ∅

/-- The latest local user snapshot. -/
def latestSnapshot : Option Ulid :=
  ((s.snapshots.entries.filter fun e => e.2.user).getLast?).map Prod.fst

/-- What a publish reads of the fork directory. -/
def forkFiles : ForkFiles := ⟨s.index, s.gc.entries.map Prod.fst, s.latestSnapshot⟩

/-! ### The volume's steps -/

/-- Pack a bucket: its inputs give way to the output, whose signed table names them. -/
def pack (dir : OrdMap Ulid (List Ulid)) (bin : RepackBin) : OrdMap Ulid (List Ulid) :=
  if !bin.inputs.isEmpty && bin.inputs.all fun u => (dir.get? u).isSome then
    let dir := bin.inputs.foldl OrdMap.erase dir
    match bin.output with
    | some output => dir.insert output bin.inputs
    | none => dir
  else dir

variable (u : Ulid)

/-- A WAL flush lands a segment in the open generation. -/
def flush : Site := { s with pendingOpen := s.pendingOpen.insert u [] }

/-- A repack of the open generation. -/
def repack (bins : List RepackBin) : Site :=
  { s with pendingOpen := bins.foldl pack s.pendingOpen }

/-- Seal the open generation and pack it. A generation that is not drained refuses the rotate. -/
def closeGeneration (bins : List RepackBin) : Site :=
  if s.pendingUpload.entries.isEmpty then
    { s with pendingOpen := .empty, pendingUpload := bins.foldl pack s.pendingOpen }
  else s

/-- The volume applies a compaction plan over indexed segments. No pass plans while handoffs are
outstanding, so their outputs are not among the inputs. -/
def applyPlan (handoff : Handoff) : Site :=
  if !handoff.inputs.isEmpty &&
      handoff.inputs.all fun i => (s.index.get? i).isSome && (s.gc.get? i).isNone then
    { s with gc := s.gc.insert u handoff }
  else s

/-! ### The coordinator's steps -/

/-- Upload one sealed segment and have the volume index it. -/
def drainOne (inputs : List Ulid) : DrainAnswer → Site
  | .uploadFailed => s
  | .promoteFailed => { s with objects := insert u s.objects }
  | .done =>
    { s with
      objects := insert u s.objects
      index := s.index.insert u inputs
      pendingUpload := s.pendingUpload.erase u }

/-- The drain's loop, which halts at the first failure. Returns the segments it uploaded. -/
def drainLoop (answer : Ulid → DrainAnswer) : List (Ulid × List Ulid) → Site → Site × List Ulid
  | [], s => (s, [])
  | e :: rest, s =>
    match answer e.1 with
    | .done =>
      let r := drainLoop answer rest (s.drainOne e.1 e.2 .done)
      (r.1, e.1 :: r.2)
    | failed => (s.drainOne e.1 e.2 failed, [])

/-- Drain the upload generation. The drain of a seal tells the task nothing (`records`). -/
def drain (answer : Ulid → DrainAnswer) (records : Bool) : Site :=
  let r := drainLoop answer s.pendingUpload.entries s
  if records then
    { r.1 with orch := { r.1.orch with tickAdded := r.1.orch.tickAdded ++ r.2 } }
  else r.1

/-- The volume indexes a handoff's output and retires the inputs. -/
def promoteHandoff (handoff : Handoff) : Site :=
  { s with
    index := handoff.inputs.foldl OrdMap.erase
      (if handoff.carries then s.index.insert u handoff.inputs else s.index) }

/-- Upload a handoff's output, if it has entries. -/
def uploadHandoff (handoff : Handoff) : Site :=
  { s with objects := if handoff.carries then insert u s.objects else s.objects }

/-- The handoffs that completed. A failed upload ends the loop and loses those completed before it. -/
def handoffLoop (answer : Ulid → HandoffAnswer) :
    List (Ulid × Handoff) → Site → Site × Option (List (Ulid × Handoff))
  | [], s => (s, some [])
  | e :: rest, s =>
    match answer e.1 with
    | .uploadFailed => if e.2.carries then (s, none) else handoffLoop answer rest s
    | .promoteFailed => handoffLoop answer rest (s.uploadHandoff e.1 e.2)
    | .finalizeFailed =>
      handoffLoop answer rest ((s.uploadHandoff e.1 e.2).promoteHandoff e.1 e.2)
    | .done =>
      let s := (s.uploadHandoff e.1 e.2).promoteHandoff e.1 e.2
      let r := handoffLoop answer rest { s with gc := s.gc.erase e.1 }
      (r.1, r.2.map (e :: ·))

/-- Finish the outstanding handoffs. Those finished during a seal are dropped (`records`). -/
def handoffCleanup (answer : Ulid → HandoffAnswer) (since : ℕ) (records : Bool) : Site :=
  let r := handoffLoop answer s.gc.entries s
  match r.2 with
  | none => r.1
  | some outcomes =>
    if records then
      { r.1 with orch := { r.1.orch with
          tickAdded := r.1.orch.tickAdded ++ ((outcomes.filter fun e => e.2.carries).map Prod.fst)
          tickSuperseded := r.1.orch.tickSuperseded ++
            outcomes.flatMap fun e => e.2.inputs.map fun i => (i, ⟨e.1, since⟩) } }
    else r.1

/-- The largest ULID in `index/`, or a fresh one. -/
def pickSnapshotUlid (fresh : Ulid) : Ulid :=
  ((s.index.entries.getLast?).map Prod.fst).getD fresh

/-- Sign a manifest over those indexed segments that are kept. A stop skips a snapshot that exists,
and a user manifest that is in the bucket is not uploaded again. -/
def sign (user : Bool) (kept : Finset Ulid) (fresh : Ulid) : Site :=
  let snap := s.pickSnapshotUlid fresh
  let segments := kept.filter fun u => (s.index.get? u).isSome = true
  let signed : Site :=
    { s with
      snapshots := s.snapshots.insert snap ⟨user, segments⟩
      outstanding := snap :: s.outstanding }
  match s.snapshots.get? snap with
  | none => signed
  | some existing =>
    if !user then s
    else if existing.user && decide (snap ∉ s.outstanding) then s
    else signed

/-- The newest of the manifests an upload of the outstanding ones gets into the bucket. -/
def newestUploaded (manifestOk : Ulid → Bool) : Option Ulid := (s.outstanding.filter manifestOk).max?

/-- Upload the outstanding manifests and truncate HEAD to the newest of them. -/
def uploadSnapshotMetadata (manifestOk : Ulid → Bool) (putOk : Bool) : Site :=
  let s' : Site := { s with outstanding := s.outstanding.filter fun u => !manifestOk u }
  match s.newestUploaded manifestOk with
  | none => s'
  | some snap =>
    if putOk then
      { s' with
        stored := .body (.empty (some snap))
        orch := { s.orch with headCache := some (.empty (some snap)) } }
    else { s' with orch := { s.orch with headCache := none } }

/-- The next tick, and whether its WAL flush was confirmed. -/
def tick (flushed : Bool) : Site :=
  let seq := s.orch.tickSeq + 1
  { s with orch := { s.orch with
      tickSeq := seq
      lastFlushSeq := if flushed then seq else s.orch.lastFlushSeq } }

/-- A pass that could have emitted plans. -/
def planPass : Site := { s with orch := { s.orch with lastPlanPassSeq := s.orch.tickSeq } }

/-- The objects a list of DELETEs leaves. -/
def afterDeletes (deletes : List Ulid) (outcome : Ulid → DeleteOutcome) : Finset Ulid :=
  s.objects.filter fun u => ¬ (u ∈ deletes ∧ outcome u ≠ .failed)

/-- Publish a cut. -/
def publish (env : PublishEnv) : Site :=
  let p := s.orch.publishHeadDelta s.forkFiles s.stored env
  { s with
    objects := s.afterDeletes p.deletes env.delete
    stored := match p.put with
      | some head => .body head
      | none => s.stored
    orch := p.orch }

/-- The steps. -/
inductive Action where
  | flush (u : Ulid)
  | repack (bins : List RepackBin)
  | closeGeneration (bins : List RepackBin)
  | applyPlan (u : Ulid) (handoff : Handoff)
  | drain (answer : Ulid → DrainAnswer) (records : Bool)
  | handoffCleanup (answer : Ulid → HandoffAnswer) (since : ℕ) (records : Bool)
  | sign (user : Bool) (kept : Finset Ulid) (fresh : Ulid)
  | uploadSnapshotMetadata (manifestOk : Ulid → Bool) (putOk : Bool)
  | tick (flushed : Bool)
  | planPass
  | publish (env : PublishEnv)
  | loseHead
  | damageHead
  | restart

/-- One step. -/
def step (s : Site) : Action → Site
  | .flush u => s.flush u
  | .repack bins => s.repack bins
  | .closeGeneration bins => s.closeGeneration bins
  | .applyPlan u handoff => s.applyPlan u handoff
  | .drain answer records => s.drain answer records
  | .handoffCleanup answer since records => s.handoffCleanup answer since records
  | .sign user kept fresh => s.sign user kept fresh
  | .uploadSnapshotMetadata manifestOk putOk => s.uploadSnapshotMetadata manifestOk putOk
  | .tick flushed => s.tick flushed
  | .planPass => s.planPass
  | .publish env => s.publish env
  | .loseHead => { s with stored := .missing }
  | .damageHead => { s with stored := .unreadable }
  | .restart => { s with orch := .new }

/-! ### Loops -/

section Loops

variable {R : Site → Site → Prop} (hrefl : ∀ s, R s s)
  (htrans : ∀ {s s' s''}, R s s' → R s' s'' → R s s'')
  (htold : ∀ (s : Site) added superseded,
    R s { s with orch := { s.orch with tickAdded := added, tickSuperseded := superseded } })
include hrefl htrans htold

/-- What each segment of a drain keeps, the drain keeps. -/
theorem drain_of_each (hone : ∀ s u inputs answer, R s (drainOne s u inputs answer)) (s : Site)
    (answer : Ulid → DrainAnswer) (records : Bool) : R s (s.drain answer records) := by
  have hloop : ∀ es s, R s (drainLoop answer es s).1 := by
    intro es
    induction es with
    | nil => exact hrefl
    | cons e es ih =>
      intro s
      rw [drainLoop]
      cases answer e.1 with
      | done => exact htrans (hone s e.1 e.2 .done) (ih _)
      | uploadFailed => exact hone s e.1 e.2 .uploadFailed
      | promoteFailed => exact hone s e.1 e.2 .promoteFailed
  rw [drain]
  split_ifs
  · exact htrans (hloop _ s) (htold _ _ _)
  · exact hloop _ s

/-- What each handoff of a cleanup keeps, the cleanup keeps. -/
theorem handoffCleanup_of_each (hup : ∀ s u handoff, R s (uploadHandoff s u handoff))
    (hpromote : ∀ s u handoff, R s ((uploadHandoff s u handoff).promoteHandoff u handoff))
    (hdone : ∀ (s : Site) u, R s { s with gc := s.gc.erase u }) (s : Site)
    (answer : Ulid → HandoffAnswer) (since : ℕ) (records : Bool) :
    R s (s.handoffCleanup answer since records) := by
  have hloop : ∀ es s, R s (handoffLoop answer es s).1 := by
    intro es
    induction es with
    | nil => exact hrefl
    | cons e es ih =>
      intro s
      rw [handoffLoop]
      cases answer e.1 with
      | uploadFailed =>
        split_ifs
        · exact hrefl s
        · exact ih s
      | promoteFailed => exact htrans (hup s e.1 e.2) (ih _)
      | finalizeFailed => exact htrans (hpromote s e.1 e.2) (ih _)
      | done => exact htrans (hpromote s e.1 e.2) (htrans (hdone _ e.1) (ih _))
  rw [handoffCleanup]
  rcases (handoffLoop answer s.gc.entries s).2 with _ | outcomes
  · exact hloop _ s
  · split_ifs
    · exact htrans (hloop _ s) (htold _ _ _)
    · exact hloop _ s

end Loops

end Site

end Elide
