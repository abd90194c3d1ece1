import Elide.Coordinator.ReapExpired

/-!
# Publishing a cut

A publish merges into HEAD what happened since the last one. It starts from the writer's cached body,
from the stored one, or, when the stored one cannot be trusted, from a body regenerated out of the
fork directory. It reaps, adds every confirmed segment beyond the anchor, and treats the supersession
edges according to the flush barrier: behind it they join the cut, before it their inputs are added
instead, so that the claims those inputs carry stay reachable.
-/

namespace Elide

/-- `u` lies beyond the anchor. -/
def beyond (anchor : Option Ulid) (u : Ulid) : Bool := anchor.all fun a => decide (a < u)

/-- What a publish reads of the fork directory. -/
structure ForkFiles where
  /-- The confirmed segments (`index/<ulid>.idx`), each with its signed table of inputs. -/
  index : OrdMap Ulid (List Ulid)
  /-- The bare outputs under `gc/`. -/
  gcBare : List Ulid
  /-- The latest local user snapshot. -/
  latestSnapshot : Option Ulid

namespace ForkFiles

variable (fork : ForkFiles)

/-- Every confirmed segment beyond `anchor`. -/
def confirmedSegments (anchor : Option Ulid) : List (Ulid × List Ulid) :=
  fork.index.entries.filter fun e => beyond anchor e.1

/-- One edge per entry of the inputs tables of the confirmed segments beyond `anchor`. -/
def confirmedEdges (anchor : Option Ulid) : List (Ulid × Ulid) :=
  (fork.confirmedSegments anchor).flatMap fun e => e.2.map fun input => (input, e.1)

/-- The segments of the local committed tier. -/
def committedTierUlids : Finset Ulid :=
  (fork.index.entries.map Prod.fst ++ fork.gcBare).toFinset

/-- The full body, from the fork directory. -/
def regenerate (now : ℕ) : SegmentHead :=
  let anchor := fork.latestSnapshot
  let head := (fork.confirmedSegments anchor).foldl
    (fun head e => { head with added := insert e.1 head.added }) (SegmentHead.empty anchor)
  (fork.confirmedEdges anchor).foldl
    (fun head e => { head with
      added := insert e.1 head.added
      superseded := head.superseded.insert e.1 ⟨e.2, now⟩ }) head

end ForkFiles

/-- The HEAD object. -/
inductive HeadObject where
  | missing
  | unreadable
  | body (head : SegmentHead)

/-- A GET that reaches the store: a missing or unreadable object reads as an empty body. -/
def HeadObject.read : HeadObject → SegmentHead
  | .missing => .empty none
  | .unreadable => .empty none
  | .body head => head

/-- The state of the volume's task that a publish uses. -/
structure Orchestrator where
  /-- Segments uploaded since the last cut. -/
  tickAdded : List Ulid
  /-- Edges that wait for their cut. -/
  tickSuperseded : List (Ulid × Supersession)
  tickSeq : ℕ
  /-- The tick of the last confirmed WAL flush. -/
  lastFlushSeq : ℕ
  /-- The tick of the last pass that could have emitted plans. -/
  lastPlanPassSeq : ℕ
  /-- Fold the edges of the signed tables back in at the next eligible publish. -/
  reconcileEdges : Bool
  /-- The body of the last successful GET or PUT of this process. -/
  headCache : Option SegmentHead

/-- What a publish meets: the clocks, and whether each of its accesses goes through. -/
structure PublishEnv where
  drainOk : Bool
  cutDue : Bool
  reapDue : Bool
  /-- The GET of HEAD reaches the store. -/
  getOk : Bool
  /-- The index can be listed to judge an empty body. -/
  judged : Bool
  /-- A body can be regenerated. -/
  regenerates : Bool
  /-- The committed tier can be listed. -/
  tierListed : Bool
  /-- The index can be listed for the cut. -/
  listed : Bool
  /-- The signed tables can be read. -/
  edgesRead : Bool
  putOk : Bool
  /-- The time stamped on edges. -/
  now : ℕ
  /-- The time at which the reap compares. -/
  reapNow : ℕ
  retention : Option ℕ
  binding : Option NameBinding
  delete : Ulid → DeleteOutcome

namespace PublishEnv

/-- A cut is due and every access goes through; no reap is due. -/
def clear : PublishEnv where
  drainOk := true
  cutDue := true
  reapDue := false
  getOk := true
  judged := true
  regenerates := true
  tierListed := true
  listed := true
  edgesRead := true
  putOk := true
  now := 0
  reapNow := 0
  retention := some 10
  binding := none
  delete := fun _ => .ok

/-- What the reap step meets. -/
def reap (env : PublishEnv) (fork : ForkFiles) : ReapEnv :=
  ⟨env.reapNow, env.retention, if env.tierListed then some fork.committedTierUlids else none,
    env.binding, env.delete⟩

end PublishEnv

/-- Where a merge starts. -/
inductive Seed where
  | trusted (head : SegmentHead)
  | regenerated (head : SegmentHead)

namespace Orchestrator

variable (o : Orchestrator) (fork : ForkFiles) (stored : HeadObject) (env : PublishEnv)

/-- The task of a fresh process. -/
def new : Orchestrator := ⟨[], [], 0, 0, 0, true, none⟩

/-- A confirmed flush postdates the last plan-emitting pass. -/
def edgesEligible : Bool := decide (o.lastPlanPassSeq < o.lastFlushSeq)

/-- Something changed since the last cut. -/
def hasScratch : Bool := !o.tickAdded.isEmpty || !o.tickSuperseded.isEmpty

/-- No edge waits, and every confirmed segment beyond the anchor is in the scratch. -/
def emptyHeadIsLegitimate (anchor : Option Ulid) : Bool :=
  if !o.tickSuperseded.isEmpty then false
  else if !env.judged then false
  else (fork.confirmedSegments anchor).all fun e => decide (e.1 ∈ o.tickAdded)

/-- The body a merge starts from, or `none` if there is none to start from. -/
def seed : Option Seed :=
  let regenerated :=
    if env.regenerates then some (Seed.regenerated (fork.regenerate env.now)) else none
  match o.headCache with
  | some head => some (.trusted head)
  | none =>
    if env.getOk then
      if !stored.read.isEmpty then some (.trusted stored.read)
      else if o.emptyHeadIsLegitimate fork env stored.read.anchor then some (.trusted stored.read)
      else regenerated
    else regenerated

end Orchestrator

/-- The body of the seed as the merge takes it. The edges of a regenerated body ride the barrier like
the others. -/
def Seed.head (eligible : Bool) : Seed → SegmentHead
  | .trusted head => head
  | .regenerated head => if eligible then head else { head with superseded := .empty }

/-- Whether taking the seed already repaired HEAD. -/
def Seed.repaired (eligible : Bool) : Seed → Bool
  | .trusted _ => false
  | .regenerated head => !(Seed.head eligible (.regenerated head)).isEmpty

/-- A regenerated body that carries its edges makes the reconcile superfluous. -/
def Seed.reconciles (eligible reconcileEdges : Bool) : Seed → Bool
  | .trusted _ => reconcileEdges
  | .regenerated _ => if eligible then false else reconcileEdges

/-! ### The merge -/

/-- A body under construction, and whether it differs from the one the merge started with. -/
abbrev Merge := SegmentHead × Bool

namespace Merge

/-- Add a segment. -/
def add (m : Merge) (u : Ulid) : Merge :=
  ({ m.1 with added := insert u m.1.added }, m.2 || decide (u ∉ m.1.added))

/-- Add an edge. -/
def supersede (m : Merge) (input : Ulid) (edge : Supersession) : Merge :=
  ({ m.1 with superseded := m.1.superseded.insert input edge },
    m.2 || decide (m.1.superseded.get? input ≠ some edge))

/-- Keep the input of an edge that waits in the cut. -/
def hold (m : Merge) (input : Ulid) : Merge :=
  if beyond m.1.anchor input && decide (input ∉ m.1.tombstoned) &&
    (m.1.superseded.get? input).isNone then m.add input else m

/-- Fold one edge of the signed tables in. -/
def reconcile (eligible : Bool) (now : ℕ) (m : Merge) (edge : Ulid × Ulid) : Merge :=
  if decide (edge.1 ∈ m.1.tombstoned) || (m.1.superseded.get? edge.1).isSome then m
  else if eligible then m.supersede edge.1 ⟨edge.2, now⟩
  else if beyond m.1.anchor edge.1 then m.add edge.1
  else m

end Merge

namespace Orchestrator

variable (o : Orchestrator) (fork : ForkFiles) (stored : HeadObject) (env : PublishEnv)

/-- The edges that stay with the task once a publish behind the barrier has dropped those whose
output a seal left below the anchor. -/
def publishable (anchor : Option Ulid) : List (Ulid × Supersession) :=
  o.tickSuperseded.filter fun e => beyond anchor e.2.output

/-- The edges of the signed tables the merge folds in. -/
def reconciled (reconcileEdges : Bool) (anchor : Option Ulid) : List (Ulid × Ulid) :=
  if reconcileEdges && env.edgesRead then fork.confirmedEdges anchor else []

/-- Everything that joins the body after the reap. -/
def merge (reconcileEdges : Bool) (m : Merge) : Merge :=
  let m := ((fork.confirmedSegments m.1.anchor).map Prod.fst).foldl Merge.add m
  let m := (reconciled fork env reconcileEdges m.1.anchor).foldl
    (Merge.reconcile o.edgesEligible env.now) m
  if o.edgesEligible then
    (o.publishable m.1.anchor).foldl (fun m e => m.supersede e.1 e.2) m
  else (o.tickSuperseded.map Prod.fst).foldl Merge.hold m

end Orchestrator

/-- What a publish does. -/
structure Published where
  orch : Orchestrator
  /-- The DELETEs it issued. -/
  deletes : List Ulid
  /-- The body it PUT. -/
  put : Option SegmentHead
  /-- A cut landed. -/
  landed : Bool

namespace Orchestrator

variable (o : Orchestrator) (fork : ForkFiles) (stored : HeadObject) (env : PublishEnv)

/-- The task after a cut landed. -/
def cutLanded (head : SegmentHead) (reconcileEdges : Bool) : Orchestrator :=
  { o with
    tickAdded := []
    tickSuperseded := if o.edgesEligible then [] else o.tickSuperseded
    reconcileEdges := reconcileEdges
    headCache := some head }

/-- The task after a publish that got no further than the reap, or whose PUT failed. -/
def cutHeld (tickSuperseded : List (Ulid × Supersession)) (reconcileEdges : Bool) : Orchestrator :=
  { o with
    tickSuperseded := tickSuperseded
    reconcileEdges := reconcileEdges
    headCache := none }

/-- The inputs the reap step of a publish issues DELETEs for. -/
def publishReaps (seed : Seed) : List Ulid :=
  if env.reapDue then (seed.head o.edgesEligible).reapable (env.reap fork) else []

/-- The body a publish arrives at, and whether it is to be PUT. -/
def publishMerge (seed : Seed) : Merge :=
  let head := seed.head o.edgesEligible
  let repaired := seed.repaired o.edgesEligible
  let reaped := if env.reapDue then head.reapExpired (env.reap fork) else (head, false)
  o.merge fork env (seed.reconciles o.edgesEligible o.reconcileEdges)
    (reaped.1, repaired || reaped.2)

/-- The part of a publish that follows the choice of the seed. -/
def publishFrom (seed : Seed) : Published :=
  let reconcileEdges := seed.reconciles o.edgesEligible o.reconcileEdges
  let deletes := o.publishReaps fork env seed
  if !env.listed then ⟨o.cutHeld o.tickSuperseded reconcileEdges, deletes, none, false⟩
  else
    let merged := o.publishMerge fork env seed
    -- the reconcile is done once the tables were read behind the barrier
    let reconcileEdges := reconcileEdges && !(env.edgesRead && o.edgesEligible)
    if !merged.2 then ⟨o.cutLanded merged.1 reconcileEdges, deletes, none, true⟩
    else if env.putOk then ⟨o.cutLanded merged.1 reconcileEdges, deletes, some merged.1, true⟩
    else
      ⟨o.cutHeld (if o.edgesEligible then o.publishable merged.1.anchor else o.tickSuperseded)
        reconcileEdges, deletes, none, false⟩

/-- Merge into HEAD what happened since the last cut. -/
def publishHeadDelta : Published :=
  if !env.reapDue && !o.hasScratch then ⟨o, [], none, env.cutDue && env.drainOk⟩
  else if !env.cutDue then ⟨o, [], none, false⟩
  else if !env.drainOk then ⟨o, [], none, false⟩
  else
    match o.seed fork stored env with
    | none => ⟨{ o with headCache := none }, [], none, false⟩
    | some seed => o.publishFrom fork env seed

end Orchestrator

end Elide
