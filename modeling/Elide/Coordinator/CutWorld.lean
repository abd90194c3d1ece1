import Elide.Coordinator.LowSegments

/-!
# A volume and its cuts

A `CutWorld` is a site with the guest's writes in it. Segments carry block writes: a flush lands the
latest writes of the WAL, and a compaction output carries those block writes of its inputs that stand
in the view of the pass, which is `index/`, both pending generations and the WAL.

Contents are a function `carries` that is fixed for the whole run, and a step that lands a segment is
taken only when the segment carries what the step gives it. A run of the volume is a run here with the
function that records what its segments were written with.

All accesses to the store go through; ticks, passes, flushes and restarts come in any order.
-/

namespace Elide

/-- Every access goes through. -/
def PublishEnv.through (env : PublishEnv) : PublishEnv :=
  { env with
    getOk := true
    judged := true
    regenerates := true
    tierListed := true
    listed := true
    edgesRead := true
    putOk := true }

/-- A volume, its bucket and the cuts published so far. -/
structure CutWorld where
  minting : Minting
  /-- The guest's writes since the last flush. -/
  wal : List BlockWrite
  /-- The number of the next write. -/
  nextWrite : ℕ
  /-- The staged plans: output and inputs. -/
  staged : List (Ulid × List Ulid)
  /-- What the bodies PUT so far called live, the last first. -/
  cuts : List (Finset Ulid)

namespace CutWorld

variable (carries : Ulid → List BlockWrite) (w : CutWorld)

/-- The site the mint belongs to. -/
abbrev site : Site := w.minting.site

/-- A volume at a user snapshot, or a new one: the indexed segments, the anchor with its manifest, and
HEAD truncated to it. -/
def start (index : OrdMap Ulid (List Ulid)) (anchor : Option (Ulid × Finset Ulid))
    (mint nextWrite : ℕ) : CutWorld :=
  { minting :=
      { site :=
          { Site.init with
            index := index
            snapshots := match anchor with
              | some (snap, segments) => OrdMap.empty.insert snap ⟨true, segments⟩
              | none => .empty
            objects := (index.entries.map Prod.fst).toFinset
            stored := .body (.empty (anchor.map Prod.fst)) }
        mint := mint
        reserved := ∅ }
    wal := []
    nextWrite := nextWrite
    staged := []
    cuts := [(anchor.map Prod.snd).getD ∅] }

/-- Take a step of the site. -/
def land (a : Site.Action) : CutWorld := { w with minting := w.minting.step (.site a) }

/-- The guest writes a block. -/
def write (lba : ℕ) : CutWorld :=
  { w with wal := ⟨lba, w.nextWrite⟩ :: w.wal, nextWrite := w.nextWrite + 1 }

/-- Flush the WAL into the open generation. -/
def promote (u : Ulid) : CutWorld :=
  if u ∈ w.minting.reserved ∧ w.wal ≠ [] ∧ carries u = w.wal.filter (BlockWrite.standsIn w.wal) then
    { w.land (.flush u) with wal := [] }
  else w

/-- The next tick, which tries a flush if one is due. The flush is confirmed once the WAL is empty. -/
def tick : Option Ulid → CutWorld
  | none => w.land (.tick false)
  | some u =>
    let w := w.promote carries u
    w.land (.tick w.wal.isEmpty)

/-- What a pass judges against. -/
def view : List BlockWrite :=
  w.wal ++ ((w.site.index.entries ++ w.site.pendingOpen.entries ++
    w.site.pendingUpload.entries).map Prod.fst).flatMap carries

/-- What is live of the inputs of a pass. -/
def live (inputs : List Ulid) : List BlockWrite :=
  (inputs.flatMap carries).filter (BlockWrite.standsIn (w.view carries))

/-- A compaction pass stages plans, each for indexed inputs, unless handoffs are outstanding. -/
def pass (plans : List (Ulid × List Ulid)) : CutWorld :=
  if w.staged = [] ∧ w.site.gc.entries = [] ∧
      plans.all fun plan => decide (carries plan.1 = w.live carries plan.2) then
    { w.land .planPass with staged := plans }
  else w

/-- The volume applies the staged plans. -/
def applyPlans : CutWorld :=
  w.staged.foldl (fun w plan => w.land (.applyPlan plan.1 ⟨plan.2, !(carries plan.1).isEmpty⟩))
    { w with staged := [] }

/-- A bucket of the close pass carries what is live of its inputs. -/
def packs (bin : RepackBin) : Bool :=
  match bin.output with
  | some output => decide (carries output = w.live carries bin.inputs)
  | none => (w.live carries bin.inputs).isEmpty

/-- The clocks of a publish. A cut also waits for the upload generation to be drained. -/
def clocks (env : PublishEnv) : PublishEnv :=
  { env.through with cutDue := env.cutDue && w.site.pendingUpload.entries.isEmpty }

/-- Publish a cut. -/
def publish (env : PublishEnv) : CutWorld :=
  let p := w.site.orch.publishHeadDelta w.site.forkFiles w.site.stored (w.clocks env)
  { w.land (.publish (w.clocks env)) with
    cuts := match p.put with
      | some head => SegmentHead.liveSet (w.site.manifest head.anchor) head :: w.cuts
      | none => w.cuts }

/-- The steps. -/
inductive Action where
  | write (lba : ℕ)
  | reserve
  | tick (flush : Option Ulid)
  | gcCheckpoint (u : Ulid)
  | pass (plans : List (Ulid × List Ulid))
  | applyPlans
  | handoffCleanup (answer : Ulid → HandoffAnswer) (since : ℕ)
  | drain (answer : Ulid → DrainAnswer)
  | publish (env : PublishEnv)
  | closeGeneration (bins : List RepackBin)
  | restart

/-- One step. -/
def step (w : CutWorld) : Action → CutWorld
  | .write lba => w.write lba
  | .reserve => { w with minting := w.minting.step .reserve }
  | .tick flush => w.tick carries flush
  | .gcCheckpoint u => w.promote carries u
  | .pass plans => w.pass carries plans
  | .applyPlans => w.applyPlans carries
  | .handoffCleanup answer since => w.land (.handoffCleanup answer since true)
  | .drain answer => w.land (.drain answer true)
  | .publish env => w.publish env
  | .closeGeneration bins => if bins.all (w.packs carries) then w.land (.closeGeneration bins) else w
  | .restart => w.land .restart

end CutWorld

end Elide
