import Elide.Actor.Pipeline
import Elide.Lib.Run
import Elide.MapLayers.Below
import Elide.Volume.DeltaChains
import Elide.Volume.Epoch

/-!
# Delta sources across the promote pipeline

A promote chooses its delta sources on the worker, from the layers it captured when it was taken,
and pins them only when its result is applied. Between the two the actor may apply a GC plan, the
pass over a closed generation, or a reap, each of which drops bodies that no claim and no recorded
encoding names at that moment, and it may apply other promotes, which turn bodies into Deltas. The
gate in front of a GC plan and a reap is `promotes_in_flight`, which counts a promote from its send
to its result: not while it waits in `failed_promotes`. The pass over a closed generation has none.
A GC plan has a ULID, works on `base` and the layers below it, and is refused while a claim of one of
its inputs that its output does not cover stands there; what it does not ask about are the layers that
a stashed promote has captured.

## Main results

* `PromoteActor.named_resolve_iff`: along a run, the sources of every committed promote that waits
  for its apply resolve in every state exactly when no promote names a source that is already gone
  (`finish`), no structural apply drops a named one, and no promote applied before turns one into a
  Delta.
* `PromoteActor.keepsNamed_of_keepsCaptured`: it is enough that no body leaves the index while a
  promote that captured it is outstanding, in flight or stashed.
* `PromoteActor.gated_apply_alone`: what the gate gives, over every run.
-/

namespace Elide

open List Pipeline SegmentEntry MapLayers ExtentIndex SegmentResult Formation AList Bool FrozenLayer

/-! ## Which bodies an apply leaves -/

variable (e : SegmentEntry)

/-- The sources a Delta entry names. -/
def SegmentEntry.sources : List Hash :=
  if e.kind = .delta then e.deltaOptions.map DeltaOption.sourceHash else []

/-- The first entry whose token is the location `loc` of `h` in the WAL turns it into a Delta. -/
def convertsBody (wal : Ulid) (moves : List (SegmentEntry × Option ℕ)) (h : Hash)
    (loc : ExtentLocation) : Bool :=
  decide (loc.segmentId = wal) &&
    (moves.find? fun p => decide (p.1.hash = h ∧ p.2 = some loc.bodyOffset) && p.1.movesBody).any
      fun p => decide (p.1.kind = .delta)

namespace SegmentResult

variable {part : SegmentResult} {wal : Ulid}

/-- **A whole segment, on the DATA map.** A body stays unless the first entry to hit it is a
Delta. -/
theorem isSome_lookup_foldlM (hseg : part.segmentUlid ≠ wal)
    (moves : List (SegmentEntry × Option ℕ)) (i : ℕ) (x : ExtentIndex) :
    ∃ y, (moves.zipIdx i).foldlM (fun index p => part.applyEntry wal index p.2 p.1.1 p.1.2) x =
        .ok y ∧
      ∀ h, (y.lookup h).isSome = (x.lookup h).any fun loc => !convertsBody wal moves h loc := by
  induction moves generalizing x i with
  | nil =>
    refine ⟨x, rfl, fun h => ?_⟩
    cases x.lookup h <;> simp [convertsBody]
  | cons p moves ih =>
    obtain ⟨y, hy, hmove⟩ := part.movesBody_applyEntry wal x i p.1 p.2
    obtain ⟨z, hz, hrest⟩ := ih (i + 1) y
    refine ⟨z, ?_, fun h => ?_⟩
    · rw [zipIdx_cons, foldlM_cons, hy]
      exact hz
    · rw [hrest h]
      by_cases hhit : p.1.Hits p.2 wal x h
      · -- the head decides: a Delta leaves no body, anything else one outside the WAL
        obtain ⟨hh, hm, off, htok, loc, hloc, hat, hoff⟩ := hhit
        rw [(hmove h).1 ⟨hh, hm, off, htok, loc, hloc, hat, hoff⟩, hloc]
        by_cases hk : p.1.kind = .delta
        · simp [convertsBody, hk, hat, hh, htok, hoff, hm]
        · simp [convertsBody, hk, hh, htok, hoff, hm, location, hseg]
      · rw [(hmove h).2 hhit]
        cases hloc : x.lookup h with
        | none => rfl
        | some loc =>
          by_cases hat : loc.segmentId = wal
          · have hskip : (decide (p.1.hash = h ∧ p.2 = some loc.bodyOffset) && p.1.movesBody) =
                false := by
              by_contra hcon
              simp only [not_eq_false, and_eq_true, decide_eq_true_eq] at hcon
              exact hhit ⟨hcon.1.1, hcon.2, _, hcon.1.2, loc, hloc, hat, rfl⟩
            simp only [Option.any_some, convertsBody, List.find?_cons, hskip]
          · simp [convertsBody, hat]

end SegmentResult

namespace PromoteResult

/-- Applied to `x`, the promote turns the body of `h` into a Delta. -/
def converts (r : PromoteResult) (x : ExtentIndex) (h : Hash) : Bool :=
  (x.lookup h).any
    (convertsBody r.oldWalUlid (r.primary.entries.zip r.primary.prePromoteOffsets) h)

/-- The segments are not the WAL, and the journal segment holds no Delta. -/
structure Plain (r : PromoteResult) : Prop where
  primary : r.primary.segmentUlid ≠ r.oldWalUlid
  journal : ∀ part, r.journal = some part →
    part.segmentUlid ≠ r.oldWalUlid ∧ ∀ e ∈ part.entries, e.kind ≠ .delta

/-- **A promote, on the DATA map.** -/
theorem Plain.isSome_lookup_apply {r : PromoteResult} (hr : r.Plain) (m : Maps) :
    ∃ m', applyPromotedEntries r m = .ok m' ∧ ∀ h, (m'.extentIndex.lookup h).isSome =
      ((m.extentIndex.lookup h).isSome && !r.converts m.extentIndex h) := by
  obtain ⟨y, hy, hprimary⟩ := isSome_lookup_foldlM hr.primary
    (r.primary.entries.zip r.primary.prePromoteOffsets) 0 m.extentIndex
  have hbody : ∀ h, (y.lookup h).isSome =
      ((m.extentIndex.lookup h).isSome && !r.converts m.extentIndex h) := by
    intro h
    rw [hprimary h, converts]
    cases m.extentIndex.lookup h <;> rfl
  have hpart : r.primary.applyPromotedPartition r.oldWalUlid m =
      .ok ⟨r.primary.restampClaims m.lbamap, y⟩ := by
    rw [applyPromotedPartition, hy]
    rfl
  cases hj : r.journal with
  | none =>
    refine ⟨⟨r.primary.restampClaims m.lbamap, y⟩, ?_, hbody⟩
    rw [applyPromotedEntries, hpart, hj]
    rfl
  | some part =>
    obtain ⟨hseg, hplain⟩ := hr.journal part hj
    obtain ⟨z, hz, hjournal⟩ := isSome_lookup_foldlM hseg
      (part.entries.zip part.prePromoteOffsets) 0 y
    refine ⟨⟨part.restampClaims (r.primary.restampClaims m.lbamap), z⟩, ?_, fun h => ?_⟩
    · rw [applyPromotedEntries, hpart, hj]
      show part.applyPromotedPartition r.oldWalUlid _ = _
      rw [applyPromotedPartition, hz]
      rfl
    · -- without a Delta nothing is converted
      have hno : ∀ loc, convertsBody r.oldWalUlid (part.entries.zip part.prePromoteOffsets) h loc =
          false := by
        intro loc
        rw [convertsBody, and_eq_false_iff]
        right
        cases hfind : (part.entries.zip part.prePromoteOffsets).find? _ with
        | none => rfl
        | some p => simpa using hplain p.1 (of_mem_zip (mem_of_find?_eq_some hfind)).1
      rw [hjournal h, ← hbody h]
      cases y.lookup h <;> simp [hno]

end PromoteResult

namespace MapLayers

/-- Drop the bodies of `removed` from `base`. -/
def dropBodies (l : MapLayers) (removed : List Hash) : MapLayers :=
  { l with base := { l.base with extentIndex := { l.base.extentIndex with
      inner := removed.foldl (fun inner h => inner.erase h) l.base.extentIndex.inner } } }

/-- What a structural apply does to the bodies: the layers below `floor` are folded into `base`, and
those of `removed` go. -/
def dropBelow (l : MapLayers) (floor : Ulid) (removed : List Hash) : MapLayers :=
  (l.swapBelow (l.belowUlid floor) floor).dropBodies removed

theorem locates_dropBodies {l : MapLayers} {removed : List Hash} {h : Hash} :
    (l.dropBodies removed).locates h = true ↔ (l.delta.extentIndex.lookup h).isSome = true ∨
        (∃ layer ∈ l.frozen, (layer.maps.extentIndex.lookup h).isSome = true) ∨
        ((l.base.extentIndex.lookup h).isSome = true ∧ h ∉ removed) := by
  have hlookup : ∀ inner : AList fun _ : Hash => ExtentLocation,
      ((removed.foldl (fun inner h => inner.erase h) inner).lookup h).isSome = true ↔
        (inner.lookup h).isSome = true ∧ h ∉ removed := by
    induction removed with
    | nil => simp
    | cons k removed ih =>
      intro inner
      rw [foldl_cons, ih, lookup_erase_ite]
      split_ifs with hk <;> simp [hk]
  rw [locates_iff]
  exact or_congr_right (or_congr_right (hlookup l.base.extentIndex.inner))

/-- Some layer at or above `floor` has a body for `h`. -/
def locatesFrom (l : MapLayers) (floor : Ulid) (h : Hash) : Prop :=
  (l.delta.extentIndex.lookup h).isSome = true ∨
    ∃ layer ∈ l.frozen, floor ≤ layer.walUlid ∧ (layer.maps.extentIndex.lookup h).isSome = true

/-- A body below `floor` goes if it is in `removed`. -/
theorem locates_dropBelow {l : MapLayers} {floor : Ulid} {removed : List Hash} {h : Hash} :
    (l.dropBelow floor removed).locates h = true ↔
      l.locatesFrom floor h ∨ (l.locates h = true ∧ h ∉ removed) := by
  have hfrozen : (∃ layer ∈ (l.swapBelow (l.belowUlid floor) floor).frozen,
      (layer.maps.extentIndex.lookup h).isSome = true) ↔
      ∃ layer ∈ l.frozen, floor ≤ layer.walUlid ∧
        (layer.maps.extentIndex.lookup h).isSome = true := by
    constructor
    · rintro ⟨layer, hlayer, hb⟩
      obtain ⟨hmem, hle⟩ := mem_filter.mp hlayer
      exact ⟨layer, hmem, of_decide_eq_true hle, hb⟩
    · rintro ⟨layer, hmem, hle, hb⟩
      exact ⟨layer, mem_filter.mpr ⟨hmem, decide_eq_true hle⟩, hb⟩
  have hbelow : ((l.swapBelow (l.belowUlid floor) floor).base.extentIndex.lookup h).isSome = true ↔
      (l.base.extentIndex.lookup h).isSome = true ∨ ∃ layer ∈ l.frozen, layer.walUlid < floor ∧
        (layer.maps.extentIndex.lookup h).isSome = true := isSome_lookup_belowUlid_iff
  rw [dropBelow, locates_dropBodies, hfrozen, hbelow, locates_iff]
  constructor
  · rintro (hd | hf | ⟨hb | ⟨layer, hlayer, -, hb⟩, hno⟩)
    · exact .inl (.inl hd)
    · exact .inl (.inr hf)
    · exact .inr ⟨.inr (.inr hb), hno⟩
    · exact .inr ⟨.inr (.inl ⟨layer, hlayer, hb⟩), hno⟩
  · rintro ((hd | hf) | ⟨hd | ⟨layer, hlayer, hb⟩ | hb, hno⟩)
    · exact .inl hd
    · exact .inr (.inl hf)
    · exact .inl hd
    · rcases lt_or_ge layer.walUlid floor with hlt | hge
      · exact .inr (.inr ⟨.inr ⟨layer, hlayer, hlt, hb⟩, hno⟩)
      · exact .inr (.inl ⟨layer, hlayer, hge, hb⟩)
    · exact .inr (.inr ⟨.inl hb, hno⟩)

theorem frozen_dropBelow {l : MapLayers} (floor : Ulid) (removed : List Hash) :
    (l.dropBelow floor removed).frozen.Sublist l.frozen := filter_sublist

end MapLayers

/-! ## The actor -/

/-- The structural applies of the actor. -/
inductive StructuralApply
  /-- `apply_or_defer_gc_plan`: the ULID of the plan, its inputs and the blocks its output claims. -/
  | gcPlan (newUlid : Ulid) (inputs : Finset Ulid) (covered : Finset ℕ)
  /-- `apply_repack_and_publish` of a `CloseGeneration` result. -/
  | closeGeneration
  /-- `handle_reap`. -/
  | reap
  deriving DecidableEq

namespace StructuralApply

/-- Whether the actor holds the apply back while promotes are in flight. -/
def gated : StructuralApply → Bool
  | .gcPlan .. | .reap => true
  | .closeGeneration => false

/-- The layers below are folded in: a GC plan's go up to its ULID, the others work on `base`. -/
def floor : StructuralApply → Ulid
  | .gcPlan newUlid .. => newUlid
  | .closeGeneration | .reap => 0

/-- The fold refuses a GC plan if below its ULID one of its inputs still claims a block for a body it
drops, and its output does not cover the block. -/
def Drops (kind : StructuralApply) (layers : MapLayers) (h : Hash) : Prop :=
  match kind with
  | .gcPlan newUlid inputs covered => ∀ lba offset claimant,
      (layers.belowUlid newUlid).lbamap.lookupWithClaimant lba = some (h, offset, claimant) →
        claimant ∈ inputs → lba ∈ covered
  | .closeGeneration | .reap => True

end StructuralApply

/-- The actor, its worker and the files, as far as delta sources depend on them. -/
structure PromoteActor where
  vol : Volume
  pipeline : Pipeline PromoteJob PromoteResult
  /-- The segment and WAL files on disk. -/
  files : Finset Ulid

namespace PromoteActor

/-- The events of the actor's loop that bear on the maps. -/
inductive Action
  /-- A guest write or zero. -/
  | commit (c : Commit)
  /-- Take the open WAL into a promote and dispatch it. -/
  | take (segmentUlid journalSegmentUlid nextWal : Ulid) (derived : Option JournalRanges)
      (sent : Bool)
  | retry (sent : Bool)
  | start
  /-- The running promote commits its segments. -/
  | finish (f : Formation)
  | fail
  /-- The actor handles the oldest result; a successful promote is folded and swapped in. -/
  | settle
  /-- A structural apply drops the bodies of `removed` from the index. -/
  | structural (kind : StructuralApply) (removed : List Hash)
  /-- A segment or WAL file is deleted. -/
  | unlink (file : Ulid)

/-- `fold_promote_result` and its swap. A fold that fails changes nothing. -/
def applyPromote (layers : MapLayers) (r : PromoteResult) : MapLayers :=
  match foldPromoteResult layers r with
  | .ok newBase => layers.swapPromote newBase r.oldWalUlid
  | .error _ => layers

variable (s : PromoteActor)

/-- The maps after the oldest result is handled. -/
def settledMaps : MapLayers :=
  match s.pipeline.results with
  | (_, some r) :: _ => applyPromote s.vol.maps r
  | _ => s.vol.maps

/-- The files a formation leaves on disk. An empty primary partition writes none. -/
def committedFiles (r : PromoteResult) : Finset Ulid :=
  (if r.primary.entries.isEmpty then ∅ else {r.primary.segmentUlid}) ∪
    r.journal.elim ∅ fun part => {part.segmentUlid}

/-- One event. -/
def step : Action → PromoteActor
  | .commit c => { s with vol := s.vol.commit c, files := insert s.vol.wal s.files }
  | .take segmentUlid journalSegmentUlid nextWal derived sent =>
    let job := s.vol.takeWalIntoPromoteJob segmentUlid journalSegmentUlid derived
    { s with
      vol := { maps := job.layers, wal := nextWal, pending := [], journal := job.journalRanges }
      pipeline := s.pipeline.sendPromoteJob job sent }
  | .retry sent => { s with pipeline := s.pipeline.retryFailedPromote sent }
  | .start => { s with pipeline := s.pipeline.start }
  | .finish f =>
    match s.pipeline.running with
    | none => s
    | some job =>
      { s with
        pipeline := s.pipeline.finish (some (f.executePromote job))
        files := s.files ∪ committedFiles (f.executePromote job) }
  | .fail => { s with pipeline := s.pipeline.finish none }
  | .settle =>
    { s with vol := { s.vol with maps := s.settledMaps }, pipeline := s.pipeline.settle }
  | .structural kind removed =>
    { s with vol := { s.vol with maps := s.vol.maps.dropBelow kind.floor removed } }
  | .unlink file => { s with files := s.files.erase file }

/-- What the rest of the code guarantees of a step. ULIDs are minted in order. A formation reads
bodies on disk. A structural apply drops only what no claim and no recorded encoding names and its
fold does not refuse, and a gated one runs only while no promote is in flight. -/
def Legal : Action → Prop
  | .take segmentUlid journalSegmentUlid nextWal .. =>
    s.vol.wal < segmentUlid ∧ segmentUlid < journalSegmentUlid ∧ journalSegmentUlid < nextWal
  | .finish f => ∀ loc, f.readable loc = true → loc.segmentId ∈ s.files
  | .structural kind removed =>
    (kind.gated = true → s.pipeline.promotesInFlight = 0) ∧
      ∀ h ∈ removed, s.vol.maps.materialised.lbamap.isReferenced h = false ∧
        s.vol.maps.materialised.extentIndex.isNamedDeltaSource h = false ∧ kind.Drops s.vol.maps h
  | _ => True

/-- The sources that the Deltas of a committed promote name. -/
def sourcesOf (r : PromoteResult) : List Hash :=
  (r.primary.entries ++ r.journal.elim [] entries).flatMap sources

/-- The sources that committed and unapplied promotes name. -/
def sourcesIn (results : List (PromoteJob × Option PromoteResult)) : List Hash :=
  results.flatMap fun p => p.2.elim [] sourcesOf

/-- Every source of every committed promote that waits for its apply has a body in the maps. -/
def NamedResolve : Prop :=
  ∀ h ∈ sourcesIn s.pipeline.results, s.vol.maps.locates h = true

/-- When a promote is applied, every source it names has a body in the maps. -/
def AppliesResolve (a : Action) : Prop :=
  a = .settle → ∀ job r rest, s.pipeline.results = (job, some r) :: rest →
    ∀ h ∈ sourcesOf r, s.vol.maps.locates h = true

/-- The step leaves every named source its body. -/
def KeepsNamed : Action → Prop
  -- no write is converted against a source that is gone by now
  | .finish f => ∀ job, s.pipeline.running = some job →
      ∀ w ∈ job.pending, ∀ h, f.deltaSource job w = some h → s.vol.maps.locates h = true
  -- nothing dropped below is named, unless a layer above holds it too
  | .structural kind removed => ∀ h ∈ sourcesIn s.pipeline.results, h ∈ removed →
      s.vol.maps.locatesFrom kind.floor h
  -- the promote applied now turns no source of the ones behind it into a Delta
  | .settle => ∀ job r rest, s.pipeline.results = (job, some r) :: rest →
      ∀ h ∈ sourcesIn rest, s.vol.maps.locatesAbove r.oldWalUlid h = true ∨
        r.converts (s.vol.maps.promoteBase r.oldWalUlid).extentIndex h = false
  | _ => True

/-! ### What a run keeps -/

/-- A promote taken from a volume of this actor. -/
structure JobOk (job : PromoteJob) : Prop where
  segment : job.oldWalUlid < job.segmentUlid
  journal : job.oldWalUlid < job.journalSegmentUlid
  plain : ∀ w ∈ job.pending, w.Plain

/-- The invariant of a run. -/
structure Ok (s : PromoteActor) : Prop where
  frozen : (s.vol.maps.frozen.map walUlid).Nodup
  frozen_lt : ∀ layer ∈ s.vol.maps.frozen, layer.walUlid < s.vol.wal
  plain : ∀ w ∈ s.vol.pending, w.Plain
  jobs : ∀ job ∈ s.pipeline.outstanding, JobOk job
  results : ∀ job r, (job, some r) ∈ s.pipeline.results → ∃ f : Formation, r = f.executePromote job

/-! ### Forming -/

theorem sources_shape (e : SegmentEntry) : e.shape.sources = e.sources := by
  simp [sources, shape, Function.comp_def]

variable {job : PromoteJob} {w : PendingWrite}

theorem kind_stagedWrite_ne_delta (hw : w.Plain) : (job.stagedWrite w).entry.kind ≠ .delta := by
  rw [job.kind_stagedWrite]
  split_ifs
  · decide
  · rcases hw.kind with h | h | h
    · rw [h]; decide
    · rw [h]; decide
    · rw [h.1]; decide

/-- The entry of a write names the source the write is converted against. -/
theorem sources_shapeOf (f : Formation) (hw : w.Plain) :
    (f.shapeOf job w).sources = (f.deltaSource job w).toList := by
  rw [shapeOf]
  cases f.deltaSource job w with
  | some source =>
    simp [sources, against, shape, PromoteJob.options_stagedWrite hw]
  | none => exact if_neg (kind_stagedWrite_ne_delta hw)

theorem flatMap_sources {f : Formation} (hj : JobOk job) {ws : List PendingWrite}
    (hws : ∀ w ∈ ws, w ∈ job.pending) {entries : List SegmentEntry}
    (hshape : entries.map shape = ws.map (f.shapeOf job)) :
    entries.flatMap sources = ws.flatMap fun w => (f.deltaSource job w).toList := by
  calc entries.flatMap sources
      = (entries.map shape).flatMap sources := by
        rw [flatMap_map]
        exact flatMap_congr fun e _ => (sources_shape e).symm
    _ = ws.flatMap fun w => (f.deltaSource job w).toList := by
        rw [hshape, flatMap_map]
        exact flatMap_congr fun w hw => sources_shapeOf f (hj.plain w (hws w hw))

/-- **What a committed promote names**: the sources its writes were converted against. -/
theorem mem_sourcesOf_executePromote (hj : JobOk job) (f : Formation) (h : Hash) :
    h ∈ sourcesOf (f.executePromote job) ↔ ∃ w ∈ job.pending, f.deltaSource job w = some h := by
  have hinside : ∀ w, job.inside w = true → f.deltaSource job w = none :=
    fun w hw => if_pos hw
  rw [sourcesOf, flatMap_append, mem_append,
    flatMap_sources hj (fun w hw => (mem_filter.mp hw).1) (f.shape_primary job).1]
  simp only [mem_flatMap, mem_filter, Option.mem_toList]
  constructor
  · rintro (⟨w, hw, hsrc⟩ | hjournal)
    · exact ⟨w, hw.1, hsrc⟩
    · rcases f.shape_journal job with ⟨-, hnone⟩ | ⟨-, part, hpart, -, hshape, -⟩
      · simp [hnone] at hjournal
      · rw [hpart] at hjournal
        have hmem : h ∈ part.entries.flatMap sources := mem_flatMap.mpr hjournal
        rw [flatMap_sources hj (fun w hw => (mem_filter.mp hw).1) hshape] at hmem
        obtain ⟨w, hw, hsrc⟩ := mem_flatMap.mp hmem
        rw [hinside w (mem_filter.mp hw).2] at hsrc
        cases hsrc
  · rintro ⟨w, hw, hsrc⟩
    refine .inl ⟨w, ⟨hw, ?_⟩, hsrc⟩
    cases hin : job.inside w with
    | false => rfl
    | true => rw [hinside w hin] at hsrc; cases hsrc

theorem plain_executePromote (hj : JobOk job) (f : Formation) :
    (f.executePromote job).Plain where
  primary := (Nat.ne_of_lt hj.segment).symm
  journal := by
    intro part hpart
    rcases f.shape_journal job with ⟨-, hnone⟩ | ⟨-, part', hpart', hulid, hshape, -⟩
    · cases hnone.symm.trans hpart
    obtain rfl : part' = part := Option.mem_unique hpart' hpart
    refine ⟨hulid ▸ (Nat.ne_of_lt hj.journal).symm, fun e he => ?_⟩
    obtain ⟨w, hw, heq⟩ := mem_map.mp (hshape ▸ mem_map_of_mem he)
    obtain ⟨hmem, hin⟩ := mem_filter.mp hw
    show e.shape.kind ≠ .delta
    rw [← heq, shapeOf, deltaSource, if_pos hin]
    exact kind_stagedWrite_ne_delta (hj.plain w hmem)

/-! ### One step -/

variable {h : Hash}

theorem locates_commit (v : Volume) (c : Commit) (hv : v.maps.locates h = true) :
    (v.commit c).maps.locates h = true := by
  obtain ⟨-, hbase, hfrozen⟩ := v.commit_frame c
  rw [locates_iff] at hv ⊢
  rw [hfrozen, hbase]
  exact hv.imp_left (v.isSome_lookup_commit c)

theorem frozen_applyPromote (layers : MapLayers) (r : PromoteResult) :
    (applyPromote layers r).frozen.Sublist layers.frozen := by
  unfold applyPromote
  split
  · exact filter_sublist
  · exact List.Sublist.refl _

theorem frozen_settledMaps : s.settledMaps.frozen.Sublist s.vol.maps.frozen := by
  unfold settledMaps
  split
  · exact frozen_applyPromote _ _
  · exact List.Sublist.refl _

namespace Ok

variable {s : PromoteActor}

/-- A step that moves jobs through the pipeline and leaves the volume alone. -/
theorem of_pipeline (h : s.Ok) {p : Pipeline PromoteJob PromoteResult} {files : Finset Ulid}
    (hout : ∀ job ∈ p.outstanding, JobOk job)
    (hres : ∀ job r, (job, some r) ∈ p.results → ∃ f : Formation, r = f.executePromote job) :
    Ok { s with pipeline := p, files } :=
  ⟨h.frozen, h.frozen_lt, h.plain, hout, hres⟩

theorem take (h : s.Ok) {segmentUlid journalSegmentUlid nextWal : Ulid}
    {derived : Option JournalRanges} {sent : Bool}
    (hl : s.Legal (.take segmentUlid journalSegmentUlid nextWal derived sent)) :
    (s.step (.take segmentUlid journalSegmentUlid nextWal derived sent)).Ok := by
  obtain ⟨hseg, hjseg, hnext⟩ := hl
  have hwal : s.vol.wal < nextWal := hseg.trans (hjseg.trans hnext)
  refine ⟨?_, ?_, by simp [step], ?_, ?_⟩
  · show ((s.vol.maps.freeze s.vol.wal).frozen.map walUlid).Nodup
    rcases s.vol.maps.frozen_freeze s.vol.wal with heq | heq
    · exact heq ▸ h.frozen
    · rw [heq, map_append, nodup_append]
      refine ⟨h.frozen, nodup_singleton _, ?_⟩
      intro u hu u' hu'
      obtain ⟨layer, hlayer, rfl⟩ := mem_map.mp hu
      rw [mem_singleton.mp hu']
      exact Nat.ne_of_lt (h.frozen_lt layer hlayer)
  · exact forall_mem_freeze _ (fun layer hlayer => (h.frozen_lt layer hlayer).trans hwal) hwal
  · intro job hjob
    rcases mem_outstanding_sendPromoteJob.mp hjob with rfl | hjob
    · exact ⟨hseg, hseg.trans hjseg, h.plain⟩
    · exact h.jobs job hjob
  · intro job r hres
    exact h.results job r (by simpa [step] using hres)

theorem finish (h : s.Ok) (f : Formation) : (s.step (.finish f)).Ok := by
  simp only [step]
  cases hrun : s.pipeline.running with
  | none => exact h
  | some job =>
    refine h.of_pipeline (fun j hj => h.jobs j (mem_outstanding_finish.mp hj)) ?_
    intro j r hres
    rcases mem_results_finish hres with hres | ⟨hj, hr⟩
    · exact h.results j r hres
    · obtain rfl : job = j := Option.mem_unique hrun hj
      exact ⟨f, Option.some.inj hr⟩

theorem fail (h : s.Ok) : (s.step .fail).Ok := by
  refine h.of_pipeline (fun j hj => h.jobs j (mem_outstanding_finish.mp hj)) ?_
  intro j r hres
  rcases mem_results_finish hres with hres | ⟨-, hr⟩
  · exact h.results j r hres
  · cases hr

theorem settle (h : s.Ok) : (s.step .settle).Ok where
  frozen := h.frozen.sublist ((frozen_settledMaps s).map _)
  frozen_lt := fun layer hlayer => h.frozen_lt layer ((frozen_settledMaps s).mem hlayer)
  plain := h.plain
  jobs := fun job hjob => h.jobs job (mem_outstanding_of_mem_settle hjob)
  results := fun job r hres => h.results job r (mem_results_of_mem_settle hres)

theorem step (h : s.Ok) {a : Action} (hl : s.Legal a) : (s.step a).Ok := by
  cases a with
  | commit c =>
    obtain ⟨hwal, -, hfrozen⟩ := s.vol.commit_frame c
    refine ⟨?_, ?_, Volume.plain_commit h.plain c, h.jobs, h.results⟩
    · show ((s.vol.commit c).maps.frozen.map walUlid).Nodup
      rw [hfrozen]
      exact h.frozen
    · show ∀ layer ∈ (s.vol.commit c).maps.frozen, layer.walUlid < (s.vol.commit c).wal
      rw [hfrozen, hwal]
      exact h.frozen_lt
  | take segmentUlid journalSegmentUlid nextWal derived sent => exact h.take hl
  | retry sent =>
    refine h.of_pipeline (fun j hj => h.jobs j (mem_outstanding_retryFailedPromote.mp hj))
      fun j r hres => h.results j r (by simpa using hres)
  | start =>
    refine h.of_pipeline (fun j hj => h.jobs j (mem_outstanding_start.mp hj))
      fun j r hres => h.results j r (by simpa using hres)
  | finish f => exact h.finish f
  | fail => exact h.fail
  | settle => exact h.settle
  | structural kind removed =>
    have hfrozen := frozen_dropBelow (l := s.vol.maps) kind.floor removed
    exact ⟨h.frozen.sublist (hfrozen.map _), fun layer hlayer => h.frozen_lt layer (hfrozen.mem hlayer),
      h.plain, h.jobs, h.results⟩
  | unlink => exact ⟨h.frozen, h.frozen_lt, h.plain, h.jobs, h.results⟩

theorem plain_result (h : s.Ok) {job : PromoteJob} {r : PromoteResult}
    (hmem : (job, some r) ∈ s.pipeline.results) : r.Plain := by
  obtain ⟨f, rfl⟩ := h.results job r hmem
  exact plain_executePromote (h.jobs job (mem_outstanding_of_result hmem)) f

end Ok

variable {s : PromoteActor}

theorem mem_sourcesIn {results : List (PromoteJob × Option PromoteResult)} :
    h ∈ sourcesIn results ↔ ∃ job r, (job, some r) ∈ results ∧ h ∈ sourcesOf r := by
  rw [sourcesIn, mem_flatMap]
  constructor
  · rintro ⟨⟨job, r⟩, hmem, hh⟩
    cases r with
    | none => cases hh
    | some r => exact ⟨job, r, hmem, hh⟩
  · rintro ⟨job, r, hmem, hh⟩
    exact ⟨(job, some r), hmem, hh⟩

/-- What is left after a promote is applied: a body in another layer, or one in `base` or the
promote's own layer that it does not convert. -/
theorem locates_applyPromote {layers : MapLayers} {r : PromoteResult} (hr : r.Plain) :
    (applyPromote layers r).locates h = true ↔ layers.locatesAbove r.oldWalUlid h = true ∨
        (((layers.promoteBase r.oldWalUlid).extentIndex.lookup h).isSome = true ∧
          r.converts (layers.promoteBase r.oldWalUlid).extentIndex h = false) := by
  obtain ⟨m, hm, hlookup⟩ := hr.isSome_lookup_apply (layers.promoteBase r.oldWalUlid)
  have happly : applyPromote layers r = layers.swapPromote m r.oldWalUlid := by
    rw [applyPromote, foldPromoteResult, foldPromote_eq, hm]
  rw [happly, locates_swapPromote, hlookup, and_eq_true, not_eq_true']

section

variable (hn : s.NamedResolve)
include hn

/-- A step that reports no new promote and takes no body away. -/
theorem NamedResolve.of_subset {t : PromoteActor}
    (hres : ∀ job r, (job, some r) ∈ t.pipeline.results → (job, some r) ∈ s.pipeline.results)
    (hmaps : ∀ k, s.vol.maps.locates k = true → t.vol.maps.locates k = true) : t.NamedResolve := by
  intro k hk
  obtain ⟨job, r, hmem, hr⟩ := mem_sourcesIn.mp hk
  exact hmaps k (hn k (mem_sourcesIn.mpr ⟨job, r, hres job r hmem, hr⟩))

theorem namedResolve_settle_iff (h : s.Ok) :
    (s.step .settle).NamedResolve ↔ s.KeepsNamed .settle := by
  match hres : s.pipeline.results with
  | [] | (job, none) :: rest =>
    refine iff_of_true (hn.of_subset (fun _ _ => mem_results_of_mem_settle) fun k hk => ?_)
      fun job r rest hcons => ?_
    · show s.settledMaps.locates k = true
      rwa [settledMaps, hres]
    · rw [hres] at hcons
      cases hcons
  | (job, some r) :: rest =>
    have hmem : (job, some r) ∈ s.pipeline.results := by rw [hres]; exact mem_cons_self
    have hplain := h.plain_result hmem
    have hrest : s.pipeline.settle.results = rest := by rw [settle, hres]
    -- every source was held somewhere, so only the conversion can take it away
    have hiff : ∀ k ∈ sourcesIn rest, (applyPromote s.vol.maps r).locates k = true ↔
        s.vol.maps.locatesAbove r.oldWalUlid k = true ∨
          r.converts (s.vol.maps.promoteBase r.oldWalUlid).extentIndex k = false := by
      intro k hk
      have hbefore : s.vol.maps.locates k = true := by
        refine hn k ?_
        rw [hres, mem_sourcesIn]
        obtain ⟨j, r', hj, hk'⟩ := mem_sourcesIn.mp hk
        exact ⟨j, r', mem_cons_of_mem _ hj, hk'⟩
      rw [locates_applyPromote hplain]
      rcases (locates_iff_promoteBase h.frozen r.oldWalUlid k).mp hbefore with hb | hb
      · exact iff_of_true (.inl hb) (.inl hb)
      · rw [and_iff_right hb]
    have hnext : (s.step .settle).NamedResolve ↔
        ∀ k ∈ sourcesIn rest, (applyPromote s.vol.maps r).locates k = true := by
      show (∀ k ∈ sourcesIn s.pipeline.settle.results, s.settledMaps.locates k = true) ↔ _
      rw [hrest, settledMaps, hres]
    have hkeeps : s.KeepsNamed .settle ↔ ∀ k ∈ sourcesIn rest,
        s.vol.maps.locatesAbove r.oldWalUlid k = true ∨
          r.converts (s.vol.maps.promoteBase r.oldWalUlid).extentIndex k = false := by
      simp [KeepsNamed, hres]
    rw [hnext, hkeeps]
    exact forall₂_congr hiff

theorem namedResolve_finish_iff (h : s.Ok) (f : Formation) :
    (s.step (.finish f)).NamedResolve ↔ s.KeepsNamed (.finish f) := by
  cases hrun : s.pipeline.running with
  | none =>
    have hsame : s.step (.finish f) = s := by rw [step, hrun]
    rw [hsame]
    refine iff_of_true hn fun job hjob => ?_
    rw [hrun] at hjob
    cases hjob
  | some job =>
    have hj := h.jobs job (mem_outstanding_of_running hrun)
    have hmaps : (s.step (.finish f)).vol.maps = s.vol.maps := by rw [step, hrun]
    have hres : (s.step (.finish f)).pipeline.results =
        s.pipeline.results ++ [(job, some (f.executePromote job))] := by
      simp [step, hrun, finish]
    have hsources : ∀ k, k ∈ sourcesIn (s.step (.finish f)).pipeline.results ↔
        k ∈ sourcesIn s.pipeline.results ∨ ∃ w ∈ job.pending, f.deltaSource job w = some k := by
      intro k
      rw [hres, sourcesIn, flatMap_append, mem_append, flatMap_singleton,
        ← mem_sourcesOf_executePromote hj f k]
      rfl
    rw [NamedResolve, hmaps]
    constructor
    · intro hnext j hjob w hw k hk
      obtain rfl : job = j := Option.mem_unique hrun hjob
      exact hnext k ((hsources k).mpr (.inr ⟨w, hw, hk⟩))
    · intro hkeeps k hk
      rcases (hsources k).mp hk with hold | ⟨w, hw, hk⟩
      · exact hn k hold
      · exact hkeeps job hrun w hw k hk

theorem namedResolve_structural_iff (kind : StructuralApply) (removed : List Hash) :
    (s.step (.structural kind removed)).NamedResolve ↔ s.KeepsNamed (.structural kind removed) := by
  refine forall₂_congr fun k hk => ?_
  show (s.vol.maps.dropBelow kind.floor removed).locates k = true ↔ _
  rw [locates_dropBelow]
  by_cases hr : k ∈ removed
  · simp [hr]
  · exact iff_of_true (.inr ⟨hn k hk, hr⟩) fun hin => absurd hin hr

theorem namedResolve_step_iff (h : s.Ok) (a : Action) :
    (s.step a).NamedResolve ↔ s.KeepsNamed a := by
  cases a with
  | commit c =>
    refine iff_of_true (hn.of_subset (fun _ _ hmem => hmem) fun k hk => ?_) trivial
    exact locates_commit s.vol c hk
  | take segmentUlid journalSegmentUlid nextWal derived sent =>
    refine iff_of_true (hn.of_subset ?_ ?_) trivial
    · simp [step]
    · intro k hk
      exact locates_freeze.trans hk
  | retry | start =>
    refine iff_of_true (hn.of_subset ?_ fun _ hk => hk) trivial
    simp [step]
  | finish f => exact namedResolve_finish_iff hn h f
  | fail =>
    refine iff_of_true (hn.of_subset ?_ fun _ hk => hk) trivial
    intro job r hmem
    rcases mem_results_finish hmem with hmem | ⟨-, hr⟩
    · exact hmem
    · cases hr
  | settle => exact namedResolve_settle_iff hn h
  | structural kind removed => exact namedResolve_structural_iff hn kind removed
  | unlink file => exact iff_of_true hn trivial

end

/-- **When every source is still there.** Along any run the gates allow, from an actor with an
empty pipeline, the sources of every committed promote that waits for its apply have a body in
every state exactly when no promote is converted against a source that is gone, no structural
apply drops a named one, and no promote turns a source of a later one into a Delta. Then every
promote finds its sources when it is applied. -/
theorem named_resolve_iff (hs : s.Ok) (hp : s.pipeline = .empty) {as : List Action}
    (hl : Run.Each step Legal s as) :
    (Run.Always step NamedResolve s as ↔ Run.Each step KeepsNamed s as) ∧
      (Run.Each step KeepsNamed s as → Run.Each step AppliesResolve s as) := by
  have hn : s.NamedResolve := by simp [NamedResolve, hp, empty, sourcesIn]
  have hiff : Run.Always step NamedResolve s as ↔ Run.Each step KeepsNamed s as :=
    Run.always_iff_each (fun _ _ h hla => h.step hla)
      (fun _ a h _ hn => namedResolve_step_iff hn h a) hs hn hl
  refine ⟨hiff, fun hkeeps => (hiff.mpr hkeeps).each fun t a ht _ job r rest hres k hk => ?_⟩
  exact ht k (mem_sourcesIn.mpr ⟨job, r, by rw [hres]; exact mem_cons_self, hk⟩)

/-! ### What a gate over the stash would keep -/

/-- No body leaves the index that an outstanding promote captured. -/
def KeepsCaptured (s : PromoteActor) : Action → Prop
  | .structural kind removed => ∀ job ∈ s.pipeline.outstanding, ∀ h ∈ removed,
      job.layers.locates h = true → s.vol.maps.locatesFrom kind.floor h
  | .settle => ∀ job r rest, s.pipeline.results = (job, some r) :: rest →
      ∀ job' ∈ s.pipeline.settle.outstanding, ∀ h, job'.layers.locates h = true →
        s.vol.maps.locatesAbove r.oldWalUlid h = true ∨
          r.converts (s.vol.maps.promoteBase r.oldWalUlid).extentIndex h = false
  | _ => True

/-- Every body an outstanding promote captured is still there. -/
def Captured (s : PromoteActor) : Prop :=
  ∀ job ∈ s.pipeline.outstanding, ∀ h, job.layers.locates h = true → s.vol.maps.locates h = true

/-- A source is chosen out of the captured layers. -/
theorem locates_of_deltaSource {f : Formation} (hsrc : f.deltaSource job w = some h) :
    job.layers.locates h = true := by
  rw [deltaSource] at hsrc
  split_ifs at hsrc
  have hsome := isSome_lookup_of_tierSource hsrc
  rw [lookup_materialised] at hsome
  simp only [Option.isSome_or, or_eq_true, List.findSome?_isSome_iff, mem_map,
    exists_exists_and_eq_and] at hsome
  rw [locates_iff]
  exact hsome.elim (fun hb => .inr (.inr hb)) fun hrest =>
    hrest.elim (fun hf => .inr (.inl hf)) .inl

/-- A committed promote names what it captured. -/
theorem Ok.captured_of_named (h : s.Ok) {k : Hash}
    {results : List (PromoteJob × Option PromoteResult)}
    (hsub : ∀ p ∈ results, p ∈ s.pipeline.results) (hk : k ∈ sourcesIn results) :
    ∃ job r, (job, some r) ∈ results ∧ job.layers.locates k = true := by
  obtain ⟨job, r, hmem, hr⟩ := mem_sourcesIn.mp hk
  obtain ⟨f, rfl⟩ := h.results job r (hsub _ hmem)
  have hj := h.jobs job (mem_outstanding_of_result (hsub _ hmem))
  obtain ⟨w, -, hsrc⟩ := (mem_sourcesOf_executePromote hj f k).mp hr
  exact ⟨job, _, hmem, locates_of_deltaSource hsrc⟩

theorem keepsNamed_of_captured (h : s.Ok) (hc : s.Captured) {a : Action}
    (ha : s.KeepsCaptured a) : s.KeepsNamed a := by
  cases a with
  | finish f =>
    intro job hrun w _ k hsrc
    exact hc job (mem_outstanding_of_running hrun) k (locates_of_deltaSource hsrc)
  | structural kind removed =>
    intro k hk hrem
    obtain ⟨job, r, hmem, hcap⟩ := h.captured_of_named (fun _ hp => hp) hk
    exact ha job (mem_outstanding_of_result hmem) k hrem hcap
  | settle =>
    intro job r rest hres k hk
    have hsettled : s.pipeline.settle.results = rest := by rw [settle, hres]
    obtain ⟨job', r', hmem, hcap⟩ := h.captured_of_named
      (fun p hp => hres ▸ mem_cons_of_mem _ hp) hk
    refine ha job r rest hres job' (mem_outstanding_of_result (r := some r') ?_) k hcap
    rw [hsettled]
    exact hmem
  | commit | take | retry | start | fail | unlink => trivial

/-- A step that takes no body away and outstands no new promote keeps what is captured. -/
theorem Captured.of_subset {t : PromoteActor} (hc : s.Captured)
    (hout : ∀ job ∈ t.pipeline.outstanding, job ∈ s.pipeline.outstanding)
    (hmaps : ∀ k, s.vol.maps.locates k = true → t.vol.maps.locates k = true) : t.Captured :=
  fun job hjob k hk => hmaps k (hc job (hout job hjob) k hk)

theorem Captured.settle (h : s.Ok) (hc : s.Captured) (ha : s.KeepsCaptured .settle) :
    (s.step .settle).Captured := by
  intro job' hjob' k hk
  have hbefore := hc job' (mem_outstanding_of_mem_settle hjob') k hk
  show s.settledMaps.locates k = true
  unfold settledMaps
  split
  case h_1 job r rest hres =>
    have hmem : (job, some r) ∈ s.pipeline.results := by rw [hres]; exact mem_cons_self
    rw [locates_applyPromote (h.plain_result hmem)]
    rcases (locates_iff_promoteBase h.frozen r.oldWalUlid k).mp hbefore with hb | hb
    · exact .inl hb
    · exact (ha job r rest hres job' hjob' k hk).imp_right fun hno => ⟨hb, hno⟩
  case h_2 => exact hbefore

theorem Captured.step (h : s.Ok) (hc : s.Captured) {a : Action} (ha : s.KeepsCaptured a) :
    (s.step a).Captured := by
  cases a with
  | commit c => exact hc.of_subset (fun _ hj => hj) fun k hk => locates_commit s.vol c hk
  | take segmentUlid journalSegmentUlid nextWal derived sent =>
    intro job hjob k hk
    rcases mem_outstanding_sendPromoteJob.mp hjob with rfl | hjob
    · exact hk
    · exact locates_freeze.trans (hc job hjob k hk)
  | retry sent =>
    refine hc.of_subset (fun job hj => ?_) fun _ hk => hk
    exact mem_outstanding_retryFailedPromote.mp hj
  | start =>
    refine hc.of_subset (fun job hj => ?_) fun _ hk => hk
    exact mem_outstanding_start.mp hj
  | finish f =>
    refine hc.of_subset (fun job hj => ?_) fun k hk => ?_
    · simp only [PromoteActor.step] at hj
      split at hj
      · exact hj
      · exact mem_outstanding_finish.mp hj
    · simp only [PromoteActor.step]
      split <;> exact hk
  | fail =>
    refine hc.of_subset (fun job hj => ?_) fun _ hk => hk
    exact mem_outstanding_finish.mp hj
  | settle => exact hc.settle h ha
  | structural kind removed =>
    intro job hjob k hk
    refine locates_dropBelow.mpr ?_
    by_cases hrem : k ∈ removed
    · exact .inl (ha job hjob k hrem hk)
    · exact .inr ⟨hc job hjob k hk, hrem⟩
  | unlink file => exact hc

/-- **A gate over every outstanding promote suffices.** Along a run in which no body leaves the
index while a promote that captured it is outstanding, every step keeps the named sources. -/
theorem keepsNamed_of_keepsCaptured (hs : s.Ok) (hc : s.Captured) {as : List Action}
    (hl : Run.Each step Legal s as) (has : Run.Each step KeepsCaptured s as) :
    Run.Each step KeepsNamed s as := by
  induction as generalizing s with
  | nil => trivial
  | cons a as ih =>
    refine ⟨keepsNamed_of_captured hs hc has.1, ?_⟩
    exact ih (hs.step hl.1) (hc.step hs has.1) hl.2 has.2

/-! ### What the count keeps -/

/-- **The gate keeps what is committed.** A structural apply that waits for `promotes_in_flight` to
reach zero drops no source of a committed promote: those of stashed ones are not named yet. -/
theorem keepsNamed_of_gated (hc : s.pipeline.Counted) {kind : StructuralApply}
    {removed : List Hash} (hgate : kind.gated = true)
    (hl : s.Legal (.structural kind removed)) : s.KeepsNamed (.structural kind removed) := by
  intro k hk
  rw [hc.results_eq_nil (hl.1 hgate)] at hk
  cases hk

theorem counted_step (hc : s.pipeline.Counted) (a : Action) : (s.step a).pipeline.Counted := by
  cases a with
  | take => exact hc.sendPromoteJob _ _
  | retry sent => exact hc.retryFailedPromote sent
  | start => exact hc.start
  | finish f =>
    simp only [step]
    split
    · exact hc
    · exact hc.finish _
  | fail => exact hc.finish none
  | settle => exact hc.settle
  | commit | structural | unlink => exact hc

/-- **A gated apply is alone.** Along every run the gates allow, a GC plan or a reap is applied
while no promote is queued, running or waiting for its apply, and it drops no source of a committed
promote. -/
theorem gated_apply_alone (hc : s.pipeline.Counted) {as : List Action}
    (hl : Run.Each step Legal s as) :
    Run.Each step (fun t a => ∀ kind removed, a = .structural kind removed → kind.gated = true →
      t.pipeline.inFlight = [] ∧ t.KeepsNamed a) s as := by
  refine Run.each_of_keeps (I := fun t => t.pipeline.Counted) (fun _ a h _ => counted_step h a)
    (fun t a h hla _ kind removed ha hgate => ?_) hc hl hl
  subst ha
  refine ⟨length_eq_zero_iff.mp ?_, keepsNamed_of_gated h hgate hla⟩
  exact h.symm.trans (hla.1 hgate)

/-! ### A source dropped while its promote waits in the stash -/

namespace StashedSource

/-- Content 3 is in segment 1, claimed at block 16; WAL 2 is open. -/
def actor : PromoteActor where
  vol :=
    { maps := .new
        { lbamap := LbaMap.new.insert 16 8 3 1
          extentIndex := new.insert 3 ⟨1, 0, 32768, .none, .local, 96, none⟩ }
      wal := 2
      pending := []
      journal := .EMPTY }
  pipeline := .empty
  files := {1}

/-- The sketch map offers content 3, and the body in segment 1 is at hand. -/
def formation : Formation :=
  { sketching fun _ => [3] with readable := fun loc => decide (loc.segmentId = 1) }

/-- Content 2 is like nothing else. -/
def plain : Formation :=
  { sketching fun _ => [] with readable := fun loc => decide (loc.segmentId = 1) }

/-- Content 1 is written and its promote taken; content 2 takes the blocks of 3; the promote fails.
The next trigger sends it again, and takes the promote of content 2 with the checkpoint of a GC plan,
ULID 8. The first fails once more, the second is applied: below the plan content 3 is dead, and the
plan drops it. The stashed promote is retried, converts 1 against 3 out of the layers it captured,
and is applied. -/
def run : List Action :=
  [.commit (.write 0 8 1 .none 32768 0), .take 3 4 5 none true,
    .commit (.write 16 8 2 .none 32768 0), .start, .fail, .settle, .retry true, .take 6 7 9 none true,
    .start, .fail, .start, .finish plain, .settle, .settle, .structural (.gcPlan 8 {1} ∅) [3],
    .retry true, .start, .finish formation, .settle]

/-- The same promote, applied before anything else happens to content 3. -/
def promptRun : List Action :=
  [.commit (.write 0 8 1 .none 32768 0), .take 3 4 5 none true, .start, .finish formation, .settle,
    .commit (.write 16 8 2 .none 32768 0)]

theorem actor_ok : actor.Ok :=
  ⟨by decide, by decide, by simp [actor], by simp [actor], by simp [actor, empty]⟩

/-- The formations read segment 1 only. -/
theorem formation_reads {files : Finset Ulid} (h1 : 1 ∈ files) (loc : ExtentLocation)
    (hloc : decide (loc.segmentId = 1) = true) : loc.segmentId ∈ files :=
  of_decide_eq_true hloc ▸ h1

end StashedSource

namespace StashedSource

/-- Content 3 is overwritten, the promote of the epoch is taken, formed and applied, and a GC plan
that was checkpointed with it drops the body of 3. -/
def planRun : List Action :=
  [.commit (.write 0 8 1 .none 32768 0), .commit (.write 16 8 2 .none 32768 32768),
    .take 3 4 6 none true, .start, .finish plain, .settle, .structural (.gcPlan 5 {1} ∅) [3]]

/-- A plan's fold does not refuse what no entry below claims. -/
theorem drops_of_unclaimed {l : MapLayers} {newUlid : Ulid} {inputs : Finset Ulid}
    {covered : Finset ℕ} {h : Hash}
    (hfree : ∀ p ∈ (l.belowUlid newUlid).lbamap.inner.entries, p.2.hash ≠ h) :
    (StructuralApply.gcPlan newUlid inputs covered).Drops l h := by
  intro lba offset claimant hlook
  rw [LbaMap.lookupWithClaimant] at hlook
  split at hlook
  · cases hlook
  case h_2 start e hfloor =>
    split_ifs at hlook
    have hmem := OrdMap.mem_entries_iff.mpr (OrdMap.floor?_eq_some_iff.mp hfloor).1
    exact absurd (congrArg Prod.fst (Option.some.inj hlook)) (hfree _ hmem)

end StashedSource

open StashedSource in
theorem gated_apply_alone_gcPlan : Run.Each step (fun t a => ∀ kind removed,
    a = .structural kind removed → kind.gated = true → t.pipeline.inFlight = [] ∧ t.KeepsNamed a)
      actor planRun :=
  gated_apply_alone (s := actor) rfl
    ⟨trivial, trivial, ⟨by decide, by decide, by decide⟩, trivial, formation_reads (by decide),
      trivial, ⟨fun _ => rfl, forall_mem_singleton.mpr ⟨by decide, by decide,
        drops_of_unclaimed (by decide)⟩⟩, trivial⟩

open StashedSource in
/-- The retried promote is applied with a Delta whose source no layer holds. -/
theorem applies_dropped_source :
    actor.Ok ∧ actor.pipeline = .empty ∧ Run.Each step Legal actor run ∧
      ¬ Run.Each step AppliesResolve actor run := by
  refine ⟨actor_ok, rfl, ?_, ?_⟩
  · refine ⟨trivial, ⟨by decide, by decide, by decide⟩, trivial, trivial, trivial, trivial, trivial,
      ⟨by decide, by decide, by decide⟩, trivial, trivial, trivial, formation_reads (by decide),
      trivial, trivial, ⟨fun _ => rfl, forall_mem_singleton.mpr ⟨by decide, by decide,
        drops_of_unclaimed (by decide)⟩⟩, trivial, trivial, formation_reads (by decide),
      trivial, trivial⟩
  · rintro ⟨-, -, -, -, -, -, -, -, -, -, -, -, -, -, -, -, -, -, hlast, -⟩
    exact absurd (hlast rfl _ _ _ rfl 3 (by decide)) (by decide)

open StashedSource in
theorem keepsNamed_at_once : Run.Each step KeepsNamed actor promptRun := by
  refine keepsNamed_of_keepsCaptured actor_ok (by simp [Captured, actor]) ?_ ?_
  · exact ⟨trivial, ⟨by decide, by decide, by decide⟩, trivial, formation_reads (by decide),
      trivial, trivial, trivial⟩
  · refine ⟨trivial, trivial, trivial, trivial, fun _ _ _ _ job hjob => ?_, trivial, trivial⟩
    cases hjob

open StashedSource in
/-- Applied at once, the promote finds its source. -/
theorem applies_source_at_once :
    Run.Each step Legal actor promptRun ∧ Run.Always step NamedResolve actor promptRun ∧
      Run.Each step AppliesResolve actor promptRun := by
  have hl : Run.Each step Legal actor promptRun :=
    ⟨trivial, ⟨by decide, by decide, by decide⟩, trivial, formation_reads (by decide), trivial,
      trivial, trivial⟩
  have hkeeps : Run.Each step KeepsNamed actor promptRun := by
    refine ⟨trivial, trivial, trivial, ?_, ?_, trivial, trivial⟩
    · intro job hjob w hw h hh
      obtain rfl := Option.some.inj hjob
      rw [mem_singleton.mp hw] at hh
      have h3 : h = 3 := Option.mem_unique hh (by decide)
      rw [h3]
      decide
    · intro job r rest hres h hh
      obtain ⟨-, rfl⟩ := List.cons.inj hres
      cases hh
  obtain ⟨hiff, happly⟩ := named_resolve_iff actor_ok rfl hl
  exact ⟨hl, hiff.mpr hkeeps, happly hkeeps⟩

end PromoteActor

end Elide
