import Elide.MapLayers.Reads
import Elide.Volume.Epoch
import Mathlib.Data.List.Find

/-!
# The maps after a promote

A promote of an epoch always succeeds. What it leaves in `base` is a function of the epoch's writes:
which of them reach which tier, the sources they were converted against, and which extents the
journal share still claims.

The result has two segments if the window splits the batch. Each is applied entry by entry, and an
entry moves a location only if the WAL still holds it at the offset that was noted when the batch was
staged, its token. `Volume.Epoch.tokens` says that the tokens are in step with the maps at the apply,
so every location of the WAL that an entry is for is moved. The primary segment is applied first and
moves the DATA locations (`Volume.Epoch.applied_primary`); the journal share moves the journal bodies
and takes the extents it claims from the primary segment.

## Main results

* `Volume.Outcome`: `base` after the promote, said of the job and of the maps before it.
* `Volume.Epoch.promote_outcome`: every promote of an epoch succeeds with that outcome.
-/

namespace Elide

open List ExtentIndex PromoteJob MapLayers Maps ExtentLocation

namespace PromoteJob

variable {job : PromoteJob} {w : PendingWrite}

theorem inJournal_of_inside (hw : w ∈ job.pending) (hin : job.inside w = true) :
    job.splits = true ∧ job.inJournal w = true := by
  have hs : job.splits = true := any_eq_true.mpr ⟨w, hw, hin⟩
  exact ⟨hs, by rw [inJournal, if_pos hs]; exact hin⟩

variable (job)

/-- The segment that takes the journal bodies: the journal share's if there is one. -/
def journalDest : Ulid :=
  if job.splits then job.journalSegmentUlid else job.segmentUlid

/-- A write of the journal share holds the extent's hash over one of its blocks. -/
def journalClaims (k : ℕ) (e : MapEntry) : Bool :=
  (job.pending.filter job.inside).any fun w =>
    decide (w.entry.hash = e.hash ∧ w.entry.Meets k e.lbaLength)

/-- A write of the primary segment does. -/
abbrev primaryClaims (k : ℕ) (e : MapEntry) : Bool :=
  job.outside.any fun w => decide (w.entry.hash = e.hash ∧ w.entry.Meets k e.lbaLength)

/-- The body offset a hash has when the job is staged. -/
def tokenOf (h : Hash) : Option ℕ :=
  (job.layers.materialised.extentIndex.lookup h).map bodyOffset

end PromoteJob

namespace Formation

variable (f : Formation) (job : PromoteJob)

/-- The write that takes the DATA location of `h` over: the first of its hash to reach the data
tier. -/
def carrier (h : Hash) : Option PendingWrite :=
  job.pending.find? fun w => decide (w.entry.hash = h) && f.reachesData job w

/-- Some write of `h` re-keys the journal body of `h`. -/
def rekeys (h : Hash) : Bool :=
  job.pending.any fun w => decide (w.entry.hash = h) && f.reachesJournal job w

variable {f job} {w : PendingWrite}

theorem reachesData_inside (hw : w ∈ job.pending) (hin : job.inside w = true) :
    f.reachesData job w = false := by
  rw [reachesData, (inJournal_of_inside hw hin).2, deltaSource, if_pos hin]
  simp

theorem reachesJournal_outside (hs : job.splits = true) (hout : job.inside w = false) :
    f.reachesJournal job w = false := by
  rw [reachesJournal, inJournal, if_pos hs, hout]
  simp

end Formation

namespace SegmentResult

open ExtentIndex Formation

/-- `part` is the segment formed from the writes `ws` of the job. -/
structure FormedFrom (part : SegmentResult) (f : Formation) (job : PromoteJob)
    (ws : List PendingWrite) : Prop where
  entries : part.entries.map SegmentEntry.shape = ws.map (f.shapeOf job)
  offsets : part.prePromoteOffsets = ws.map job.token
  plain : ∀ w ∈ ws, w.Plain

variable {part : SegmentResult} {f : Formation} {job : PromoteJob} {ws : List PendingWrite}

section

variable (hp : part.FormedFrom f job ws)
include hp

/-- A question about shapes can be asked of the writes. -/
theorem FormedFrom.any_eq {p : SegmentEntry → Bool} {q : PendingWrite → Bool}
    (hshape : ∀ e, p e.shape = p e) (hq : ∀ w ∈ ws, p (f.shapeOf job w) = q w) :
    part.entries.any p = ws.any q := by
  have h := congrArg (any · p) hp.entries
  simp only [any_map, show p ∘ SegmentEntry.shape = p from funext hshape] at h
  have hmap : ws.any (p ∘ f.shapeOf job) = (ws.map (p ∘ f.shapeOf job)).any id := by
    rw [any_map, Function.id_comp]
  rw [h, hmap, show ws.map (p ∘ f.shapeOf job) = ws.map q from map_congr_left hq, any_map,
    Function.id_comp]

theorem FormedFrom.reachesJournal_eq (h : Hash) : reachesJournal part.entries h =
      ws.any fun w => decide (w.entry.hash = h) && f.reachesJournal job w :=
  hp.any_eq (fun _ => rfl) fun w hw => by
    rw [(f.shapeOf_frame job w).1, (f.tiers_shapeOf job (hp.plain w hw)).2]

theorem FormedFrom.claims_eq (k : ℕ) (e : MapEntry) : claims part.entries k e =
      ws.any fun w => decide (w.entry.hash = e.hash ∧ w.entry.Meets k e.lbaLength) :=
  hp.any_eq (fun _ => rfl) fun w hw => by
    obtain ⟨-, hstart, hlen⟩ := f.shapeOf_frame job w
    refine decide_eq_decide.mpr ?_
    simp [f.claimHash_shapeOf job (hp.plain w hw), SegmentEntry.Meets, hstart, hlen]

theorem FormedFrom.firstData_eq (h : Hash) : (firstData part.entries h).map SegmentEntry.shape =
      (ws.find? fun w => decide (w.entry.hash = h) && f.reachesData job w).map (f.shapeOf job) := by
  have hfind := congrArg (find? fun e => decide (e.hash = h) && e.inDataTier) hp.entries
  rw [find?_map, find?_map] at hfind
  refine hfind.trans (congrArg (Option.map _) (find?_congr fun w hw => ?_))
  show (decide ((f.shapeOf job w).hash = h) && (f.shapeOf job w).inDataTier) = _
  rw [(f.shapeOf_frame job w).1, (f.tiers_shapeOf job (hp.plain w hw)).1]

theorem FormedFrom.not_canonical : ∀ e ∈ part.entries, e.kind.isCanonicalOnly = false := by
  intro e he
  have hmem : e.shape ∈ ws.map (f.shapeOf job) := hp.entries ▸ mem_map_of_mem he
  obtain ⟨w, hw, hshape⟩ := mem_map.mp hmem
  show e.shape.kind.isCanonicalOnly = false
  rw [← hshape]
  exact f.isCanonicalOnly_shapeOf job (hp.plain w hw).not_canonical

/-- The apply of a formed segment succeeds: its tokens are the job's. -/
theorem FormedFrom.applied {wal : Ulid} {shadowed : Hash → Prop} {m : Maps}
    (hx : m.extentIndex.Tokens wal job.tokenOf shadowed) (hc : part.segmentUlid ≠ wal) :
    ∃ y, part.applyPromotedPartition wal m = .ok ⟨part.restampClaims m.lbamap, y⟩ ∧
      Applied wal part.segmentUlid shadowed m.extentIndex part.entries y ∧
      y.Tokens wal job.tokenOf shadowed := by
  refine SegmentResult.applied m hx hc ?_ ?_
  · have hlen := congrArg length hp.entries
    rw [length_map, length_map] at hlen
    rw [hp.offsets, length_map, hlen]
  · rintro ⟨e, t⟩ hmem
    refine ⟨hp.not_canonical e (of_mem_zip hmem).1, fun htier => ?_⟩
    have hshape : (e.shape, t) ∈ (part.entries.map SegmentEntry.shape).zip part.prePromoteOffsets := by
      rw [zip_map_left]
      exact mem_map.mpr ⟨(e, t), hmem, rfl⟩
    rw [hp.entries, hp.offsets, zip_map'] at hshape
    obtain ⟨w, hw, heq⟩ := mem_map.mp hshape
    obtain ⟨hew, htw⟩ := Prod.mk.inj heq
    have hplain := hp.plain w hw
    have hreach : f.reachesData job w = true := by
      rw [← (f.tiers_shapeOf job hplain).1, hew]
      exact htier
    rw [Formation.reachesData, Bool.and_eq_true] at hreach
    have hhash : w.entry.hash = e.hash := by
      rw [← (f.shapeOf_frame job w).1, hew]
      rfl
    rw [← htw, token_of_keepsBody hplain hreach.1, hhash]
    rfl

end

end SegmentResult

/-- The sources of the Delta that serves `h`. -/
def ExtentIndex.sources (x : ExtentIndex) (h : Hash) : Option (List Hash) :=
  (x.deltaOptions h).map (List.map DeltaOption.sourceHash)

namespace Volume

variable {v : Volume}

/-- The epoch holds the DATA location of `h`. -/
def owns (v : Volume) (h : Hash) : Bool := (v.maps.delta.extentIndex.lookup h).isSome

/-- The epoch holds a journal body of `h`. -/
def ownsJournal (v : Volume) (h : Hash) : Bool :=
  (v.maps.delta.extentIndex.lookupJournal v.wal h).isSome

/-- An older epoch that is still frozen holds the DATA location of `h`. -/
def Shadowed (v : Volume) (h : Hash) : Prop :=
  ((v.maps.frozen.map FrozenLayer.maps).findSome? fun m => m.extentIndex.lookup h).isSome = true

theorem Epoch.base_unnamed (hv : v.Epoch) : ¬ v.maps.base.extentIndex.Names v.wal :=
  hv.unnamed v.maps.base (by simp [MapLayers.all, MapLayers.below])

/-- What the epoch owns is nowhere below it. -/
theorem Epoch.of_owns (hv : v.Epoch) {h : Hash} (ho : v.owns h = true) :
    v.maps.base.extentIndex.lookup h = none ∧ ¬ v.Shadowed h ∧ v.maps.below.lookupExtent h = none := by
  obtain ⟨loc, hloc⟩ := Option.isSome_iff_exists.mp ho
  have hnone := (hv.owned h loc hloc).2
  have hiff := v.maps.isSome_below_iff h
  rw [hnone] at hiff
  have hneither := hiff.not.mp (by simp)
  rw [not_or] at hneither
  exact ⟨by simpa using hneither.1, hneither.2, hnone⟩

/-- The index a promote starts from. -/
theorem Epoch.owner_fold (hv : v.Epoch) (h : Hash) :
    (v.maps.base.fold v.maps.delta).extentIndex.owner h =
      if v.owns h then some v.wal else v.maps.base.extentIndex.owner h := by
  rw [owner, lookupExtent_fold]
  split_ifs with ho
  · obtain ⟨loc, hloc⟩ := Option.isSome_iff_exists.mp ho
    rw [(hv.of_owns ho).1, hloc, Option.none_or, Option.map_some, (hv.owned h loc hloc).1]
  · have hnone : v.maps.delta.extentIndex.lookup h = none := by simpa [owns] using ho
    rw [hnone, Option.or_none, owner]

theorem Epoch.owner_fold_eq_wal_iff (hv : v.Epoch) (h : Hash) :
    (v.maps.base.fold v.maps.delta).extentIndex.owner h = some v.wal ↔ v.owns h = true := by
  rw [hv.owner_fold]
  refine ⟨fun ho => ?_, fun ho => if_pos ho⟩
  by_contra hno
  rw [if_neg hno, owner, Option.map_eq_some_iff] at ho
  obtain ⟨loc, hloc, hseg⟩ := ho
  exact hv.base_unnamed (.inl ⟨h, loc, hloc, hseg⟩)

theorem Epoch.isSome_journalOwner_fold (hv : v.Epoch) (h : Hash) :
    ((v.maps.base.fold v.maps.delta).extentIndex.journalOwner v.wal h).isSome = v.ownsJournal h := by
  have hbase : v.maps.base.extentIndex.lookupJournal v.wal h = none := by
    refine Option.eq_none_iff_forall_not_mem.mpr fun loc hloc => ?_
    exact hv.base_unnamed (.inr (.inl ⟨v.wal, h, loc, hloc, .inl rfl⟩))
  rw [journalOwner, lookupJournal_fold, hbase, Option.isSome_map]
  rfl

/-- The tokens of a job are in step with the index its segments are applied to. -/
theorem Epoch.tokens (hv : v.Epoch) (s j : Ulid) (derived : Option JournalRanges) :
    (v.maps.base.fold v.maps.delta).extentIndex.Tokens v.wal
      (v.takeWalIntoPromoteJob s j derived).tokenOf v.Shadowed := by
  have htok : ∀ h, (v.takeWalIntoPromoteJob s j derived).tokenOf h =
      (v.maps.materialised.extentIndex.lookup h).map bodyOffset := by
    intro h
    show ((v.maps.freeze v.wal).materialised.extentIndex.lookup h).map _ = _
    rw [materialised_freeze]
  refine ⟨fun h loc hloc hseg => ?_, fun h hs ht => .inl ?_, fun h d hd hseg => ?_⟩
  · have ho := (hv.owner_fold_eq_wal_iff h).mp (by rw [owner, hloc, ← hseg]; rfl)
    obtain ⟨hbase, hfrozen, -⟩ := hv.of_owns ho
    rw [lookupExtent_fold, hbase] at hloc
    rw [Shadowed, Bool.not_eq_true, Option.isSome_eq_false_iff, Option.isNone_iff_eq_none] at hfrozen
    rw [htok, lookup_materialised, hbase, hfrozen, hloc]
    rfl
  · rw [Shadowed, Bool.not_eq_true, Option.isSome_eq_false_iff, Option.isNone_iff_eq_none] at hs
    rw [htok, lookup_materialised, hs, Option.isSome_map] at ht
    rw [lookupExtent_fold]
    exact ht
  · rw [lookupDelta_fold] at hd
    exact hv.base_unnamed (.inr (.inr ⟨h, d, hd, hseg⟩))

/-- What a promote of the epoch leaves as `base`. -/
structure Outcome (v : Volume) (job : PromoteJob) (f : Formation) (base : Maps) : Prop where
  owner : ∀ h, base.extentIndex.owner h = if v.owns h then
      (f.carrier job h).elim (some v.wal) fun w =>
        if (f.deltaSource job w).isSome then none else some job.segmentUlid
    else v.maps.base.extentIndex.owner h
  sources : ∀ h, ¬ v.Shadowed h → base.extentIndex.sources h =
    (v.maps.base.extentIndex.sources h).or
      (if v.owns h then (f.carrier job h).bind fun w => (f.deltaSource job w).map fun src => [src]
      else none)
  journal : ∀ u h, base.extentIndex.journalOwner u h =
    if v.ownsJournal h ∧ f.rekeys job h ∧ (u = v.wal ∨ u = job.journalDest) then
      if u = job.journalDest then some job.journalDest else none
    else (v.maps.base.fold v.maps.delta).extentIndex.journalOwner u h
  deltas : ∀ h d, base.extentIndex.lookupDelta h = some d → d.segmentId ≠ v.wal
  wf : base.lbamap.Wf
  extents : ∀ k e, v.maps.delta.lbamap.inner.get? k = some e → base.lbamap.inner.get? k =
    some { e with claimantUlid :=
      if job.journalClaims k e then job.journalSegmentUlid else job.segmentUlid }

end Volume

namespace SegmentResult

open ExtentIndex Formation

variable {part : SegmentResult} {f : Formation} {job : PromoteJob}

/-- The entry that takes a location over is the one its carrier became. -/
theorem FormedFrom.firstData_primary
    (hp : part.FormedFrom f job job.outside) (h : Hash) :
    (f.carrier job h = none ∧ firstData part.entries h = none) ∨
    ∃ w e, f.carrier job h = some w ∧ firstData part.entries h = some e ∧
      (e.kind = .delta ↔ (f.deltaSource job w).isSome = true) ∧
      e.deltaOptions.map DeltaOption.sourceHash = (f.deltaSource job w).toList := by
  have hcarrier : job.outside.find? (fun w => decide (w.entry.hash = h) && f.reachesData job w) =
      f.carrier job h := by
    rw [find?_filter]
    refine find?_congr fun w hw => ?_
    cases hin : job.inside w with
    | false => simp
    | true => simp [reachesData_inside hw hin]
  have hfirst := hp.firstData_eq h
  rw [hcarrier] at hfirst
  cases hc : f.carrier job h with
  | none =>
    rw [hc, Option.map_none, Option.map_eq_none_iff] at hfirst
    exact .inl ⟨rfl, hfirst⟩
  | some w =>
    rw [hc, Option.map_some, Option.map_eq_some_iff] at hfirst
    obtain ⟨e, he, hshape⟩ := hfirst
    have hreach := find?_some (hcarrier.trans hc)
    rw [Bool.and_eq_true] at hreach
    obtain ⟨hkind, hsources⟩ := f.sources_shapeOf job
      (hp.plain w (mem_of_find?_eq_some (hcarrier.trans hc))) hreach.2
    rw [← hshape] at hkind hsources
    refine .inr ⟨w, e, rfl, he, hkind, ?_⟩
    rw [← hsources]
    show _ = (e.deltaOptions.map _).map _
    rw [map_map]
    rfl

/-- The journal share moves no DATA location. -/
theorem FormedFrom.firstData_journal (hp : part.FormedFrom f job job.journalShare) (h : Hash) :
    firstData part.entries h = none := by
  have hfirst := hp.firstData_eq h
  rw [find?_eq_none.mpr, Option.map_none, Option.map_eq_none_iff] at hfirst
  · exact hfirst
  · intro w hw
    obtain ⟨hw, hin⟩ := mem_filter.mp hw
    simp [reachesData_inside hw hin]

/-- Where the batch is split the primary segment re-keys nothing, where it is not it re-keys all. -/
theorem FormedFrom.rekeys_primary
    (hp : part.FormedFrom f job job.outside) (h : Hash) :
    reachesJournal part.entries h = if job.splits then false else f.rekeys job h := by
  rw [hp.reachesJournal_eq]
  split_ifs with hs
  · rw [any_eq_false]
    intro w hw
    have hout : job.inside w = false := by simpa using (mem_filter.mp hw).2
    simp [reachesJournal_outside hs hout]
  · rw [outside, filter_eq_self.mpr, rekeys]
    intro w hw
    have hout := any_eq_false.mp (eq_false_of_ne_true hs) w hw
    rw [Bool.not_eq_true'] 
    exact eq_false_of_ne_true hout

theorem FormedFrom.rekeys_journal (hp : part.FormedFrom f job job.journalShare)
    (hs : job.splits = true) (h : Hash) :
    reachesJournal part.entries h = f.rekeys job h := by
  rw [hp.reachesJournal_eq, rekeys, Bool.eq_iff_iff, any_eq_true, any_eq_true]
  constructor
  · rintro ⟨w, hw, hreach⟩
    exact ⟨w, (mem_filter.mp hw).1, hreach⟩
  · rintro ⟨w, hw, hreach⟩
    refine ⟨w, mem_filter.mpr ⟨hw, ?_⟩, hreach⟩
    by_contra hout
    rw [reachesJournal_outside hs (eq_false_of_ne_true hout)] at hreach
    exact absurd hreach (by simp)

end SegmentResult

namespace Volume

open ExtentIndex

variable {v : Volume} {job : PromoteJob} {f : Formation} {part : SegmentResult}

/-- The primary segment, applied to the epoch folded into `base`. -/
theorem Epoch.applied_primary (hv : v.Epoch)
    (hp : part.FormedFrom f job job.outside)
    (hseg : part.segmentUlid = job.segmentUlid) {y : ExtentIndex}
    (ha : Applied v.wal part.segmentUlid v.Shadowed (v.maps.base.fold v.maps.delta).extentIndex
      part.entries y) :
    (∀ h, y.owner h = if v.owns h then
        (f.carrier job h).elim (some v.wal) fun w =>
          if (f.deltaSource job w).isSome then none else some job.segmentUlid
      else v.maps.base.extentIndex.owner h) ∧
    ∀ h, ¬ v.Shadowed h → y.sources h = (v.maps.base.extentIndex.sources h).or
        (if v.owns h then (f.carrier job h).bind fun w => (f.deltaSource job w).map fun src => [src]
        else none) := by
  have hbase : ∀ h, (v.maps.base.fold v.maps.delta).extentIndex.deltaOptions h =
      v.maps.base.extentIndex.deltaOptions h := by
    intro h
    rw [deltaOptions, lookupDelta_fold, deltaOptions]
  have hne : ∀ h, v.owns h = false → v.maps.base.extentIndex.owner h ≠ some v.wal := by
    intro h ho
    have hne := (hv.owner_fold_eq_wal_iff h).not.mpr (by simp [ho])
    rw [hv.owner_fold, ho] at hne
    simpa only [Bool.false_eq_true, if_false] using hne
  refine ⟨fun h => ?_, fun h hs => ?_⟩
  · rw [ha.owner, hv.owner_fold]
    cases ho : v.owns h with
    | false =>
      simp only [Bool.false_eq_true, if_false]
      rw [if_neg (hne h ho)]
    | true =>
      simp only [if_true, hseg]
      rcases hp.firstData_primary h with ⟨hc, hf⟩ | ⟨w, e, hc, hf, hkind, -⟩
      · rw [hc, hf, Option.elim_none, Option.elim_none]
      · rw [hc, hf]
        exact if_congr hkind rfl rfl
  · rw [sources, ha.options h hs, hbase, hv.owner_fold, sources]
    cases ho : v.owns h with
    | false =>
      simp only [Bool.false_eq_true, if_false]
      rw [if_neg (hne h ho), Option.or_none, Option.or_none]
    | true =>
      simp only [if_true]
      rw [Option.map_or]
      rcases hp.firstData_primary h with ⟨hc, hf⟩ | ⟨w, e, hc, hf, hkind, hsrc⟩
      · rw [hc, hf]
        rfl
      · rw [hc, hf, Option.bind_some, Option.bind_some]
        cases hsource : f.deltaSource job w with
        | none =>
          rw [hsource] at hkind
          rw [if_neg (fun h => absurd (hkind.mp h) (by simp))]
          rfl
        | some src =>
          rw [hsource] at hkind hsrc
          rw [if_pos (hkind.mpr rfl), Option.map_some, hsrc]
          rfl

/-- An extent of the epoch passes to the primary segment, unless the journal share holds it. -/
theorem Epoch.claimed (hv : v.Epoch) (hpending : job.pending = v.pending) {k : ℕ} {e : MapEntry}
    (hk : v.maps.delta.lbamap.inner.get? k = some e) :
    e.claimantUlid = v.wal ∧ (job.journalClaims k e = true ∨ job.primaryClaims k e = true) := by
  have hpos := hv.inv.wf.pos hk
  obtain ⟨hc, w, hw, hhash, hcov⟩ := hv.claims k _ _ _
    (hv.inv.wf.lookupWithClaimant_of_coveredBy ⟨hk, le_refl k, by omega⟩)
  refine ⟨hc, ?_⟩
  have hmeets : decide (w.entry.hash = e.hash ∧ w.entry.Meets k e.lbaLength) = true :=
    decide_eq_true ⟨hhash, hcov.meets (le_refl k) (by omega)⟩
  rw [← hpending] at hw
  cases hin : job.inside w with
  | true => exact .inl (any_eq_true.mpr ⟨w, mem_filter.mpr ⟨hw, hin⟩, hmeets⟩)
  | false =>
    exact .inr (any_eq_true.mpr ⟨w, mem_filter.mpr ⟨hw, by rw [hin]; rfl⟩, hmeets⟩)

theorem Epoch.promote_of_applied (hv : v.Epoch) {s j : Ulid} {derived : Option JournalRanges}
    {base : Maps} (happly : applyPromotedEntries
      (f.executePromote (v.takeWalIntoPromoteJob s j derived)) (v.maps.base.fold v.maps.delta) =
        .ok base) :
    ∃ delta, v.promote s j derived f = .ok ⟨base, v.maps.frozen, delta⟩ ∧ delta.isEmpty = true := by
  obtain ⟨delta, hswap, hempty⟩ := swapPromote_freeze hv.frozen base
  have hfold : foldPromoteResult (v.maps.freeze v.wal)
      (f.executePromote (v.takeWalIntoPromoteJob s j derived)) = .ok base :=
    (foldPromote_freeze hv.frozen _).trans happly
  refine ⟨delta, ?_, hempty⟩
  show (foldPromoteResult (v.maps.freeze v.wal) _ >>= _) = _
  rw [hfold]
  exact congrArg Except.ok hswap

/-- The job is the promote of the volume's epoch. -/
structure Takes (v : Volume) (job : PromoteJob) : Prop where
  wal : job.oldWalUlid = v.wal
  pending : job.pending = v.pending
  wal_lt : v.wal < job.segmentUlid
  segment_lt : job.segmentUlid < job.journalSegmentUlid
  tokens : (v.maps.base.fold v.maps.delta).extentIndex.Tokens v.wal job.tokenOf v.Shadowed

section Takes

variable (hv : v.Epoch) (hjob : v.Takes job) (f)
include hv hjob

theorem Takes.plain (p : PendingWrite → Bool) : ∀ w ∈ job.pending.filter p, w.Plain := fun w hw =>
  hv.plain w (hjob.pending ▸ (mem_filter.mp hw).1)

theorem Takes.formed_primary : (f.executePromote job).primary.FormedFrom f job job.outside :=
  ⟨(f.shape_primary job).1, (f.shape_primary job).2, hjob.plain hv _⟩

/-- An extent of the epoch once the primary segment has been applied. -/
theorem Takes.get?_primary {k : ℕ} {e : MapEntry}
    (hk : v.maps.delta.lbamap.inner.get? k = some e) :
    ((f.executePromote job).primary.restampClaims
      (v.maps.base.fold v.maps.delta).lbamap).inner.get? k =
      some (if job.primaryClaims k e then { e with claimantUlid := job.segmentUlid } else e) := by
  have hp := hjob.formed_primary f hv
  rw [(SegmentResult.restampClaims_spec _ (tiles_fold hv.base hv.inv).1.wf hp.not_canonical).2,
    get?_fold hv.base hv.inv hk, Option.map_some, hp.claims_eq]
  refine congrArg some (if_congr ?_ rfl rfl)
  rw [(hv.claimed hjob.pending hk).1]
  exact and_iff_left hjob.wal_lt

/-- Then it is with the primary segment or with the WAL, and with the former unless the journal share
holds it. -/
theorem Takes.exists_claimant {k : ℕ} {e : MapEntry}
    (hk : v.maps.delta.lbamap.inner.get? k = some e) :
    ∃ c, (if job.primaryClaims k e then { e with claimantUlid := job.segmentUlid } else e) =
        { e with claimantUlid := c } ∧ c < job.journalSegmentUlid ∧
      (job.journalClaims k e = false → c = job.segmentUlid) := by
  obtain ⟨hclaimant, hor⟩ := hv.claimed hjob.pending hk
  split_ifs with hprim
  · exact ⟨_, rfl, hjob.segment_lt, fun _ => rfl⟩
  · refine ⟨v.wal, by rw [← hclaimant], hjob.wal_lt.trans hjob.segment_lt, fun hno => ?_⟩
    rw [hno] at hor
    exact absurd (hor.resolve_left Bool.false_ne_true) hprim

/-- A batch that is not split. -/
theorem Takes.outcome_whole (hsplit : job.splits = false)
    (hnone : (f.executePromote job).journal = none) :
    ∃ base, applyPromotedEntries (f.executePromote job) (v.maps.base.fold v.maps.delta) = .ok base ∧
      v.Outcome job f base := by
  have hp := hjob.formed_primary f hv
  obtain ⟨y, hy, ha, hty⟩ := hp.applied hjob.tokens hjob.wal_lt.ne'
  obtain ⟨howner, hsources⟩ := hv.applied_primary hp rfl ha
  have hwf := (SegmentResult.restampClaims_spec _ (tiles_fold hv.base hv.inv).1.wf hp.not_canonical).1
  have hdest : job.journalDest = job.segmentUlid := by rw [journalDest, hsplit]; rfl
  refine ⟨⟨_, y⟩, ?_, howner, hsources, fun u h => ?_, hty.delta, hwf, fun k e hk => ?_⟩
  · have hwal : (f.executePromote job).oldWalUlid = v.wal := hjob.wal
    rw [applyPromotedEntries, hwal, hy, hnone]
    rfl
  · rw [ha.journal, hv.isSome_journalOwner_fold, hp.rekeys_primary, hsplit, hdest]
    rfl
  · have hno : job.journalClaims k e = false := by
      rw [journalClaims, any_eq_false]
      intro w hw
      obtain ⟨hw, hin⟩ := mem_filter.mp hw
      cases (inJournal_of_inside hw hin).1.symm.trans hsplit
    obtain ⟨c, hc, -, hcs⟩ := hjob.exists_claimant hv hk
    refine (hjob.get?_primary f hv hk).trans ?_
    rw [hc, hcs hno, hno]
    rfl

/-- A batch that is split: the journal share moves what the primary segment has left. -/
theorem Takes.outcome_split (hsplit : job.splits = true)
    (hpart : (f.executePromote job).journal = some part)
    (hpu : part.segmentUlid = job.journalSegmentUlid)
    (hp' : part.FormedFrom f job job.journalShare) :
    ∃ base, applyPromotedEntries (f.executePromote job) (v.maps.base.fold v.maps.delta) = .ok base ∧
      v.Outcome job f base := by
  have hp := hjob.formed_primary f hv
  obtain ⟨y, hy, ha, hty⟩ := hp.applied hjob.tokens hjob.wal_lt.ne'
  obtain ⟨howner, hsources⟩ := hv.applied_primary hp rfl ha
  have hwf := (SegmentResult.restampClaims_spec _ (tiles_fold hv.base hv.inv).1.wf hp.not_canonical).1
  obtain ⟨z, hz, hb, htz⟩ := hp'.applied
    (m := ⟨(f.executePromote job).primary.restampClaims (v.maps.base.fold v.maps.delta).lbamap, y⟩)
    hty (by rw [hpu]; exact (hjob.wal_lt.trans hjob.segment_lt).ne')
  obtain ⟨hwf', hget'⟩ := SegmentResult.restampClaims_spec _ hwf hp'.not_canonical
  have hdest : job.journalDest = part.segmentUlid := by
    rw [journalDest, hsplit, hpu]
    rfl
  have hjournal : ∀ u h, y.journalOwner u h =
      (v.maps.base.fold v.maps.delta).extentIndex.journalOwner u h := by
    intro u h
    rw [ha.journal, hp.rekeys_primary, hsplit]
    exact if_neg fun hcon => absurd hcon.2.1 (by simp)
  refine ⟨⟨_, z⟩, ?_, fun h => ?_, fun h hshadow => ?_, fun u h => ?_, htz.delta, hwf',
    fun k e hk => ?_⟩
  · have hwal : (f.executePromote job).oldWalUlid = v.wal := hjob.wal
    rw [applyPromotedEntries, hwal, hy, hpart]
    exact hz
  · rw [← howner h, hb.owner, hp'.firstData_journal]
    split_ifs with ho
    · exact ho.symm
    · rfl
  · rw [← hsources h hshadow, sources, hb.options h hshadow, hp'.firstData_journal,
      Option.bind_none, ite_self, Option.or_none, sources]
  · rw [hb.journal, hjournal, hjournal, hv.isSome_journalOwner_fold, hp'.rekeys_journal hsplit,
      hdest]
  · obtain ⟨c, hc, hlt, hcs⟩ := hjob.exists_claimant hv hk
    refine (hget' k).trans ?_
    rw [hjob.get?_primary f hv hk, hc, Option.map_some, hp'.claims_eq, hpu]
    show some (if job.journalClaims k e = true ∧ c < job.journalSegmentUlid then
      { e with claimantUlid := job.journalSegmentUlid } else { e with claimantUlid := c }) = _
    cases hjc : job.journalClaims k e with
    | true => rw [if_pos ⟨rfl, hlt⟩, if_pos rfl]
    | false =>
      rw [hcs hjc]
      rfl

end Takes

/-- **A promote succeeds**, and leaves what `Outcome` says over the frozen layers it found. -/
theorem Epoch.promote_outcome (hv : v.Epoch) {s j : Ulid} (hs : v.wal < s) (hj : s < j)
    (derived : Option JournalRanges) (f : Formation) :
    ∃ base delta, v.promote s j derived f = .ok ⟨base, v.maps.frozen, delta⟩ ∧
      delta.isEmpty = true ∧ v.Outcome (v.takeWalIntoPromoteJob s j derived) f base := by
  have hjob : v.Takes (v.takeWalIntoPromoteJob s j derived) :=
    ⟨rfl, rfl, hs, hj, hv.tokens s j derived⟩
  obtain ⟨base, happly, hout⟩ : ∃ base, applyPromotedEntries
      (f.executePromote (v.takeWalIntoPromoteJob s j derived)) (v.maps.base.fold v.maps.delta) =
        .ok base ∧ v.Outcome (v.takeWalIntoPromoteJob s j derived) f base := by
    rcases f.shape_journal (v.takeWalIntoPromoteJob s j derived) with
      ⟨hsplit, hnone⟩ | ⟨hsplit, part, hpart, hpu, hpe, hpo⟩
    · exact hjob.outcome_whole f hv hsplit hnone
    · exact hjob.outcome_split f hv hsplit hpart hpu ⟨hpe, hpo, hjob.plain hv _⟩
  obtain ⟨delta, hpromote, hempty⟩ := hv.promote_of_applied happly
  exact ⟨base, delta, hpromote, hempty, hout⟩

end Volume

end Elide
