import Elide.Volume.PromoteOutcome

/-!
# Is a promoted epoch readable?

The tier of a write is decided twice. `writeCommit` puts the location into the DATA map or the
journal map by the window of the moment; `splitJournal` re-decides under the window the job carries,
and the apply moves a location only in the map of the second decision. Where the two decisions
differ the move finds nothing, and a location keeps naming a WAL whose file is deleted next.

`TiersAgree` says on the epoch's writes when that does not happen, and when no claim is left to a
Delta of a Delta or to a journal body under another segment's key.

## Main results

* `Volume.Epoch.leavesReadable_iff`: a promote leaves no location at the WAL, and every claim of the
  epoch with a body, exactly when the tiers agree.
* `Volume.promote_readable_iff`: the same for every list of commits to an opened volume.
* `Volume.derived_window_strands_location`: a window that is derived at the take, and a location that
  keeps naming the WAL.
-/

namespace Elide

open Option MapLayers Maps PromoteJob AList OrdMap DeltaOption

namespace MapLayers

/-- The DATA location of `h` is one that `good` accepts. -/
def ResolvesBody (l : MapLayers) (good : Hash → Ulid → Prop) (h : Hash) : Prop :=
  ∃ loc, l.lookupExtent h = some loc ∧ good h loc.segmentId

/-- A read of `h` under claimant `c` finds a body where `good` accepts it: the claimant's journal
body, the DATA location, or the DATA location of a source of the Delta. -/
def Resolves (l : MapLayers) (good : Hash → Ulid → Prop) (c : Ulid) (h : Hash) : Prop :=
  (∃ loc, l.lookupJournal c h = some loc ∧ good h loc.segmentId) ∨ l.ResolvesBody good h ∨
    ∃ d, l.lookupDelta h = some d ∧ ∃ o ∈ d.options, l.ResolvesBody good o.sourceHash

end MapLayers

namespace Volume

/-- Segment `u` is one of the two new ones, or held `h` before the epoch. -/
def Placed (v : Volume) (s j : Ulid) (h : Hash) (u : Ulid) : Prop :=
  u = s ∨ u = j ∨ ∃ loc, v.maps.below.lookupExtent h = some loc ∧ loc.segmentId = u

/-- After the promote no location names the WAL, and every claim of the epoch finds its body. -/
structure LeavesReadable (v : Volume) (s j : Ulid) (after : MapLayers) : Prop where
  unnamed : ∀ m ∈ after.all, ¬ m.extentIndex.Names v.wal
  readable : ∀ x h off c, v.maps.delta.lbamap.lookupWithClaimant x = some (h, off, c) →
    h ≠ ZERO_HASH → ∃ c', after.base.lbamap.lookupWithClaimant x = some (h, off, c') ∧
      after.Resolves (v.Placed s j) c' h

/-- A body of `h` is held below the epoch, or the write that carries it keeps it. -/
def BodyCarried (v : Volume) (job : PromoteJob) (f : Formation) (h : Hash) : Prop :=
  (v.maps.below.lookupExtent h).isSome = true ∨
    (v.owns h = true ∧ ∃ w, f.carrier job h = some w ∧ f.deltaSource job w = none)

/-- The sources `h` can be rebuilt from: those of a Delta below the epoch, and otherwise the one the
carrier was converted against. -/
def sourcesOf (v : Volume) (job : PromoteJob) (f : Formation) (h : Hash) : List Hash :=
  (((v.maps.below.lookupDelta h).map fun d => d.options.map sourceHash).or
    (if v.owns h then (f.carrier job h).bind fun w => (f.deltaSource job w).map fun src => [src]
    else none)).getD []

/-- The two decisions agree wherever it matters. Every DATA location of the epoch has a write of its
hash that reaches the data tier, and every journal body one that reaches the journal tier. Every
claim has a body, a source with a body, or a journal body under the segment that will claim it. -/
structure TiersAgree (v : Volume) (job : PromoteJob) (f : Formation) : Prop where
  data : ∀ h, v.owns h = true → (f.carrier job h).isSome = true
  journal : ∀ h, v.ownsJournal h = true → f.rekeys job h = true
  claims : ∀ k e, v.maps.delta.lbamap.inner.get? k = some e → e.hash ≠ ZERO_HASH →
    v.BodyCarried job f e.hash ∨ (∃ src ∈ v.sourcesOf job f e.hash, v.BodyCarried job f src) ∨
      (v.ownsJournal e.hash = true ∧ (job.splits = true → job.journalClaims k e = true))

section Resolved

variable {v : Volume} {s j : Ulid} {job : PromoteJob} {f : Formation} {base delta : Maps}

/-- Over an empty `delta` the frozen layers come first. -/
theorem findSome?_after {α : Type*} (g : Maps → Option α) (hdelta : g delta = none) :
    (all ⟨base, v.maps.frozen, delta⟩).findSome? g =
      ((v.maps.frozen.reverse.map FrozenLayer.maps).findSome? g).or (g base) := by
  rw [findSome?_all]
  rw [hdelta, none_or]

theorem findSome?_below {α : Type*} (g : Maps → Option α) (hempty : g .empty = none) :
    v.maps.below.all.findSome? g =
      ((v.maps.frozen.reverse.map FrozenLayer.maps).findSome? g).or (g v.maps.base) := by
  rw [findSome?_all]
  show (g .empty).or _ = _
  rw [hempty]
  rfl

section

variable (hout : v.Outcome job f base) (hdelta : delta.isEmpty = true)
include hout hdelta

/-- A body is found exactly where one was carried. -/
theorem Epoch.resolvesBody_iff (hv : v.Epoch) (hs : v.wal ≠ s) (hj : v.wal ≠ j)
    (hseg : job.segmentUlid = s) (h : Hash) :
    MapLayers.ResolvesBody ⟨base, v.maps.frozen, delta⟩ (v.Placed s j) h ↔ v.BodyCarried job f h := by
  have hafter : lookupExtent ⟨base, v.maps.frozen, delta⟩ h = _ :=
    findSome?_after _ ((lookups_of_isEmpty hdelta).1 h)
  have hbelow : v.maps.below.lookupExtent h = _ := findSome?_below _ rfl
  rw [MapLayers.ResolvesBody, BodyCarried, hafter]
  cases hfrozen : (v.maps.frozen.reverse.map FrozenLayer.maps).findSome? fun m =>
      m.extentIndex.lookup h with
  | some loc =>
    -- a frozen layer answers before and after
    rw [hfrozen] at hbelow
    refine iff_of_true ⟨loc, rfl, .inr (.inr ⟨loc, hbelow, rfl⟩)⟩ (.inl ?_)
    rw [hbelow]
    rfl
  | none =>
    rw [hfrozen] at hbelow
    rw [none_or]
    -- otherwise the owner of the hash in the new `base` decides
    have howner : (∃ loc, base.extentIndex.lookup h = some loc ∧ v.Placed s j h loc.segmentId) ↔
        ∃ u, base.extentIndex.owner h = some u ∧ v.Placed s j h u := by
      simp [ExtentIndex.owner]
    rw [howner, hout.owner h]
    cases ho : v.owns h with
    | true =>
      have hnone := (hv.of_owns ho).2.2
      cases hc : f.carrier job h with
      | none => simp [Placed, hnone, hs, hj]
      | some w =>
        cases hsrc : f.deltaSource job w with
        | some src => simp [hnone, hsrc]
        | none => simp [Placed, hnone, hsrc, hseg]
    | false =>
      rw [if_neg (by simp), ExtentIndex.owner]
      cases hl : v.maps.base.extentIndex.lookup h <;> simp [Placed, hbelow, hl]

/-- The sources to rebuild a hash from are those the layers below had, or the carrier's. -/
theorem sources_after {h : Hash} (hshadow : ¬ v.Shadowed h) :
    ((lookupDelta ⟨base, v.maps.frozen, delta⟩ h).map fun d =>
      d.options.map sourceHash).getD [] = v.sourcesOf job f h := by
  have hafter : lookupDelta ⟨base, v.maps.frozen, delta⟩ h = _ :=
    findSome?_after _ ((lookups_of_isEmpty hdelta).2.1 h)
  have hbelow : v.maps.below.lookupDelta h = _ := findSome?_below _ rfl
  have hsources : ∀ x : ExtentIndex, ((x.lookupDelta h).map fun d =>
      d.options.map sourceHash) = x.sources h := by
    intro x
    rw [ExtentIndex.sources, ExtentIndex.deltaOptions, Option.map_map]
    rfl
  rw [sourcesOf, hafter, hbelow, map_or, map_or, hsources, hsources,
    hout.sources h hshadow, Option.or_assoc]

/-- A hash is served from its own body or from a source exactly where one was carried. -/
theorem Epoch.serves_iff (hv : v.Epoch) (hs : v.wal ≠ s) (hj : v.wal ≠ j)
    (hseg : job.segmentUlid = s) (h : Hash) :
    (MapLayers.ResolvesBody ⟨base, v.maps.frozen, delta⟩ (v.Placed s j) h ∨
      ∃ d, lookupDelta ⟨base, v.maps.frozen, delta⟩ h = some d ∧ ∃ o ∈ d.options,
        MapLayers.ResolvesBody ⟨base, v.maps.frozen, delta⟩ (v.Placed s j) o.sourceHash) ↔
    (v.BodyCarried job f h ∨ ∃ src ∈ v.sourcesOf job f h, v.BodyCarried job f src) := by
  simp only [hv.resolvesBody_iff hout hdelta hs hj hseg]
  by_cases hshadow : v.Shadowed h
  · have hbody : v.BodyCarried job f h := .inl ((v.maps.isSome_below_iff h).mpr (.inr hshadow))
    exact iff_of_true (.inl hbody) (.inl hbody)
  · rw [← sources_after hout hdelta hshadow]
    cases lookupDelta ⟨base, v.maps.frozen, delta⟩ h with
    | none => simp
    | some d => simp

end

/-- A segment that no layer names has no journal body before the promote. -/
theorem Epoch.journalOwner_fold_of_new (hv : v.Epoch) {c : Ulid} (hc : c ≠ v.wal)
    (hnew : ¬ v.maps.base.extentIndex.Names c) (h : Hash) :
    (v.maps.base.fold v.maps.delta).extentIndex.journalOwner c h = none := by
  rw [ExtentIndex.journalOwner, lookupJournal_fold, map_eq_none_iff, or_eq_none_iff]
  refine ⟨eq_none_iff_forall_not_mem.mpr fun loc hloc => ?_,
    eq_none_iff_forall_not_mem.mpr fun loc hloc => ?_⟩
  · exact hnew (.inr (.inl ⟨c, h, loc, hloc, .inl rfl⟩))
  · exact hc (hv.journal c h loc hloc).1

/-- A journal body is found exactly under the segment that takes the epoch's journal bodies. -/
theorem Epoch.resolvesJournal_iff (hv : v.Epoch) (hout : v.Outcome job f base)
    (hdelta : delta.isEmpty = true) {c : Ulid} (hc : c ≠ v.wal)
    (hnew : ∀ m ∈ v.maps.below.all, ¬ m.extentIndex.Names c) (h : Hash)
    (hplaced : v.Placed s j h job.journalDest) :
    (∃ loc, lookupJournal ⟨base, v.maps.frozen, delta⟩ c h = some loc ∧
      v.Placed s j h loc.segmentId) ↔
    v.ownsJournal h = true ∧ f.rekeys job h = true ∧ c = job.journalDest := by
  have hafter : lookupJournal ⟨base, v.maps.frozen, delta⟩ c h = _ :=
    findSome?_after _ ((lookups_of_isEmpty hdelta).2.2 c h)
  have hfrozen : ((v.maps.frozen.reverse.map FrozenLayer.maps).findSome? fun m =>
      m.extentIndex.lookupJournal c h) = none := by
    rw [List.findSome?_eq_none_iff]
    intro m hm
    refine eq_none_iff_forall_not_mem.mpr fun loc hloc => ?_
    refine hnew m ?_ (.inr (.inl ⟨c, h, loc, hloc, .inl rfl⟩))
    exact List.mem_cons_of_mem _ (List.mem_append_left _ hm)
  have hbase : ¬ v.maps.base.extentIndex.Names c :=
    hnew _ (by simp [all, below])
  have howner := hout.journal c h
  rw [hv.journalOwner_fold_of_new hc hbase, ExtentIndex.journalOwner] at howner
  rw [hafter, hfrozen]
  by_cases hcond : v.ownsJournal h = true ∧ f.rekeys job h = true ∧ c = job.journalDest
  · rw [if_pos ⟨hcond.1, hcond.2.1, .inr hcond.2.2⟩, if_pos hcond.2.2, map_eq_some_iff] at howner
    obtain ⟨loc, hloc, hseg⟩ := howner
    exact iff_of_true ⟨loc, hloc, hseg ▸ hplaced⟩ hcond
  · rw [if_neg (fun hcon => hcond ⟨hcon.1, hcon.2.1, hcon.2.2.resolve_left hc⟩),
      map_eq_none_iff] at howner
    refine iff_of_false ?_ hcond
    rintro ⟨loc, hloc, -⟩
    rw [howner] at hloc
    cases hloc

/-- The new `base` names the WAL exactly where a location found no write to move it. -/
theorem Epoch.names_iff (hv : v.Epoch) (hs : v.wal ≠ job.segmentUlid)
    (hdest : v.wal ≠ job.journalDest) (hout : v.Outcome job f base) :
    ¬ base.extentIndex.Names v.wal ↔ (∀ h, v.owns h = true → (f.carrier job h).isSome = true) ∧
        ∀ h, v.ownsJournal h = true → f.rekeys job h = true := by
  constructor
  · intro hno
    refine ⟨fun h ho => ?_, fun h ho => ?_⟩
    · by_contra hc
      have howner := hout.owner h
      rw [not_isSome_iff_eq_none.mp hc, ho, if_pos rfl, elim_none, ExtentIndex.owner,
        map_eq_some_iff] at howner
      obtain ⟨loc, hloc, hseg⟩ := howner
      exact hno (.inl ⟨h, loc, hloc, hseg⟩)
    · by_contra hr
      have howner := hout.journal v.wal h
      rw [if_neg (fun hcon => hr hcon.2.1)] at howner
      have hsome := hv.isSome_journalOwner_fold h
      rw [← howner, ho, ExtentIndex.journalOwner, isSome_map] at hsome
      obtain ⟨loc, hloc⟩ := isSome_iff_exists.mp hsome
      exact hno (.inr (.inl ⟨v.wal, h, loc, hloc, .inl rfl⟩))
  · rintro ⟨hdata, hjournal⟩ (⟨h, loc, hloc, hseg⟩ | ⟨u, h, loc, hloc, hor⟩ | ⟨h, d, hd, hseg⟩)
    · have howner := hout.owner h
      rw [ExtentIndex.owner, hloc, map_some, hseg] at howner
      cases ho : v.owns h with
      | true =>
        obtain ⟨w, hw⟩ := isSome_iff_exists.mp (hdata h ho)
        rw [ho, if_pos rfl, hw, elim_some] at howner
        split_ifs at howner
        exact hs (some.inj howner)
      | false =>
        rw [ho] at howner
        obtain ⟨l, hl, hl'⟩ := map_eq_some_iff.mp howner.symm
        exact hv.base_unnamed (.inl ⟨h, l, hl, hl'⟩)
    · have howner := hout.journal u h
      rw [ExtentIndex.journalOwner, hloc, map_some] at howner
      split_ifs at howner with hcond hu
      · have hseg := some.inj howner
        rcases hor with h1 | h1
        · exact hdest (h1.symm.trans hu)
        · exact hdest (h1.symm.trans hseg)
      · rw [ExtentIndex.journalOwner, lookupJournal_fold] at howner
        obtain ⟨l, hl, hl'⟩ := map_eq_some_iff.mp howner.symm
        rcases or_eq_some_iff.mp hl with hl | ⟨-, hl⟩
        · refine hv.base_unnamed (.inr (.inl ⟨u, h, l, hl, ?_⟩))
          exact hor.imp_right fun h1 => hl'.trans h1
        · obtain ⟨rfl, -⟩ := hv.journal u h l hl
          have ho : v.ownsJournal h = true := isSome_iff_exists.mpr ⟨l, hl⟩
          exact hcond ⟨ho, hjournal h ho, .inl rfl⟩
    · exact hout.deltas h d hd hseg

/-- Only the new `base` can still name the WAL. -/
theorem Epoch.unnamed_after_iff (hv : v.Epoch) (hdelta : delta.isEmpty = true) :
    (∀ m ∈ all ⟨base, v.maps.frozen, delta⟩, ¬ m.extentIndex.Names v.wal) ↔
      ¬ base.extentIndex.Names v.wal := by
  constructor
  · intro h
    exact h base (by simp [all])
  · intro hbase m hm
    rcases List.mem_cons.mp hm with rfl | hm
    · exact not_names_of_isEmpty hdelta v.wal
    · rcases List.mem_append.mp hm with hm | hm
      · exact hv.unnamed m (List.mem_cons_of_mem _ (List.mem_append_left _ hm))
      · rw [List.mem_singleton.mp hm]
        exact hbase

/-- The segment an extent passes to takes the journal bodies, unless the journal share exists and
does not hold the extent. -/
theorem claimant_eq_dest_iff (hne : job.segmentUlid ≠ job.journalSegmentUlid) (k : ℕ) (e : MapEntry) :
    (if job.journalClaims k e then job.journalSegmentUlid else job.segmentUlid) = job.journalDest ↔
      (job.splits = true → job.journalClaims k e = true) := by
  rw [journalDest]
  cases hs : job.splits with
  | true =>
    cases job.journalClaims k e with
    | true => simp
    | false => simp [hne]
  | false =>
    have hno : job.journalClaims k e = false := by
      rw [journalClaims, List.any_eq_false]
      intro w hw
      obtain ⟨hw, hin⟩ := List.mem_filter.mp hw
      cases (inJournal_of_inside hw hin).1.symm.trans hs
    simp [hno]

/-- **Readable exactly when the tiers agree**, for any epoch. -/
theorem Epoch.leavesReadable_iff (hv : v.Epoch) (hs : v.wal < s) (hj : s < j)
    (hnew : ∀ m ∈ v.maps.below.all, ¬ m.extentIndex.Names s ∧ ¬ m.extentIndex.Names j)
    (derived : Option JournalRanges) (f : Formation) :
    (∃ after, v.promote s j derived f = .ok after ∧ v.LeavesReadable s j after) ↔
      v.TiersAgree (v.takeWalIntoPromoteJob s j derived) f := by
  obtain ⟨base, delta, hpromote, hdelta, hout⟩ := hv.promote_outcome hs hj derived f
  generalize hjob : v.takeWalIntoPromoteJob s j derived = job at hout ⊢
  have hsu : job.segmentUlid = s := by rw [← hjob]; rfl
  have hju : job.journalSegmentUlid = j := by rw [← hjob]; rfl
  have hwj := (hs.trans hj).ne
  have hdest : job.journalDest = s ∨ job.journalDest = j := by
    rw [journalDest, hsu, hju]
    split_ifs
    · exact .inr rfl
    · exact .inl rfl
  have hdestwal : v.wal ≠ job.journalDest := by
    rcases hdest with h | h
    · rw [h]; exact hs.ne
    · rw [h]; exact hwj
  have hplaced : ∀ h, v.Placed s j h job.journalDest := fun h => hdest.elim .inl fun h => .inr (.inl h)
  have hnames := hv.names_iff (hsu.symm ▸ hs.ne) hdestwal hout
  have hunnamed : (∀ m ∈ all ⟨base, v.maps.frozen, delta⟩, _) ↔ _ :=
    hv.unnamed_after_iff hdelta
  -- what a claim of the epoch resolves to
  have hclaim : ∀ k e,
      (MapLayers.Resolves ⟨base, v.maps.frozen, delta⟩ (v.Placed s j)
        (if job.journalClaims k e then job.journalSegmentUlid else job.segmentUlid) e.hash ↔
      (v.ownsJournal e.hash = true ∧ f.rekeys job e.hash = true ∧
        (job.splits = true → job.journalClaims k e = true)) ∨
      v.BodyCarried job f e.hash ∨ ∃ src ∈ v.sourcesOf job f e.hash, v.BodyCarried job f src) := by
    intro k e
    rw [MapLayers.Resolves, hv.serves_iff hout hdelta hs.ne hwj hsu, hv.resolvesJournal_iff hout hdelta
      ?_ ?_ _ (hplaced _), claimant_eq_dest_iff (by rw [hsu, hju]; exact hj.ne)]
    · split_ifs
      · rw [hju]; exact hwj.symm
      · rw [hsu]; exact hs.ne'
    · intro m hm
      split_ifs
      · rw [hju]; exact (hnew m hm).2
      · rw [hsu]; exact (hnew m hm).1
  constructor
  · rintro ⟨after, hok, hread⟩
    obtain rfl : _ = after := Except.ok.inj (hpromote.symm.trans hok)
    obtain ⟨hdata, hjournal⟩ := hnames.mp (hunnamed.mp hread.unnamed)
    refine ⟨hdata, hjournal, fun k e hk hzero => ?_⟩
    have hpos := hv.inv.wf.pos hk
    obtain ⟨c, hc, hres⟩ := hread.readable k e.hash _ _
      (hv.inv.wf.lookupWithClaimant_of_coveredBy ⟨hk, le_refl k, by omega⟩) hzero
    have hlook := hout.wf.lookupWithClaimant_of_coveredBy
      ⟨hout.extents k e hk, le_refl k, show k < k + e.lbaLength by omega⟩
    obtain rfl : c = _ := by
      have h := mem_unique hc hlook
      exact congrArg (fun v => v.2.2) h
    rcases (hclaim k e).mp hres with ⟨h1, -, h2⟩ | h1 | h1
    · exact .inr (.inr ⟨h1, h2⟩)
    · exact .inl h1
    · exact .inr (.inl h1)
  · intro hagree
    refine ⟨_, hpromote, hunnamed.mpr (hnames.mpr ⟨hagree.data, hagree.journal⟩), ?_⟩
    intro x h off c hx hzero
    obtain ⟨k, e, hcov, hval⟩ := hv.inv.wf.lookupWithClaimant_eq_some_iff.mp hx
    obtain ⟨rfl, rfl, -⟩ : h = e.hash ∧ off = e.payloadBlockOffset + (x - k) ∧ _ :=
      by simpa [MapEntry.valueAt] using hval
    have hlook := hout.wf.lookupWithClaimant_of_coveredBy (x := x)
      ⟨hout.extents k e hcov.1, hcov.2.1, hcov.2.2⟩
    refine ⟨_, hlook, (hclaim k e).mpr ?_⟩
    rcases hagree.claims k e hcov.1 hzero with h1 | h1 | ⟨h1, h2⟩
    · exact .inr (.inl h1)
    · exact .inr (.inr h1)
    · exact .inl ⟨h1, hagree.journal _ h1, h2⟩

end Resolved

/-- **Exactly when a promote leaves its epoch readable**, whatever the journal window did between
the writes and the take. For every epoch of commits to a freshly opened WAL and every job taken from
it, the promote succeeds, no location names the WAL any more and every claim of the epoch resolves,
if and only if the tier each write was given agrees with the tier its segment entry gets. -/
theorem promote_readable_iff {v₀ : Volume} (hopened : v₀.Opened) {cs : List Commit}
    (hcs : ∀ c ∈ cs, c.Fits) {s j : Ulid} (hs : v₀.wal < s) (hj : s < j)
    (hnew : ∀ m ∈ v₀.maps.all, ¬ m.extentIndex.Names s ∧ ¬ m.extentIndex.Names j)
    (derived : Option JournalRanges) (f : Formation) :
    (∃ after, (v₀.commits cs).promote s j derived f = .ok after ∧
        (v₀.commits cs).LeavesReadable s j after) ↔
      (v₀.commits cs).TiersAgree ((v₀.commits cs).takeWalIntoPromoteJob s j derived) f := by
  obtain ⟨hwal, hbase, hfrozen⟩ := v₀.commits_frame cs
  refine (hopened.epoch.commits hcs).leavesReadable_iff (hwal ▸ hs) hj ?_ derived f
  have hbelow : (v₀.commits cs).maps.below = v₀.maps := by
    rw [below, hbase, hfrozen, ← hopened.delta]
  rw [hbelow]
  exact hnew

/-- A volume that holds nothing, with WAL `1` open under `window`. -/
def blank (window : JournalRanges) : Volume := ⟨.new .empty, 1, [], window⟩

theorem blank_opened (window : JournalRanges) : (blank window).Opened where
  pending := rfl
  delta := rfl
  base := LbaMap.inv_new
  frozen := by simp [blank, new]
  unnamed := by
    intro m hm
    have hempty : m = .empty := by simpa [blank, new, all] using hm
    exact not_names_of_isEmpty (by rw [hempty]; rfl) _

/-- The first eight blocks. -/
def headWindow : JournalRanges := ⟨[(0, 8)], by decide, by decide⟩

/-- One write inside the window and one outside, under one window throughout. -/
theorem promote_readable_same_window : ∃ after, ((blank headWindow).commits
        [.write 4 1 7 .none 4096 0, .write 16 1 9 .none 4096 4096]).promote 2 3 none .plain =
        .ok after ∧
      ((blank headWindow).commits
        [.write 4 1 7 .none 4096 0, .write 16 1 9 .none 4096 4096]).LeavesReadable 2 3 after := by
  refine (promote_readable_iff (blank_opened headWindow) (by decide) (by decide) (by decide) ?_ none
    .plain).mpr ⟨?_, ?_, ?_⟩
  · intro m hm
    have hempty : m = .empty := by simpa [blank, new, all] using hm
    exact ⟨not_names_of_isEmpty (by rw [hempty]; rfl) _,
      not_names_of_isEmpty (by rw [hempty]; rfl) _⟩
  · intro h ho
    have h9 : h = 9 := by
      by_contra hne
      have hnone : ((∅ : AList fun _ : Hash => ExtentLocation).insert 9
          ⟨1, 4096, 4096, .none, .local, 0, none⟩).lookup h = none := by
        rw [lookup_insert_ne hne, lookup_empty]
      cases ho.symm.trans (congrArg Option.isSome hnone)
    subst h9
    decide +kernel
  · intro h ho
    have h7 : h = 7 := by
      by_contra hne
      have hnone : ((∅ : AList fun _ : Hash => ExtentLocation).insert 7
          ⟨1, 0, 4096, .none, .local, 0, none⟩).lookup h = none := by
        rw [lookup_insert_ne hne, lookup_empty]
      cases ho.symm.trans (congrArg Option.isSome hnone)
    subst h7
    decide +kernel
  · intro k e hk _
    have hget : ((empty.insert 4 ⟨1, 7, 0, 1⟩).insert 16 ⟨1, 9, 0, 1⟩ :
        OrdMap ℕ MapEntry).get? k = some e := hk
    rw [get?_insert, get?_insert] at hget
    split_ifs at hget with h16 h4
    · obtain rfl := some.inj hget
      exact .inl (.inr ⟨by decide +kernel, _, rfl, by decide +kernel⟩)
    · obtain rfl := some.inj hget
      subst h4
      exact .inr (.inr ⟨by decide +kernel, fun _ => by decide +kernel⟩)
    · cases hget

/-- A window derived at the take: the write went to the DATA map, its entry goes to the journal tier,
and the location keeps naming the WAL. -/
theorem derived_window_strands_location :
    ¬ ∃ after, ((blank .EMPTY).commits [.write 4 1 7 .none 4096 0]).promote 2 3 (some headWindow)
        .plain = .ok after ∧
      ((blank .EMPTY).commits [.write 4 1 7 .none 4096 0]).LeavesReadable 2 3 after := by
  rintro ⟨after, hok, hread⟩
  have hbad := congrArg (fun r => r.toOption.bind fun l => l.base.extentIndex.lookup 7) hok
  have hloc : after.base.extentIndex.lookup 7 = some ⟨1, 0, 4096, .none, .local, 0, none⟩ :=
    hbad.symm.trans (by decide +kernel)
  exact hread.unnamed after.base (by simp [all]) (.inl ⟨7, _, hloc, rfl⟩)

end Volume

end Elide
