import Elide.Volume.Reap

/-!
# Reaping frees only what nothing references

The fold checks a data segment against counts that the same pass changes: once a segment is taken
its source records are gone, and a source that only they named is free for the segments after it.
Which segments a pass takes is decided by the claims and by the records of the segments it has not
taken (`ReapProgress.takenBy`), and by nothing else: a recipe is protected by its record, not by the
sources in it. The two differ when a second encoding of the hash has replaced the record.

So a pass strands a recipe exactly if it lands, the recipe's own segment stays, and each of its
located sources is at a segment that is taken.

## Main results

* `ReapProgress.Swept`: what the loop of the fold keeps.
* `ReapProgress.mem_ulids_iff`: the segments the fold takes, said of the maps before it.
* `Volume.reap_safe_iff`: a pass strands no claim and no recipe, and leaves no claim and no location
  at a segment it unlinks, exactly if each recipe that stays has a source at a segment that stays, or
  the pass does not land.
* `Volume.reap_strands_recipe`: a recipe whose record was replaced by a second encoding loses its
  source.
-/

namespace Elide

open List ExtentIndex MapLayers AList Bool

namespace ReapProgress

/-- The segments taken so far. -/
def ulids (s : ReapProgress) : List Ulid := s.reaped.map ReapSegment.ulid

/-- The segment lists what `x` has at it, and a journal segment lists nothing. -/
structure ListedBy (x : ExtentIndex) (seg : ReapSegment) : Prop where
  owned : ∀ h, x.ownerHere seg.ulid h = true → h ∈ seg.ownedHashes
  journal : seg.journal = true → seg.ownedHashes = []

/-- The progress `s` of a fold that started from the index `x`, with the claims of `view`: what was
at the segments taken is gone, and nothing else. -/
structure Swept (view : LbaMap) (x : ExtentIndex) (s : ReapProgress) : Prop where
  lookup : ∀ h loc, s.index.lookup h = some loc ↔ x.lookup h = some loc ∧ loc.segmentId ∉ s.ulids
  lookupDelta : ∀ h d, s.index.lookupDelta h = some d ↔
    x.lookupDelta h = some d ∧ d.segmentId ∉ s.ulids
  removed : ∀ h, h ∈ s.removed ↔ ∃ u ∈ s.ulids, x.ownerHere u h = true
  free : ∀ h ∈ s.removed, view.isReferenced h = false
  journal : ∀ u h, s.index.lookupJournal u h = if u ∈ s.ulids then none else x.lookupJournal u h
  records : ∀ u k, s.index.sourceRecord u k = if u ∈ s.ulids then none else x.sourceRecord u k
  counts : s.index.SourcesExact

variable {view : LbaMap} {x : ExtentIndex} {s : ReapProgress} {seg : ReapSegment}

section

variable (hs : s.Swept view x) {h : Hash}
include hs

theorem Swept.ownerHere_iff {u : Ulid} :
    s.index.ownerHere u h = true ↔ x.ownerHere u h = true ∧ u ∉ s.ulids := by
  simp only [ExtentIndex.ownerHere_iff, hs.lookup, hs.lookupDelta]
  constructor
  · rintro (⟨loc, ⟨hloc, hout⟩, rfl⟩ | ⟨d, ⟨hd, hout⟩, rfl⟩)
    · exact ⟨.inl ⟨loc, hloc, rfl⟩, hout⟩
    · exact ⟨.inr ⟨d, hd, rfl⟩, hout⟩
  · rintro ⟨⟨loc, hloc, rfl⟩ | ⟨d, hd, rfl⟩, hout⟩
    · exact .inl ⟨loc, ⟨hloc, hout⟩, rfl⟩
    · exact .inr ⟨d, ⟨hd, hout⟩, rfl⟩

/-- What was not dropped is there. -/
theorem Swept.lookup_of_not_mem (hh : h ∉ s.removed) :
    s.index.lookup h = x.lookup h ∧ s.index.lookupDelta h = x.lookupDelta h := by
  constructor
  · refine Option.ext fun loc => (hs.lookup h loc).trans (and_iff_left_of_imp fun hloc hu => ?_)
    exact hh ((hs.removed h).mpr ⟨_, hu, ownerHere_of_lookup hloc⟩)
  · refine Option.ext fun d => (hs.lookupDelta h d).trans (and_iff_left_of_imp fun hd hu => ?_)
    exact hh ((hs.removed h).mpr ⟨_, hu, ownerHere_of_lookupDelta hd⟩)

end

theorem ulids_append (stats : ReapStats) (index : ExtentIndex) (removed : Finset Hash) :
    (⟨stats, index, removed, s.reaped ++ [seg]⟩ : ReapProgress).ulids = s.ulids ++ [seg.ulid] :=
  map_append

/-- **One segment of the fold.** -/
theorem Swept.reapSegment (h : s.Swept view x) (hlisted : ListedBy x seg) :
    (reapSegment view s seg).Swept view x := by
  rw [Elide.reapSegment]
  cases hrefuse : reapRefuses view s.index seg with
  | true => exact ⟨h.1, h.2, h.3, h.4, h.5, h.6, h.7⟩
  | false =>
    have hr := s.index.disowns_removeInputOwned seg.ulid seg.ownedHashes ∅
    have hmem : ∀ k u, (k, u) ∈ (seg.ownedHashes.filter fun h => decide (h ∉ (∅ : Finset Hash))).map
        (fun h => (h, seg.ulid)) ↔ k ∈ seg.ownedHashes ∧ u = seg.ulid := by
      simp [eq_comm]
    simp only [false_eq_true, if_false, purge_eq]
    generalize (s.index.removeInputOwned seg.ulid seg.ownedHashes ∅).1 = z at hr ⊢
    refine ⟨fun k loc => ?_, fun k d => ?_, fun k => ?_, fun k hk => ?_, fun u k => ?_,
      fun u k => ?_, ?_⟩
    · rw [ulids_append, mem_append, mem_singleton]
      refine (hr.lookup k loc).trans ?_
      rw [h.lookup, hmem]
      have hat : x.lookup k = some loc → loc.segmentId = seg.ulid → k ∈ seg.ownedHashes :=
        fun hloc hu => hlisted.owned k (hu ▸ ownerHere_of_lookup hloc)
      tauto
    · rw [ulids_append, mem_append, mem_singleton]
      refine (hr.lookupDelta k d).trans ?_
      rw [h.lookupDelta, hmem]
      have hat : x.lookupDelta k = some d → d.segmentId = seg.ulid → k ∈ seg.ownedHashes :=
        fun hd hu => hlisted.owned k (hu ▸ ownerHere_of_lookupDelta hd)
      tauto
    · rw [Finset.mem_union, mem_toFinset, h.removed, hr.removed, ulids_append]
      constructor
      · rintro (⟨u, hu, hown⟩ | ⟨u, hu, hown⟩)
        · exact ⟨u, mem_append_left _ hu, hown⟩
        · exact ⟨u, mem_append_right _ (mem_singleton.mpr ((hmem k u).mp hu).2),
            (h.ownerHere_iff.mp hown).1⟩
      · rintro ⟨u, hu, hown⟩
        by_cases hold : u ∈ s.ulids
        · exact .inl ⟨u, hold, hown⟩
        · obtain rfl := mem_singleton.mp ((mem_append.mp hu).resolve_left hold)
          exact .inr ⟨_, (hmem k _).mpr ⟨hlisted.owned k hown, rfl⟩, h.ownerHere_iff.mpr ⟨hown, hold⟩⟩
    · rcases Finset.mem_union.mp hk with hk | hk
      · exact h.free k hk
      · -- it is a data segment, and it was not refused
        obtain ⟨u, hu, hown⟩ := (hr.removed k).mp (mem_toFinset.mp hk)
        obtain ⟨howned, rfl⟩ := (hmem k u).mp hu
        rw [reapRefuses, and_eq_false_iff] at hrefuse
        rcases hrefuse with hj | hfree
        · rw [hlisted.journal (by simpa using hj)] at howned
          cases howned
        · have := any_eq_false.mp hfree k howned
          simp only [hown, Bool.true_and, not_eq_true, or_eq_false_iff] at this
          exact this.1
    · show ((z.journal.erase seg.ulid).lookup u).bind _ = _
      rw [hr.journal, bind_lookup_erase, ulids_append]
      refine (if_congr Iff.rfl rfl (h.journal u k)).trans ?_
      grind
    · show ((z.deltaSources.erase seg.ulid).lookup u).bind _ = _
      rw [hr.sources, bind_lookup_erase, ulids_append]
      refine (if_congr Iff.rfl rfl (h.records u k)).trans ?_
      grind
    · have hz : (z.purgeJournalSegment seg.ulid).SourcesExact := by
        show Refcount.Exact z.deltaSourceCounts _
        rw [hr.counts]
        have hnamed : (z.purgeJournalSegment seg.ulid).namedDeltaSources =
            s.index.namedDeltaSources := by
          simp [namedDeltaSources, purgeJournalSegment, hr.sources]
        rw [hnamed]
        exact h.counts
      have := hz.purge seg.ulid
      rwa [purge_eq] at this

/-- **The whole fold**, and it takes segments of its list only. -/
theorem swept_reapProgress (layers : MapLayers) (hx : layers.base.extentIndex.SourcesExact)
    {segs : List ReapSegment} (hsegs : ∀ seg ∈ segs, ListedBy layers.base.extentIndex seg) :
    (reapProgress layers segs).Swept layers.materialised.lbamap layers.base.extentIndex ∧
      ∀ seg ∈ (reapProgress layers segs).reaped, seg ∈ segs := by
  induction segs using List.reverseRecOn with
  | nil =>
    refine ⟨⟨?_, ?_, ?_, ?_, ?_, ?_, hx⟩, ?_⟩ <;> simp [reapProgress, ulids]
  | append_singleton segs seg ih =>
    obtain ⟨hs, hreaped⟩ := ih fun seg' h => hsegs seg' (mem_append_left _ h)
    have hseg : seg ∈ segs ++ [seg] := mem_append_right _ (mem_singleton_self _)
    rw [reapProgress, foldl_append, foldl_cons]
    refine ⟨hs.reapSegment (hsegs seg hseg), ?_⟩
    have hold := fun seg' h => mem_append_left [seg] (hreaped seg' h)
    rw [Elide.reapSegment]
    split_ifs
    · exact hold
    · exact forall_mem_append.mpr ⟨hold, forall_mem_singleton.mpr hseg⟩

/-! ### Which segments are taken -/

variable (view x)

/-- A data segment is refused if something it owns is claimed, or recorded as a source by a segment
that is not among those taken. -/
def Refused (taken : List Ulid) (seg : ReapSegment) : Prop :=
  seg.journal = false ∧ ∃ k ∈ seg.ownedHashes, x.ownerHere seg.ulid k = true ∧
    (view.isReferenced k = true ∨ ∃ u ∉ taken, ∃ j, k ∈ (x.sourceRecord u j).getD [])

open Classical in
/-- The segments a pass takes out of its list, said of the index before the pass. -/
noncomputable def takenBy (segs : List ReapSegment) : List Ulid :=
  segs.foldl (fun taken seg => if Refused view x taken seg then taken else taken ++ [seg.ulid]) []

variable {view x}

/-- While a segment is not taken, the fold judges it by what it owned before the pass and by the
records of the segments that are not taken. -/
theorem Swept.reapRefuses_iff (h : s.Swept view x) {taken : List Ulid}
    (htaken : ∀ u, u ∈ s.ulids ↔ u ∈ taken) (hseg : seg.ulid ∉ s.ulids) :
    reapRefuses view s.index seg = true ↔ Refused view x taken seg := by
  have hown : ∀ k, s.index.ownerHere seg.ulid k = true ↔ x.ownerHere seg.ulid k = true :=
    fun k => h.ownerHere_iff.trans (and_iff_left hseg)
  have hnamed : ∀ k, s.index.isNamedDeltaSource k = true ↔
      ∃ u ∉ taken, ∃ j, k ∈ (x.sourceRecord u j).getD [] := by
    intro k
    rw [h.counts.isNamed_iff, mem_named_iff]
    constructor
    · rintro ⟨u, j, hrec⟩
      rw [h.records] at hrec
      split_ifs at hrec with hu
      · cases hrec
      · exact ⟨u, fun hcon => hu ((htaken u).mpr hcon), j, hrec⟩
    · rintro ⟨u, hu, j, hrec⟩
      refine ⟨u, j, ?_⟩
      rwa [h.records, if_neg fun hcon => hu ((htaken u).mp hcon)]
  simp only [reapRefuses, and_eq_true, not_eq_true', any_eq_true, or_eq_true, hown, hnamed]
  rfl

/-- **The segments the fold takes.** -/
theorem mem_ulids_iff (layers : MapLayers) (hx : layers.base.extentIndex.SourcesExact)
    {segs : List ReapSegment} (hsegs : ∀ seg ∈ segs, ListedBy layers.base.extentIndex seg)
    (u : Ulid) : u ∈ (reapProgress layers segs).ulids ↔
      u ∈ takenBy layers.materialised.lbamap layers.base.extentIndex segs := by
  induction segs using List.reverseRecOn generalizing u with
  | nil => exact Iff.rfl
  | append_singleton segs seg ih =>
    have hold := fun seg' h => hsegs seg' (mem_append_left _ h)
    have hs := (swept_reapProgress layers hx hold).1
    have hih := ih hold
    rw [reapProgress, foldl_append, foldl_cons, foldl_nil, takenBy, foldl_append, foldl_cons,
      foldl_nil, ← takenBy]
    change u ∈ (Elide.reapSegment _ (reapProgress layers segs) seg).ulids ↔ _
    generalize reapProgress layers segs = s at hs hih ⊢
    rw [Elide.reapSegment]
    by_cases hseg : seg.ulid ∈ s.ulids
    · -- a name that is taken already
      have hadd : ∀ {l : List Ulid}, seg.ulid ∈ l → (u ∈ l ++ [seg.ulid] ↔ u ∈ l) := by
        intro l hl
        rw [mem_append, mem_singleton]
        exact or_iff_left_of_imp fun heq => heq ▸ hl
      have hnew : u ∈ (s.reaped ++ [seg]).map ReapSegment.ulid ↔ u ∈ s.ulids := by
        rw [map_append]
        exact hadd hseg
      split_ifs
      · exact hih u
      · exact (hih u).trans (hadd ((hih _).mp hseg)).symm
      · exact hnew.trans (hih u)
      · exact hnew.trans ((hih u).trans (hadd ((hih _).mp hseg)).symm)
    · have hrefuse := hs.reapRefuses_iff hih hseg
      by_cases hr : Refused layers.materialised.lbamap layers.base.extentIndex
          (takenBy layers.materialised.lbamap layers.base.extentIndex segs) seg
      · rw [if_pos (hrefuse.mpr hr), if_pos hr]
        exact hih u
      · rw [if_neg fun hcon => hr (hrefuse.mp hcon), if_neg hr]
        show u ∈ (s.reaped ++ [seg]).map ReapSegment.ulid ↔ _
        rw [map_append, mem_append, mem_append]
        exact or_congr_left (hih u)

end ReapProgress

/-! ## Candidates -/

/-- What the parse makes of a candidate. -/
structure ParsedFrom (c : ReapCandidate) (seg : ReapSegment) : Prop where
  ulid : seg.ulid = c.segment.ulid
  journal : seg.journal = c.journal
  owned_journal : c.journal = true → seg.ownedHashes = []
  owned_data : c.journal = false → ∃ entries, c.segment.index = some entries ∧
    seg.ownedHashes = (entries.filter fun e => decide (e.kind ≠ .dedupRef)).map SegmentEntry.hash

theorem exists_parsedFrom {cap n : ℕ} {cs : List ReapCandidate} {seg : ReapSegment}
    (h : seg ∈ parseWithCap cap n cs) : ∃ c ∈ cs, ParsedFrom c seg := by
  induction cs generalizing n with
  | nil => simp [parseWithCap] at h
  | cons c cs ih =>
    have hrest : ∀ {n}, seg ∈ parseWithCap cap n cs → ∃ c' ∈ c :: cs, ParsedFrom c' seg := by
      intro n hmem
      obtain ⟨c', hc', hp⟩ := ih hmem
      exact ⟨c', mem_cons_of_mem _ hc', hp⟩
    rw [parseWithCap] at h
    split_ifs at h with hj hcap
    · rcases mem_cons.mp h with rfl | h
      · exact ⟨c, mem_cons_self, rfl, hj.symm, fun _ => rfl, fun hn => by simp [hj] at hn⟩
      · exact hrest h
    · exact hrest h
    · have hj' : c.journal = false := by simpa using hj
      cases hindex : c.segment.index with
      | none =>
        rw [hindex] at h
        exact hrest h
      | some entries =>
        rw [hindex] at h
        rcases mem_cons.mp h with rfl | h
        · exact ⟨c, mem_cons_self, rfl, hj'.symm, fun hn => by simp [hj'] at hn,
            fun _ => ⟨entries, hindex, rfl⟩⟩
        · exact hrest h

/-- What the sweep says of a candidate. -/
structure SweptFrom (lbamap : LbaMap) (index : ExtentIndex) (files : List OpenSegment)
    (floor : Option Ulid) (c : ReapCandidate) : Prop where
  listed : c.segment ∈ files
  floor : ∀ f, floor = some f → f < c.segment.ulid
  unclaimed : ∀ e ∈ lbamap.inner.entries, e.2.claimantUlid ≠ c.segment.ulid
  journal : c.journal = true → (∀ e ∈ index.inner.entries, e.2.segmentId ≠ c.segment.ulid) ∧
    ∀ e ∈ index.deltas.entries, e.2.segmentId ≠ c.segment.ulid

theorem sweptFrom_of_mem {lbamap : LbaMap} {index : ExtentIndex} {files : List OpenSegment}
    {floor : Option Ulid} {c : ReapCandidate}
    (h : c ∈ sweepUnreachable lbamap index files floor) : SweptFrom lbamap index files floor c := by
  obtain ⟨f, hf, rfl⟩ := mem_map.mp h
  obtain ⟨hmem, hcond⟩ := mem_filter.mp hf
  simp only [and_eq_true, not_eq_true', sweepReferenced, or_eq_false_iff] at hcond
  obtain ⟨hfloor, ⟨hclaims, -⟩, -⟩ := hcond
  refine ⟨hmem, ?_, ?_, ?_⟩
  · rintro u rfl
    simpa using hfloor
  · intro e he
    have := any_eq_false.mp hclaims (e.1, e.2.lbaLength, e.2.hash, e.2.payloadBlockOffset,
      e.2.claimantUlid) (mem_map.mpr ⟨e, he, rfl⟩)
    simpa using this
  · intro hj
    simp only [and_eq_true, not_eq_true', sweepDurable, or_eq_false_iff] at hj
    obtain ⟨-, hinner, hdeltas⟩ := hj
    exact ⟨fun e he => by simpa using any_eq_false.mp hinner e he,
      fun e he => by simpa using any_eq_false.mp hdeltas e he⟩

/-! ## The maps a pass runs over -/

/-- A claim the map answers with is one of its entries. -/
theorem LbaMap.exists_entry_of_lookup {m : LbaMap} {x : ℕ} {h : Hash} {off : ℕ} {c : Ulid}
    (hx : m.lookupWithClaimant x = some (h, off, c)) :
    ∃ e ∈ m.inner.entries, e.2.claimantUlid = c := by
  rw [lookupWithClaimant] at hx
  split at hx
  · cases hx
  · rename_i start e hfloor
    split_ifs at hx
    obtain ⟨-, -, rfl⟩ : e.hash = h ∧ _ ∧ e.claimantUlid = c := by simpa using hx
    exact ⟨(start, e), OrdMap.mem_entries_iff.mpr (OrdMap.floor?_eq_some_iff.mp hfloor).1, rfl⟩

/-- A recipe with a located source whose segment is not among `taken` has one at a segment that is
not among them either. -/
def ExtentIndex.KeepsSource (x : ExtentIndex) (taken : List Ulid) : Prop :=
  ∀ h d, x.lookupDelta h = some d → d.segmentId ∉ taken →
    (∃ o ∈ d.options, (x.lookup o.sourceHash).isSome = true) →
    ∃ o ∈ d.options, ∃ loc ∈ x.lookup o.sourceHash, loc.segmentId ∉ taken

namespace MapLayers

/-- What an apply that changes the extent index of `base` only does to a body. -/
theorem locates_swapBase_iff {l : MapLayers} {post : Maps} {h : Hash} :
    (l.swapBase post).locates h = true ↔ (l.delta.extentIndex.lookup h).isSome = true ∨
        (∃ layer ∈ l.frozen, (layer.maps.extentIndex.lookup h).isSome = true) ∨
        (post.extentIndex.lookup h).isSome = true :=
  locates_iff

theorem claimAt_swapBase {l : MapLayers} {post : Maps} (hpost : post.lbamap = l.base.lbamap)
    (x : ℕ) : (l.swapBase post).claimAt x = l.claimAt x := by
  have hall : (l.swapBase post).all.map Maps.lbamap = l.all.map Maps.lbamap := by
    simp [all, swapBase, hpost]
  rw [claimAt, claimAt, hall]

end MapLayers

namespace Volume

/-- The maps of a volume whose open generation is `files`. The frozen layers hold the bodies of
their own WALs and no recipes, a journal body is in the segment it is keyed by, and a location at a
file is of one of the hashes its index lists. -/
structure OpenGeneration (v : Volume) (files : List OpenSegment) : Prop where
  frozen : ∀ layer ∈ v.maps.frozen, layer.maps.lbamap.Inv
  counts : v.maps.base.extentIndex.SourcesExact
  unnamed : ∀ layer ∈ v.maps.frozen, ∀ f ∈ files, ¬ layer.maps.extentIndex.Names f.ulid
  recipes : ∀ layer ∈ v.maps.frozen, ∀ h, layer.maps.extentIndex.lookupDelta h = none
  sealed : ∀ f ∈ files, f.ulid ≠ v.wal
  listed : ∀ f ∈ files, ∀ entries, f.index = some entries → ∀ h,
    v.maps.base.extentIndex.ownerHere f.ulid h = true →
    h ∈ (entries.filter fun e => decide (e.kind ≠ .dedupRef)).map SegmentEntry.hash
  keyed : ∀ s h loc, v.maps.base.extentIndex.lookupJournal s h = some loc → loc.segmentId = s

/-- What a pass over the maps `before` may do. -/
structure ReapsSafely (floor : Option Ulid) (before : MapLayers) (r : ReapSwap) : Prop where
  resolve : r.maps.ClaimsResolve
  unclaimed : ∀ u ∈ r.unlink, ∀ x h off c, r.maps.claimAt x = some (h, off, c) → c ≠ u
  unnamed : ∀ u ∈ r.unlink, ∀ m ∈ r.maps.all, ¬ m.extentIndex.Names u
  sources : ∀ h d, r.maps.base.extentIndex.lookupDelta h = some d →
    (∃ o ∈ d.options, (before.base.extentIndex.lookup o.sourceHash).isSome = true) →
    ∃ o ∈ d.options, (r.maps.base.extentIndex.lookup o.sourceHash).isSome = true
  floor : ∀ u ∈ r.unlink, ∀ f, floor = some f → f < u
  refused : r.unlink = [] → r.maps = before

variable {v : Volume} {files : List OpenSegment} {floor : Option Ulid}

theorem Epoch.mapsInv (hv : v.Epoch) (hfrozen : ∀ layer ∈ v.maps.frozen, layer.maps.lbamap.Inv) :
    v.maps.Inv :=
  ⟨hv.base, hfrozen, hv.inv⟩

/-- The segments a sweep over `v` hands to the fold. -/
def reapSegments (v : Volume) (files : List OpenSegment) (floor : Option Ulid) :
    List ReapSegment :=
  parseReapCandidates (sweepUnreachable v.maps.materialised.lbamap v.maps.materialised.extentIndex
    files floor)

variable {seg : ReapSegment}

section

variable (hseg : seg ∈ v.reapSegments files floor)
include hseg

/-- Each of them is a file of the generation that the sweep found unreachable. -/
theorem exists_candidate :
    ∃ c, SweptFrom v.maps.materialised.lbamap v.maps.materialised.extentIndex files floor c ∧
      ParsedFrom c seg := by
  obtain ⟨c, hc, hparsed⟩ := exists_parsedFrom hseg
  exact ⟨c, sweptFrom_of_mem hc, hparsed⟩

/-- A data segment lists all that is at it, and nothing is at a journal segment when it is swept. -/
theorem OpenGeneration.listedBy (hg : v.OpenGeneration files) :
    ReapProgress.ListedBy v.maps.base.extentIndex seg := by
  obtain ⟨c, hswept, hparsed⟩ := exists_candidate hseg
  refine ⟨fun h hown => ?_, fun hj => hparsed.owned_journal (hparsed.journal ▸ hj)⟩
  cases hj : c.journal with
  | false =>
    obtain ⟨entries, hindex, howned⟩ := hparsed.owned_data hj
    rw [howned]
    exact hg.listed c.segment hswept.listed entries hindex h (hparsed.ulid ▸ hown)
  | true =>
    obtain ⟨hinner, hdeltas⟩ := hswept.journal hj
    rcases ownerHere_iff.mp hown with ⟨loc, hloc, hid⟩ | ⟨d, hd, hid⟩
    · have hmat := lookup_materialised_of_base hloc
      exact absurd (hid.trans hparsed.ulid) (hinner ⟨h, loc⟩ (mem_lookup_iff.mp hmat))
    · rw [← lookupDelta_materialised] at hd
      exact absurd (hid.trans hparsed.ulid) (hdeltas ⟨h, d⟩ (mem_lookup_iff.mp hd))

/-- A claim that a read of `v` or of later maps finds is not of a swept segment. -/
theorem OpenGeneration.claimant_ne (hg : v.OpenGeneration files) (hv : v.Epoch) {ws : List Commit}
    (hws : ∀ w ∈ ws, w.Fits) {x : ℕ} {h : Hash} {off : ℕ} {c : Ulid}
    (hx : (v.commits ws).maps.claimAt x = some (h, off, c)) : c ≠ seg.ulid := by
  obtain ⟨cand, hswept, hparsed⟩ := exists_candidate hseg
  rw [hparsed.ulid]
  rcases hdelta : (v.commits ws).maps.delta.lbamap.lookupWithClaimant x with _ | ⟨h', off', c'⟩
  · rw [(hv.later_commits hws).claimAt_of_bare hdelta,
      ← (hv.mapsInv hg.frozen).lookupWithClaimant_materialised] at hx
    obtain ⟨e, he, rfl⟩ := LbaMap.exists_entry_of_lookup hx
    exact hswept.unclaimed e he
  · rw [MapLayers.claimAt_eq, hdelta] at hx
    cases hx
    rw [((hv.commits hws).claims x h off c hdelta).1, (v.commits_frame ws).1]
    exact (hg.sealed _ hswept.listed).symm

end

/-! ## The pass -/

section Pass

variable {s : ReapProgress} {view : LbaMap}

section

variable (hs : s.Swept view v.maps.base.extentIndex)
include hs

/-- A recipe that stays keeps a source exactly if one is at a segment that stays. -/
theorem source_kept_iff :
    (∀ h d, s.index.lookupDelta h = some d →
      (∃ o ∈ d.options, (v.maps.base.extentIndex.lookup o.sourceHash).isSome = true) →
      ∃ o ∈ d.options, (s.index.lookup o.sourceHash).isSome = true) ↔
      v.maps.base.extentIndex.KeepsSource s.ulids := by
  simp only [KeepsSource, hs.lookupDelta, Option.isSome_iff_exists, hs.lookup, and_imp]
  rfl

/-- No map names a segment that was taken. -/
theorem OpenGeneration.not_names (hg : v.OpenGeneration files) {u : Ulid} (hu : u ∈ s.ulids) :
    ¬ s.index.Names u := by
  rintro (⟨h, loc, hloc, rfl⟩ | ⟨c, h, loc, hloc, hid⟩ | ⟨h, d, hd, rfl⟩)
  · exact ((hs.lookup h loc).mp hloc).2 hu
  · rw [hs.journal] at hloc
    split_ifs at hloc with hc
    rcases hid with rfl | hid
    · exact hc hu
    · exact hc ((hg.keyed c h loc hloc).symm.trans hid ▸ hu)
  · exact ((hs.lookupDelta h d).mp hd).2 hu

/-- What a claim finds it still finds when `base` has become the index of the pass. -/
theorem OpenGeneration.findsBody_swapBase (hg : v.OpenGeneration files)
    (hkeeps : v.maps.base.extentIndex.KeepsSource s.ulids) {l : MapLayers}
    (hlater : v.maps.Later l)
    (hdelta : ∀ h, l.delta.extentIndex.lookupDelta h = none) {c : Ulid} {h : Hash}
    (hc : c ∉ s.ulids) (hh : h ∉ s.removed) (hfinds : l.findsBody c h = true) :
    (l.swapBase { l.base with extentIndex := s.index }).findsBody c h = true := by
  simp only [findsBody, or_eq_true] at hfinds ⊢
  rcases hfinds with (hj | hloc) | hrecipe
  · left; left
    rw [isSome_lookupJournal_iff] at hj ⊢
    refine hj.imp_right (Or.imp_right fun hb => ?_)
    show (s.index.lookupJournal c h).isSome = true
    rwa [hs.journal, if_neg hc, ← hlater.base]
  · left; right
    rw [locates_swapBase_iff]
    rw [(hs.lookup_of_not_mem hh).1, ← hlater.base]
    exact locates_iff.mp hloc
  · right
    obtain ⟨d, hd, hopt⟩ := Option.any_eq_true _ _ |>.mp hrecipe
    obtain ⟨o, ho, hsrc⟩ := any_eq_true.mp hopt
    -- recipes are in `base` only, and this one is of a hash that was not dropped
    have hfrozen : ∀ layer ∈ l.frozen, layer.maps.extentIndex.lookupDelta h = none :=
      fun layer hlayer => hg.recipes layer (hlater.frozen ▸ hlayer) h
    rw [l.lookupDelta_eq_base (hdelta h) hfrozen] at hd
    have hpost : s.index.lookupDelta h = some d := by
      rw [(hs.lookup_of_not_mem hh).2, ← hlater.base, hd]
    have hrecipe' : (l.swapBase { l.base with extentIndex := s.index }).lookupDelta h = some d :=
      (lookupDelta_eq_base (l.swapBase { l.base with extentIndex := s.index })
        (hdelta h) hfrozen).trans hpost
    rw [hrecipe']
    simp only [Option.any_some, any_eq_true, locates_swapBase_iff]
    rcases locates_iff.mp hsrc with hup | hup | hb
    · exact ⟨o, ho, .inl hup⟩
    · exact ⟨o, ho, .inr (.inl hup)⟩
    · obtain ⟨o', ho', hkept⟩ := (source_kept_iff hs).mpr hkeeps h d hpost
        ⟨o, ho, hlater.base ▸ hb⟩
      exact ⟨o', ho', .inr (.inr hkept)⟩

end

end Pass

/-- The open epoch's bodies are in its WAL. -/
theorem Epoch.not_names_delta (hv : v.Epoch) {u : Ulid} (hu : u ≠ v.wal) :
    ¬ v.maps.delta.extentIndex.Names u := by
  rintro (⟨h, loc, hloc, rfl⟩ | ⟨s, h, loc, hloc, rfl | rfl⟩ | ⟨h, d, hd, -⟩)
  · exact hu (hv.owned h loc hloc).1
  · exact hu (hv.journal s h loc hloc).1
  · exact hu (hv.journal s h loc hloc).2
  · rw [hv.deltas] at hd
    cases hd

/-- A pass that installs nothing is safe. -/
theorem reapsSafely_refused {l : MapLayers} (hl : l.ClaimsResolve) (stats : ReapStats) :
    ReapsSafely floor l ⟨l, stats, []⟩ where
  resolve := hl
  unclaimed := by simp
  unnamed := by simp
  sources := fun _ _ _ h => h
  floor := by simp
  refused := fun _ => rfl

/-- The segments a pass over `v` takes: the sweep hands over its list, and the fold reads the claims
of its own moment. -/
noncomputable def taken (v : Volume) (files : List OpenSegment) (floor : Option Ulid)
    (ws₁ : List Commit) : List Ulid :=
  ReapProgress.takenBy (v.commits ws₁).maps.materialised.lbamap v.maps.base.extentIndex
    (v.reapSegments files floor)

/-- The pass takes a segment, and no write of the open epoch is on a hash located at one. -/
def ReapLands (v : Volume) (files : List OpenSegment) (floor : Option Ulid)
    (ws₁ ws₂ : List Commit) : Prop :=
  v.taken files floor ws₁ ≠ [] ∧ ∀ u ∈ v.taken files floor ws₁, ∀ h,
    v.maps.base.extentIndex.ownerHere u h = true →
      ((v.commits ws₁).commits ws₂).maps.delta.lbamap.isReferenced h = false

section

variable {ws₁ ws₂ : List Commit}

/-- What the fold of a pass has done, and that the segments it took are those said of the maps. -/
theorem OpenGeneration.exists_swept (hg : v.OpenGeneration files) (hv : v.Epoch)
    (h₁ : ∀ w ∈ ws₁, w.Fits) (floor : Option Ulid) :
    ∃ s, reapProgress (v.commits ws₁).maps (v.reapSegments files floor) = s ∧
      s.Swept (v.commits ws₁).maps.materialised.lbamap v.maps.base.extentIndex ∧
      (∀ seg ∈ s.reaped, seg ∈ v.reapSegments files floor) ∧
      ∀ u, u ∈ s.ulids ↔ u ∈ v.taken files floor ws₁ := by
  have hbase := (hv.later_commits h₁).base
  have hown : ∀ seg ∈ v.reapSegments files floor,
      ReapProgress.ListedBy (v.commits ws₁).maps.base.extentIndex seg :=
    fun seg hseg => hbase ▸ hg.listedBy hseg
  have hcounts : (v.commits ws₁).maps.base.extentIndex.SourcesExact := hbase ▸ hg.counts
  obtain ⟨hs, hsegs⟩ := ReapProgress.swept_reapProgress (v.commits ws₁).maps hcounts hown
  rw [hbase] at hs
  refine ⟨_, rfl, hs, hsegs, fun u => ?_⟩
  rw [taken, ← hbase]
  exact ReapProgress.mem_ulids_iff (v.commits ws₁).maps hcounts hown u

variable {s : ReapProgress} {view : LbaMap} (hs : s.Swept view v.maps.base.extentIndex)
include hs

/-- The swap installs a pass exactly if it lands. -/
theorem reapLands_iff (htaken : ∀ u, u ∈ s.ulids ↔ u ∈ v.taken files floor ws₁) :
    v.ReapLands files floor ws₁ ws₂ ↔ s.reaped.isEmpty = false ∧
      ((v.commits ws₁).commits ws₂).maps.deltaClaimsAny s.removed = none := by
  have hnil : v.taken files floor ws₁ = [] ↔ s.reaped.isEmpty = true := by
    rw [eq_nil_iff_forall_not_mem, List.isEmpty_iff, ← map_eq_nil_iff (f := ReapSegment.ulid),
      eq_nil_iff_forall_not_mem]
    exact forall_congr' fun u => not_congr (htaken u).symm
  rw [ReapLands, deltaClaimsAny_eq_none_iff, Ne, hnil, not_eq_true]
  refine and_congr_right fun _ => ⟨fun h k hk => ?_, fun h u hu k hk => ?_⟩
  · obtain ⟨u, hu, hk⟩ := (hs.removed k).mp hk
    exact h u ((htaken u).mp hu) k hk
  · exact h k ((hs.removed k).mpr ⟨u, (htaken u).mpr hu, hk⟩)

variable (hg : v.OpenGeneration files) (hv : v.Epoch) (h₁ : ∀ w ∈ ws₁, w.Fits)
  (h₂ : ∀ w ∈ ws₂, w.Fits) (hsegs : ∀ seg ∈ s.reaped, seg ∈ v.reapSegments files floor)
include hg hv h₁ h₂ hsegs

/-- No layer names a segment that a pass has taken, once its index is installed. -/
theorem OpenGeneration.not_names_swapBase {u : Ulid} (hu : u ∈ s.ulids) {m : Maps}
    (hm : m ∈ (((v.commits ws₁).commits ws₂).maps.swapBase
      { ((v.commits ws₁).commits ws₂).maps.base with extentIndex := s.index }).all) :
    ¬ m.extentIndex.Names u := by
  have hv₁ := hv.commits h₁
  have hlater := (hv.later_commits h₁).trans (hv₁.later_commits h₂)
  obtain ⟨seg, hseg, rfl⟩ := mem_map.mp hu
  obtain ⟨cand, hswept, hparsed⟩ := exists_candidate (hsegs seg hseg)
  rcases mem_cons.mp hm with rfl | hm
  · refine (hv₁.commits h₂).not_names_delta ?_
    rw [(commits_frame _ ws₂).1, (v.commits_frame ws₁).1, hparsed.ulid]
    exact hg.sealed _ hswept.listed
  · rcases mem_append.mp hm with hm | hm
    · obtain ⟨layer, hlayer, rfl⟩ := mem_map.mp hm
      have hlayer' : layer ∈ v.maps.frozen := hlater.frozen ▸ mem_reverse.mp hlayer
      exact hparsed.ulid ▸ hg.unnamed layer hlayer' _ hswept.listed
    · obtain rfl := mem_singleton.mp hm
      exact hg.not_names hs hu

/-- A pass that lands is safe if the recipes keep their sources. -/
theorem reapsSafely_landed (hview : view = (v.commits ws₁).maps.materialised.lbamap)
    (hres : v.maps.ClaimsResolve) (hsources : v.maps.base.extentIndex.KeepsSource s.ulids)
    (hfree : ((v.commits ws₁).commits ws₂).maps.deltaClaimsAny s.removed = none)
    (hreaped : s.reaped.isEmpty = false) (stats : ReapStats) :
    ReapsSafely floor ((v.commits ws₁).commits ws₂).maps
      ⟨((v.commits ws₁).commits ws₂).maps.swapBase
        { ((v.commits ws₁).commits ws₂).maps.base with extentIndex := s.index }, stats, s.ulids⟩ := by
  have hv₁ := hv.commits h₁
  have hv₂ := hv₁.commits h₂
  have hlater₁ := hv.later_commits h₁
  have hlater₂ := hv₁.later_commits h₂
  have hlater := hlater₁.trans hlater₂
  have hres₂ := hv₁.claimsResolve_commits h₂ (hv.claimsResolve_commits h₁ hres)
  have hclaimant : ∀ u ∈ s.ulids, ∀ x h off c,
      ((v.commits ws₁).commits ws₂).maps.claimAt x = some (h, off, c) → c ≠ u := by
    intro u hu x h off c hx
    obtain ⟨seg, hseg, rfl⟩ := mem_map.mp hu
    rw [commits, commits, ← foldl_append] at hx
    exact hg.claimant_ne (hsegs seg hseg) hv (fun w hw => (mem_append.mp hw).elim (h₁ w) (h₂ w)) hx
  -- claims are as before the swap
  have hclaims : ∀ x, (((v.commits ws₁).commits ws₂).maps.swapBase
      { ((v.commits ws₁).commits ws₂).maps.base with extentIndex := s.index }).claimAt x =
      ((v.commits ws₁).commits ws₂).maps.claimAt x := claimAt_swapBase rfl
  refine ⟨fun x h off c hswapped => ?_, fun u hu x h off c hx => ?_, fun u hu m hm => ?_,
    fun h d hd hsrc => ?_, fun u hu f hf => ?_, fun hnil => ?_⟩
  · have hx := (hclaims x).symm.trans hswapped
    have hkept : h ∉ s.removed := hlater₂.not_mem_removed (hv₁.mapsInv (hlater₁.frozen ▸ hg.frozen))
      (hv₂.mapsInv (hlater.frozen ▸ hg.frozen)) (hview ▸ hs.free) hfree hx
    exact (hres₂ x h off c hx).imp_right (hg.findsBody_swapBase hs hsources hlater hv₂.deltas
      (fun hc => hclaimant c hc x h off c hx rfl) hkept)
  · exact hclaimant u hu x h off c ((hclaims x).symm.trans hx)
  · exact hg.not_names_swapBase hs hv h₁ h₂ hsegs hu hm
  · exact (source_kept_iff hs).mpr hsources h d hd (hlater.base ▸ hsrc)
  · obtain ⟨seg, hseg, rfl⟩ := mem_map.mp hu
    obtain ⟨cand, hswept, hparsed⟩ := exists_candidate (hsegs seg hseg)
    exact hparsed.ulid ▸ hswept.floor f hf
  · rw [List.isEmpty_iff.mpr (map_eq_nil_iff.mp hnil)] at hreaped
    cases hreaped

end

/-- **Reaping frees only what nothing references**, exactly as far as sources stay. Whatever the guest
writes between the sweep, the fold and the swap, the pass strands no claim and no recipe and leaves
nothing at what it unlinks, if and only if it does not land or each recipe whose segment stays, and
that has a located source, has one at a segment that stays. -/
theorem reap_safe_iff (hv : v.Epoch) (hg : v.OpenGeneration files) (hres : v.maps.ClaimsResolve)
    (floor : Option Ulid) {ws₁ ws₂ : List Commit} (h₁ : ∀ w ∈ ws₁, w.Fits)
    (h₂ : ∀ w ∈ ws₂, w.Fits) :
    ReapsSafely floor ((v.commits ws₁).commits ws₂).maps
        (reapPass files floor v.maps (v.commits ws₁).maps ((v.commits ws₁).commits ws₂).maps) ↔
      (v.ReapLands files floor ws₁ ws₂ →
        v.maps.base.extentIndex.KeepsSource (v.taken files floor ws₁)) := by
  have hv₁ := hv.commits h₁
  have hlater₂ := hv₁.later_commits h₂
  have hlater := (hv.later_commits h₁).trans hlater₂
  have hres₂ := hv₁.claimsResolve_commits h₂ (hv.claimsResolve_commits h₁ hres)
  obtain ⟨s, hprog, hs, hsegs, htaken⟩ := hg.exists_swept hv h₁ floor
  have hkeeps : v.maps.base.extentIndex.KeepsSource (v.taken files floor ws₁) ↔
      v.maps.base.extentIndex.KeepsSource s.ulids := by
    simp only [KeepsSource, htaken]
  rw [reapLands_iff hs htaken, hkeeps]
  change ReapsSafely floor _ (swapReap _ (foldReap _ (v.reapSegments files floor))) ↔ _
  rw [swapReap, foldReap, hprog]
  split_ifs with hempty
  · refine iff_of_true (reapsSafely_refused hres₂ s.stats) fun h => ?_
    cases h.1.symm.trans hempty
  · have hreaped : s.reaped.isEmpty = false := eq_false_of_ne_true hempty
    cases hfree : ((v.commits ws₁).commits ws₂).maps.deltaClaimsAny s.removed with
    | some _ => exact iff_of_true (reapsSafely_refused hres₂ _) fun h => nomatch h.2
    | none =>
      rw [← hlater₂.base]
      refine ⟨fun hsafe _ => (source_kept_iff hs).mp fun h d hd hsrc => ?_, fun hcond => ?_⟩
      · -- the recipes tell
        exact hsafe.sources h d hd (hlater.base ▸ hsrc)
      · exact reapsSafely_landed hs hg hv h₁ h₂ hsegs rfl hres (hcond ⟨hreaped, rfl⟩) hfree hreaped _

/-- A pass takes files of the generation only. -/
theorem exists_file_of_mem_taken {ws₁ : List Commit} {u : Ulid} (hu : u ∈ v.taken files floor ws₁) :
    ∃ f ∈ files, f.ulid = u := by
  have hmem : ∀ (segs : List ReapSegment), u ∈ ReapProgress.takenBy
      (v.commits ws₁).maps.materialised.lbamap v.maps.base.extentIndex segs →
      ∃ seg ∈ segs, seg.ulid = u := by
    intro segs
    induction segs using List.reverseRecOn with
    | nil => exact fun h => nomatch h
    | append_singleton segs seg ih =>
      intro h
      rw [ReapProgress.takenBy, foldl_append, foldl_cons, foldl_nil, ← ReapProgress.takenBy] at h
      have hcase : u ∈ ReapProgress.takenBy (v.commits ws₁).maps.materialised.lbamap
          v.maps.base.extentIndex segs ∨ seg.ulid = u := by
        split_ifs at h
        · exact .inl h
        · exact (mem_append.mp h).imp_right fun h => (mem_singleton.mp h).symm
      rcases hcase with h | h
      · obtain ⟨seg', hseg', hulid⟩ := ih h
        exact ⟨seg', mem_append_left _ hseg', hulid⟩
      · exact ⟨seg, mem_append_right _ (mem_singleton_self _), h⟩
  obtain ⟨seg, hseg, rfl⟩ := hmem _ hu
  obtain ⟨c, hswept, hparsed⟩ := exists_candidate hseg
  exact ⟨c.segment, hswept.listed, hparsed.ulid.symm⟩

/-! ## A source that is swept

Segment 10 holds encodings of hash 1 and the claim on it. Hash 2 is in segment 5 and hash 3 in
segment 6, and no claim names either. -/

namespace SweptSource

/-- How a segment is registered. -/
def ctx (segment : Ulid) : SegmentRegistrationCtx := ⟨segment, 0, .local, some .cached, .entryInline⟩

/-- A body at block 0. -/
def body (hash : Hash) : SegmentEntry :=
  { hash, startLba := 0, lbaLength := 1, kind := .data, storedLength := 4096 }

/-- An encoding of hash 1 against `source`. -/
def encoding (source : Hash) : SegmentEntry :=
  { hash := 1, startLba := 0, lbaLength := 1, kind := .delta, deltaOptions := [⟨source, 0, 8, 0⟩] }

variable (sources : List Hash)

/-- What the segments register, with one encoding for each of `sources`. -/
def ops : List ExtentIndex.Op :=
  [.registerEntryIfAbsent (body 2) 0 (ctx 5), .registerEntryIfAbsent (body 3) 0 (ctx 6)] ++
    sources.map fun source => .registerEntryIfAbsent (encoding source) 0 (ctx 10)

/-- A volume opened over the three segments. -/
def volume : Volume where
  maps := .new ⟨LbaMap.new.insert 0 1 1 10, (ops sources).foldl apply .new⟩
  wal := 30
  pending := []
  journal := .EMPTY

/-- Segments 5 and 10 are in the open generation. -/
def openFiles : List OpenSegment :=
  [⟨5, 4096, some [body 2]⟩, ⟨10, 4096, some (sources.map encoding)⟩]

/-- Where the index has its bodies and its recipe. -/
structure Indexed (x : ExtentIndex) : Prop where
  inner : x.inner.entries.map (fun e => (e.1, e.2.segmentId)) = [(3, 6), (2, 5)]
  deltas : x.deltas.entries.map (fun e => (e.1, e.2.segmentId)) = [(1, 10)]
  journal : x.journal.entries = []

namespace Indexed

variable {x : ExtentIndex} (hx : Indexed x)
include hx

theorem mem_of_lookup {h : Hash} {loc : ExtentLocation} (hloc : x.lookup h = some loc) :
    (h, loc.segmentId) ∈ [((3 : Hash), (6 : Ulid)), (2, 5)] :=
  hx.inner ▸ mem_map.mpr ⟨⟨h, loc⟩, mem_lookup_iff.mp hloc, rfl⟩

theorem mem_of_lookupDelta {h : Hash} {d : DeltaLocation} (hd : x.lookupDelta h = some d) :
    (h, d.segmentId) ∈ [((1 : Hash), (10 : Ulid))] :=
  hx.deltas ▸ mem_map.mpr ⟨⟨h, d⟩, mem_lookup_iff.mp hd, rfl⟩

theorem lookupJournal (s : Ulid) (h : Hash) : x.lookupJournal s h = none := by
  rw [ExtentIndex.lookupJournal, AList.lookup, hx.journal, dlookup_nil, Option.bind_none]

theorem not_names : ¬ x.Names 30 := by
  rintro (⟨h, loc, hloc, hid⟩ | ⟨s, h, loc, hloc, -⟩ | ⟨h, d, hd, hid⟩)
  · exact absurd (hid ▸ hx.mem_of_lookup hloc) (by simp)
  · cases (hx.lookupJournal s h).symm.trans hloc
  · exact absurd (hid ▸ hx.mem_of_lookupDelta hd) (by simp)

end Indexed

/-- The recipe of hash 1, encoded against hash 3 alone. -/
theorem eq_of_lookupDelta {h : Hash} {d : DeltaLocation}
    (hd : ((ops [3]).foldl apply .new).lookupDelta h = some d) :
    h = 1 ∧ d = ⟨10, 0, .cached, [⟨3, 0, 8, 0⟩]⟩ := by
  have hone : (⟨h, d⟩ : Σ _ : Hash, DeltaLocation) = ⟨1, ⟨10, 0, .cached, [⟨3, 0, 8, 0⟩]⟩⟩ := by
    simpa using (show _ ∈ [(⟨1, ⟨10, 0, .cached, [⟨3, 0, 8, 0⟩]⟩⟩ : Σ _ : Hash, DeltaLocation)]
      from mem_lookup_iff.mp hd)
  cases hone
  exact ⟨rfl, rfl⟩

variable {sources : List Hash}

theorem epoch (hx : Indexed (volume sources).maps.base.extentIndex) : (volume sources).Epoch := by
  refine Opened.epoch ⟨rfl, rfl, LbaMap.inv_new.insertInner Nat.one_pos 0 1 10, ?_, ?_⟩
  · simp [volume, MapLayers.new]
  · intro m hm
    rcases mem_cons.mp hm with rfl | hm
    · exact Maps.not_names_of_isEmpty rfl _
    · rw [show m = (volume sources).maps.base from mem_singleton.mp hm]
      exact hx.not_names

theorem claimsResolve (hfinds : (volume sources).maps.findsBody 10 1 = true) :
    (volume sources).maps.ClaimsResolve := by
  intro x h off c hx
  have hclaim : (LbaMap.new.insert 0 1 1 10).lookupWithClaimant x = some (h, off, c) := by
    rw [MapLayers.claimAt_eq] at hx
    rcases Option.or_eq_some_iff.mp hx with hx | ⟨-, hx⟩
    · exact absurd hx (by simp [← LbaMap.value_tiles, volume, MapLayers.new, Maps.empty,
        LbaMap.tiles_new])
    · rw [MapLayers.claimBelow, layeredLookup] at hx
      simpa [volume, MapLayers.new] using hx
  rw [LbaMap.insert, LbaMap.inv_new.lookupWithClaimant_insertInner Nat.one_pos] at hclaim
  split_ifs at hclaim
  · obtain ⟨rfl, -, rfl⟩ : (1 : Hash) = h ∧ _ ∧ (10 : Ulid) = c := by simpa using hclaim
    exact .inr hfinds
  · exact absurd hclaim (by simp [← LbaMap.value_tiles, LbaMap.tiles_new])

/-- What there is to check of the index for the files to be the open generation. -/
theorem openGeneration (hx : Indexed (volume sources).maps.base.extentIndex)
    (hsources : sources ≠ []) : (volume sources).OpenGeneration (openFiles sources) where
  frozen := by simp [volume, MapLayers.new]
  counts := sourcesExact_run (ops sources)
  unnamed := by simp [volume, MapLayers.new]
  recipes := by simp [volume, MapLayers.new]
  sealed := by
    intro f hf
    rcases mem_pair.mp hf with rfl | rfl <;> simp [volume]
  listed := by
    intro f hf entries hindex h hown
    have hat : (h, f.ulid) ∈ [((3 : Hash), (6 : Ulid)), (2, 5)] ∨
        (h, f.ulid) ∈ [((1 : Hash), (10 : Ulid))] := by
      rcases ownerHere_iff.mp hown with ⟨loc, hloc, hid⟩ | ⟨d, hd, hid⟩
      · exact .inl (hid ▸ hx.mem_of_lookup hloc)
      · exact .inr (hid ▸ hx.mem_of_lookupDelta hd)
    rcases mem_pair.mp hf with rfl | rfl
    · obtain rfl := Option.some.inj hindex
      have h2 : h = 2 := by simpa using hat
      simp [h2, body]
    · obtain rfl := Option.some.inj hindex
      have h1 : h = 1 := by simpa using hat
      obtain ⟨source, hsource⟩ := exists_mem_of_ne_nil sources hsources
      simp only [h1, mem_map, mem_filter]
      exact ⟨encoding source, ⟨⟨source, hsource, rfl⟩, rfl⟩, rfl⟩
  keyed := by
    intro s h loc hloc
    cases (hx.lookupJournal s h).symm.trans hloc

end SweptSource

open SweptSource in
/-- With one encoding, against hash 3, segment 5 is free and goes, and the recipe stays readable. -/
theorem reap_keeps_recorded_source : (reapPass (openFiles [3]) none (volume [3]).maps
        ((volume [3]).commits [.write 7 1 9 .none 4096 0]).maps
        (((volume [3]).commits [.write 7 1 9 .none 4096 0]).commits [.zero 8 1]).maps).unlink = [5] ∧
      ReapsSafely none (((volume [3]).commits [.write 7 1 9 .none 4096 0]).commits [.zero 8 1]).maps
        (reapPass (openFiles [3]) none (volume [3]).maps
          ((volume [3]).commits [.write 7 1 9 .none 4096 0]).maps
          (((volume [3]).commits [.write 7 1 9 .none 4096 0]).commits [.zero 8 1]).maps) := by
  refine ⟨by decide +kernel, (reap_safe_iff ?_ ?_ (claimsResolve (by decide)) none (by decide)
    (by decide)).mpr fun _ h d hd _ _ => ?_⟩
  · exact epoch ⟨by decide, by decide, by decide⟩
  · exact openGeneration ⟨by decide, by decide, by decide⟩ (by simp)
  · -- hash 3 is in segment 6, which is not among the files
    obtain ⟨rfl, rfl⟩ := eq_of_lookupDelta hd
    refine ⟨⟨3, 0, 8, 0⟩, by simp, ⟨6, 0, 4096, .none, .local, 0, none⟩, by decide, fun hmem => ?_⟩
    obtain ⟨f, hf, hulid⟩ := exists_file_of_mem_taken hmem
    have hfiles : ∀ f ∈ openFiles [3], f.ulid ≠ 6 := by simp [openFiles]
    exact hfiles f hf hulid

open SweptSource in
/-- With a second encoding, the record of segment 10 names hash 3 and the recipe hash 2. Nothing
names hash 2, the pass takes segment 5, and the claim on hash 1 is stranded. -/
theorem reap_strands_recipe :
    let pass := reapPass (openFiles [2, 3]) none (volume [2, 3]).maps (volume [2, 3]).maps
      (volume [2, 3]).maps
    (volume [2, 3]).Epoch ∧ (volume [2, 3]).OpenGeneration (openFiles [2, 3]) ∧
      (volume [2, 3]).maps.ClaimsResolve ∧ pass.unlink = [5] ∧ ¬ pass.maps.ClaimsResolve ∧
      ¬ ReapsSafely none (volume [2, 3]).maps pass := by
  intro pass
  have hstrands : ¬ pass.maps.ClaimsResolve := by
    intro hres
    rcases hres 0 1 0 10 (by decide +kernel) with hzero | hfinds
    · exact absurd hzero (by decide)
    · exact absurd hfinds (by decide +kernel)
  have hx : Indexed (volume [2, 3]).maps.base.extentIndex := ⟨by decide, by decide, by decide⟩
  refine ⟨epoch hx, openGeneration hx (by simp), claimsResolve (by decide), by decide +kernel,
    hstrands, fun hsafe => hstrands hsafe.resolve⟩

end Volume

end Elide
