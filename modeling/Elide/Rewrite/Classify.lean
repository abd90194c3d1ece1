import Elide.MapLayers.Reads

/-!
# Classifying the entries of a segment to be rewritten

Every pass that rewrites a segment under a fresh ULID first asks, entry by entry, what of it is
still live: `classifyEntry` walks the LBA map under the entry's range and counts the blocks whose
run has the entry's hash and anchor and whose claimant is the segment itself.

Here is that classification, and what it comes to block by block. A block is `Live` when the map
resolves it to this entry under this segment; the count meets the length exactly when every block
is live and is zero exactly when none is, so the three arms of the classifier are the three cases
of a statement about blocks.

## Main results

* `ClassifyCtx.live_iff_exists_liveRun` — the live runs are the live blocks
* `classifyEntry_of_allLive`, `classifyEntry_of_noneLive`, `classifyEntry_of_partlyLive` — the
  classifier by the blocks that are live
-/

namespace Elide

open ExtentRead List

/-- What to do with one input entry. -/
inductive EntryClassification where
  /-- Every block still maps to the entry's hash: pass it through. -/
  | fullyLive
  /-- The range is overwritten and the hash still referenced from here: keep the body alone. -/
  | demoteToCanonical
  /-- The surviving sub-runs of a Zero entry. -/
  | zeroSubRuns (liveRuns : List ExtentRead)
  /-- Some blocks live, some overwritten. -/
  | partialDeath (liveRuns : List ExtentRead) (emitCanonical : Bool)
  /-- Fully dead, and this segment owns the hash. -/
  | dropAndRemoveHash
  /-- Fully dead, and the hash lives elsewhere. -/
  | drop
  /-- A partly dead Delta none of whose sources resolves. -/
  | deferUnresolvableDelta
  deriving DecidableEq

/-- The state the classifier reads. -/
structure ClassifyCtx where
  lbaMap : LbaMap
  extentIndex : ExtentIndex
  /-- The hashes something still resolves against. -/
  liveHashes : Finset Hash
  /-- The segment the entries come from. -/
  segmentId : Ulid

/-- The run's payload anchor agrees with the entry's. -/
def anchorMatches (entry : SegmentEntry) (r : ExtentRead) : Bool :=
  -- the checked subtraction fails below the entry's start
  decide (entry.startLba ≤ r.rangeStart ∧ r.rangeStart - entry.startLba = r.payloadBlockOffset)

namespace ClassifyCtx

variable (ctx : ClassifyCtx)

variable (entry : SegmentEntry)

/-- The segment still owns the extent-index home of the entry's hash. -/
def ownsHome : Bool :=
  if entry.kind.isDelta then
    (ctx.extentIndex.lookupDelta entry.hash).any fun loc => decide (loc.segmentId = ctx.segmentId)
  else
    (ctx.extentIndex.lookup entry.hash).any fun loc => decide (loc.segmentId = ctx.segmentId)

/-- A run keeps its entry alive when hash and anchor agree and this segment is the claimant. -/
def blockIsLive (r : ExtentRead) : Bool :=
  decide (r.hash = entry.hash) && anchorMatches entry r && decide (r.claimantUlid = ctx.segmentId)

/-- The runs of the map under the entry that keep it alive. -/
def liveRuns : List ExtentRead :=
  (ctx.lbaMap.extentsInRange entry.startLba (entry.startLba + entry.lbaLength)).filter
    (ctx.blockIsLive entry)

/-- How many blocks the live runs hold. -/
def matchingBlocks : ℕ :=
  ((ctx.liveRuns entry).map fun r => r.rangeEnd - r.rangeStart).sum

/-- Some option of a Delta entry has its source in the data map. -/
def hasResolvableSource : Bool :=
  entry.deltaOptions.any fun opt => (ctx.extentIndex.lookup opt.sourceHash).isSome

variable {ctx entry}

theorem ownsHome_of_lookup {loc : ExtentLocation}
    (hbody : entry.kind.hasBodyBytes = true) (hloc : ctx.extentIndex.lookup entry.hash = some loc)
    (hseg : loc.segmentId = ctx.segmentId) : ctx.ownsHome entry = true := by
  rw [ownsHome, if_neg (by simp [EntryKind.isDelta_of_hasBodyBytes hbody]), hloc]
  exact decide_eq_true hseg

theorem ownsHome_of_lookupDelta {d : DeltaLocation} (hdelta : entry.kind.isDelta = true)
    (hd : ctx.extentIndex.lookupDelta entry.hash = some d)
    (hseg : d.segmentId = ctx.segmentId) : ctx.ownsHome entry = true := by
  rw [ownsHome, if_pos hdelta, hd]
  exact decide_eq_true hseg

end ClassifyCtx

/-- Classify one input entry. -/
def classifyEntry (entry : SegmentEntry) (ctx : ClassifyCtx) : EntryClassification :=
  if entry.kind = .zero then .zeroSubRuns (ctx.liveRuns entry)
  else if entry.kind.isCanonicalOnly then
    if entry.hash ∈ ctx.liveHashes then .fullyLive
    else if ctx.ownsHome entry then .dropAndRemoveHash
    else .drop
  else if ctx.matchingBlocks entry = entry.lbaLength then .fullyLive
  else if ctx.matchingBlocks entry = 0 then
    if (entry.kind = .data ∨ entry.kind = .inline ∨ entry.kind = .delta) ∧
        ctx.ownsHome entry ∧ entry.hash ∈ ctx.liveHashes then .demoteToCanonical
    else if ctx.ownsHome entry then .dropAndRemoveHash
    else .drop
  else
    match entry.kind with
    | .data | .inline =>
      .partialDeath (ctx.liveRuns entry) (decide (entry.hash ∈ ctx.liveHashes))
    | .dedupRef => .partialDeath (ctx.liveRuns entry) false
    | .delta =>
      if ctx.hasResolvableSource entry then
        .partialDeath (ctx.liveRuns entry) (decide (entry.hash ∈ ctx.liveHashes))
      else .deferUnresolvableDelta
    | _ => .fullyLive

/-! ## Lists of extents, block by block -/

namespace ExtentRead

variable {es : List ExtentRead}

theorem InOrder.mono_lo {hi lo lo' : ℕ} (h : InOrder hi lo es) (hle : lo' ≤ lo) :
    InOrder hi lo' es := by
  cases es with
  | nil => exact le_trans hle h
  | cons e es => exact ⟨le_trans hle h.1, h.2⟩

theorem InOrder.filter {hi lo : ℕ} (h : InOrder hi lo es) (p : ExtentRead → Bool) :
    InOrder hi lo (es.filter p) := by
  induction es generalizing lo with
  | nil => exact h
  | cons e es ih =>
    obtain ⟨h1, h2, h3⟩ := h
    rw [filter_cons]
    split_ifs with hp
    · exact ⟨h1, h2, ih h3⟩
    · exact (ih h3).mono_lo (le_trans h1 h2)

/-- Extents in order hold at most the blocks of their range, and hold them all exactly when each
block is in one of them. -/
theorem InOrder.sum_length {hi lo : ℕ} (h : InOrder hi lo es) :
    (es.map fun r => r.rangeEnd - r.rangeStart).sum ≤ hi - lo ∧
      ((es.map fun r => r.rangeEnd - r.rangeStart).sum = hi - lo ↔
        ∀ x, lo ≤ x → x < hi → ∃ r ∈ es, r.Covers x) := by
  induction es generalizing lo with
  | nil =>
    refine ⟨by simp, ⟨fun heq x h1 h2 => ?_, fun hall => ?_⟩⟩
    · simp only [map_nil, sum_nil] at heq
      omega
    · by_contra hne
      simp only [map_nil, sum_nil] at hne
      exact absurd (hall lo (le_refl lo) (by omega)) (by simp)
  | cons e es ih =>
    obtain ⟨h1, h2, h3⟩ := h
    obtain ⟨hle, hiff⟩ := ih h3
    have hhi := h3.le
    rw [map_cons, sum_cons]
    refine ⟨by omega, ⟨fun heq x hx1 hx2 => ?_, fun hall => ?_⟩⟩
    · by_cases hx : x < e.rangeEnd
      · exact ⟨e, mem_cons_self, by omega, hx⟩
      · obtain ⟨r, hr, hcov⟩ := hiff.mp (by omega) x (by omega) hx2
        exact ⟨r, mem_cons_of_mem _ hr, hcov⟩
    · have hrest : ∀ x, e.rangeEnd ≤ x → x < hi → ∃ r ∈ es, r.Covers x := by
        intro x hx1 hx2
        obtain ⟨r, hr, hcov⟩ := hall x (by omega) hx2
        rcases mem_cons.mp hr with rfl | hr
        · exact absurd hcov.2 (by omega)
        · exact ⟨r, hr, hcov⟩
      have hstart : e.rangeStart = lo ∨ e.rangeEnd = hi ∧ lo = hi := by
        by_contra hcon
        obtain ⟨r, hr, hcov⟩ := hall lo (le_refl lo) (by omega)
        rcases mem_cons.mp hr with rfl | hr
        · exact absurd hcov.1 (by omega)
        · have := h3.bounds r hr
          exact absurd hcov.1 (by omega)
      have := hiff.mpr hrest
      omega

/-- Extents hold no block exactly when their lengths add up to zero. -/
theorem sum_length_eq_zero_iff :
    (es.map fun r => r.rangeEnd - r.rangeStart).sum = 0 ↔ ∀ x, ¬ ∃ r ∈ es, r.Covers x := by
  rw [List.sum_eq_zero_iff_forall_eq_nat]
  constructor
  · rintro hzero x ⟨r, hr, hcov⟩
    have := hzero _ (mem_map_of_mem hr)
    have := hcov.1
    have := hcov.2
    omega
  · intro hnone n hn
    obtain ⟨r, hr, rfl⟩ := mem_map.mp hn
    by_contra hne
    exact hnone r.rangeStart ⟨r, hr, le_refl _, by omega⟩

end ExtentRead

/-! ## Liveness, block by block -/

namespace ClassifyCtx

variable {ctx : ClassifyCtx} {entry : SegmentEntry}

variable (ctx)

variable (entry)

/-- The map resolves the block to this entry, under this segment. -/
def Live (x : ℕ) : Prop :=
  ctx.lbaMap.lookupWithClaimant x = some (entry.hash, x - entry.startLba, ctx.segmentId)

/-- Every block of the entry is live. -/
def AllLive : Prop :=
  ∀ x, entry.Covers x → ctx.Live entry x

/-- No block of the entry is live. -/
def NoneLive : Prop :=
  ∀ x, entry.Covers x → ¬ ctx.Live entry x

/-- Some blocks of the entry are live and some are not. -/
def PartlyLive : Prop :=
  (∃ x, entry.Covers x ∧ ctx.Live entry x) ∧ ∃ x, entry.Covers x ∧ ¬ ctx.Live entry x

instance (x : ℕ) : Decidable (ctx.Live entry x) :=
  inferInstanceAs (Decidable (_ = _))

variable {entry}

variable {ctx}

variable {r : ExtentRead}

theorem blockIsLive_eq_true_iff : ctx.blockIsLive entry r = true ↔
    r.hash = entry.hash ∧ entry.startLba ≤ r.rangeStart ∧
      r.payloadBlockOffset = r.rangeStart - entry.startLba ∧ r.claimantUlid = ctx.segmentId := by
  rw [blockIsLive, Bool.and_eq_true, Bool.and_eq_true, decide_eq_true_iff, anchorMatches,
    decide_eq_true_iff, decide_eq_true_iff]
  constructor
  · rintro ⟨⟨hhash, hle, hanchor⟩, hclaim⟩
    exact ⟨hhash, hle, hanchor.symm, hclaim⟩
  · rintro ⟨hhash, hle, hanchor, hclaim⟩
    exact ⟨⟨hhash, hle, hanchor.symm⟩, hclaim⟩

section

variable (hm : ctx.lbaMap.Wf)
include hm

theorem inOrder_liveRuns :
    InOrder (entry.startLba + entry.lbaLength) entry.startLba (ctx.liveRuns entry) :=
  (hm.reads_extentsInRange (Nat.le_add_right _ _)).inOrder.filter _

/-- A live run lies inside the entry, at the entry's own anchor. -/
theorem of_mem_liveRuns (hr : r ∈ ctx.liveRuns entry) :
    entry.startLba ≤ r.rangeStart ∧ r.rangeStart ≤ r.rangeEnd ∧
      r.rangeEnd ≤ entry.startLba + entry.lbaLength ∧
      r.payloadBlockOffset = r.rangeStart - entry.startLba := by
  obtain ⟨h1, h2, h3⟩ := (inOrder_liveRuns hm).bounds r hr
  exact ⟨h1, h2, h3, (blockIsLive_eq_true_iff.mp (mem_filter.mp hr).2).2.2.1⟩

/-- Every block of a live run is live. -/
theorem live_of_mem_liveRuns (hr : r ∈ ctx.liveRuns entry) {x : ℕ} (hx : r.Covers x) :
    ctx.Live entry x := by
  obtain ⟨hmem, hlive⟩ := mem_filter.mp hr
  obtain ⟨hhash, hle, hanchor, hclaim⟩ := blockIsLive_eq_true_iff.mp hlive
  have hlookup := (hm.reads_extentsInRange (Nat.le_add_right _ _)).eq_some_of_mem hmem hx
  have := hx.1
  rw [Live, hlookup, ExtentRead.valueAt, hhash, hclaim]
  simp only [Option.some.injEq, Prod.mk.injEq, true_and, and_true]
  omega

/-- **The live runs are the live blocks.** -/
theorem live_iff_exists_liveRun {x : ℕ} (hx : entry.Covers x) :
    ctx.Live entry x ↔ ∃ r ∈ ctx.liveRuns entry, r.Covers x := by
  refine ⟨fun hlive => ?_, fun ⟨r, hr, hcov⟩ => live_of_mem_liveRuns hm hr hcov⟩
  have hreads := hm.reads_extentsInRange (Nat.le_add_right entry.startLba entry.lbaLength)
  obtain ⟨r, hr, hcov, hval⟩ := hreads.exists_of_eq_some hx.1 hx.2 hlive
  refine ⟨r, mem_filter.mpr ⟨hr, blockIsLive_eq_true_iff.mpr ?_⟩, hcov⟩
  simp only [ExtentRead.valueAt, Prod.mk.injEq] at hval
  obtain ⟨hhash, hoffset, hclaim⟩ := hval
  have := (hreads.inOrder.bounds r hr).1
  have := hcov.1
  exact ⟨hhash, by omega, by omega, hclaim⟩

theorem matchingBlocks_eq_length_iff :
    ctx.matchingBlocks entry = entry.lbaLength ↔ ctx.AllLive entry := by
  have hord : InOrder (entry.startLba + entry.lbaLength) entry.startLba (ctx.liveRuns entry) :=
    inOrder_liveRuns hm
  have hsum := hord.sum_length.2
  rw [Nat.add_sub_cancel_left] at hsum
  rw [matchingBlocks, hsum]
  constructor
  · intro hall x hx
    exact (live_iff_exists_liveRun hm hx).mpr (hall x hx.1 hx.2)
  · intro hall x h1 h2
    exact (live_iff_exists_liveRun hm ⟨h1, h2⟩).mp (hall x ⟨h1, h2⟩)

theorem matchingBlocks_eq_zero_iff : ctx.matchingBlocks entry = 0 ↔ ctx.NoneLive entry := by
  rw [matchingBlocks, ExtentRead.sum_length_eq_zero_iff]
  constructor
  · intro hnone x hx hlive
    exact hnone x ((live_iff_exists_liveRun hm hx).mp hlive)
  · rintro hnone x ⟨r, hr, hcov⟩
    obtain ⟨h1, -, h3, -⟩ := of_mem_liveRuns hm hr
    exact hnone x ⟨le_trans h1 hcov.1, lt_of_lt_of_le hcov.2 h3⟩ (live_of_mem_liveRuns hm hr hcov)

end

theorem partlyLive_iff : ctx.PartlyLive entry ↔ ¬ ctx.AllLive entry ∧ ¬ ctx.NoneLive entry := by
  simp only [AllLive, NoneLive, not_forall, not_not, exists_prop]
  exact and_comm

end ClassifyCtx

/-! ## The classifier, by the blocks that are live -/

section Classify

variable {ctx : ClassifyCtx} {entry : SegmentEntry}

theorem classifyEntry_zero (hzero : entry.kind = .zero) :
    classifyEntry entry ctx = .zeroSubRuns (ctx.liveRuns entry) := by
  rw [classifyEntry, if_pos hzero]

theorem classifyEntry_canonicalOnly (hcanon : entry.kind.isCanonicalOnly = true) :
    classifyEntry entry ctx = if entry.hash ∈ ctx.liveHashes then .fullyLive
      else if ctx.ownsHome entry then .dropAndRemoveHash
      else .drop := by
  have hzero : entry.kind ≠ .zero := by
    intro h
    rw [h] at hcanon
    exact absurd hcanon (by decide)
  rw [classifyEntry, if_neg hzero, if_pos hcanon]

section

variable (hm : ctx.lbaMap.Wf) (hzero : entry.kind ≠ .zero)
  (hcanon : entry.kind.isCanonicalOnly = false)
include hm hzero hcanon

theorem classifyEntry_of_allLive (hlive : ctx.AllLive entry) :
    classifyEntry entry ctx = .fullyLive := by
  rw [classifyEntry, if_neg hzero, if_neg (by simp [hcanon]),
    if_pos ((ctx.matchingBlocks_eq_length_iff hm).mpr hlive)]

theorem classifyEntry_of_noneLive (hall : ¬ ctx.AllLive entry) (hlive : ctx.NoneLive entry) :
    classifyEntry entry ctx = if (entry.kind = .data ∨ entry.kind = .inline ∨ entry.kind = .delta) ∧
          ctx.ownsHome entry ∧ entry.hash ∈ ctx.liveHashes then .demoteToCanonical
      else if ctx.ownsHome entry then .dropAndRemoveHash
      else .drop := by
  rw [classifyEntry, if_neg hzero, if_neg (by simp [hcanon]),
    if_neg (mt (ctx.matchingBlocks_eq_length_iff hm).mp hall),
    if_pos ((ctx.matchingBlocks_eq_zero_iff hm).mpr hlive)]

/-- A partly live entry is cut into its live runs, unless it is a Delta that cannot be read. -/
theorem classifyEntry_of_partlyLive (hlive : ctx.PartlyLive entry) : classifyEntry entry ctx =
      if entry.kind = .delta ∧ ctx.hasResolvableSource entry = false then .deferUnresolvableDelta
      else .partialDeath (ctx.liveRuns entry)
        (decide (entry.kind ≠ .dedupRef ∧ entry.hash ∈ ctx.liveHashes)) := by
  obtain ⟨hall, hnone⟩ := ctx.partlyLive_iff.mp hlive
  rw [classifyEntry, if_neg hzero, if_neg (by simp [hcanon]),
    if_neg (mt (ctx.matchingBlocks_eq_length_iff hm).mp hall),
    if_neg (mt (ctx.matchingBlocks_eq_zero_iff hm).mp hnone)]
  cases hkind : entry.kind with
  | delta => cases hsource : ctx.hasResolvableSource entry <;> simp
  | zero => exact absurd hkind hzero
  | data | inline | dedupRef => simp
  | canonicalData | canonicalInline | canonicalDelta =>
    rw [hkind] at hcanon
    exact absurd hcanon (by decide)

end

end Classify

end Elide
