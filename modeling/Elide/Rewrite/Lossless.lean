import Elide.Rewrite.Cancels

/-!
# What a rewrite of a segment keeps

A rewrite may lose nothing its segment still holds: every block the segment claims stays claimed by
an output entry, no output entry claims a block of another segment, what is claimed decodes to what
the view reads there, and a live hash homed in the segment is carried on with its body or recipe.
`Lossless` is those four statements about the output of one materialisation.

They hold of every rewrite but one. A partly dead Delta none of whose sources resolves cannot be
cut, and the classifier asks its caller to sit the segment out. The coordinator does. The volume's
repack emits the entry whole instead, and its output then claims blocks that have been overwritten.

## Main results

* `RewriteInput.rewrite_lossless_iff` — the repack's output is lossless exactly when no partly dead
  Delta is without a source, and the coordinator's is whenever it does not sit the segment out
* `repack_claims_overwritten_block` — a Delta whose source is gone, with a block overwritten
-/

namespace Elide

open Rewrite MaterialiseCtx List AList ExtentIndex

/-! ## Blocks -/

section

variable {blocks k n : ℕ} (h : k + n ≤ blocks)
include h

/-- What is left of a body after its first `k` blocks holds the `n` that follow. -/
theorem blockBytes_le : n * BLOCK_BYTES ≤ blocks * BLOCK_BYTES - k * BLOCK_BYTES := by
  rw [← Nat.sub_mul]
  exact Nat.mul_le_mul_right _ (by omega)

theorem sliceBlocks_sliceBlocks (body : Bytes) {start : ℕ} :
    sliceBlocks (sliceBlocks body start blocks) k n = sliceBlocks body (start + k) n := by
  rw [sliceBlocks, sliceBlocks, sliceBlocks, drop_take, take_take,
    Nat.min_eq_left (blockBytes_le h), drop_drop, Nat.add_mul]

theorem sliceBlocks_zeroBytes : sliceBlocks (zeroBytes blocks) k n = zeroBytes n := by
  rw [sliceBlocks, zeroBytes, drop_replicate, take_replicate, Nat.min_eq_left (blockBytes_le h)]
  rfl

end

/-- The block a claim of `hash` at `offset` reads. -/
def claimedBlock (plaintext : Hash → Bytes) (hash : Hash) (offset : ℕ) : Bytes :=
  if hash = ZERO_HASH then zeroBytes 1 else sliceBlocks (plaintext hash) offset 1

/-! ## The view -/

/-- The last entry of a segment that covers a block. -/
def lastCovering (entries : List SegmentEntry) (x : ℕ) : Option SegmentEntry :=
  entries.reverse.find? fun e => decide (e.Covers x)

/-- The segment is the home of the hash, in the data map or the deltas map. -/
def ClassifyCtx.Homes (ctx : ClassifyCtx) (hash : Hash) : Prop :=
  (∃ loc, ctx.extentIndex.lookup hash = some loc ∧ loc.segmentId = ctx.segmentId) ∨
    ∃ loc, ctx.extentIndex.lookupDelta hash = some loc ∧ loc.segmentId = ctx.segmentId

/-- A view that agrees with the segment's entries. -/
structure ConsistentView (ctx : ClassifyCtx) (entries : List SegmentEntry) : Prop where
  wf : ctx.lbaMap.Wf
  /-- A claim the segment holds is that of its last entry there. -/
  claims : ∀ x hash offset, ctx.lbaMap.lookupWithClaimant x = some (hash, offset, ctx.segmentId) →
    ∃ e, lastCovering entries x = some e ∧ hash = e.hash ∧ offset = x - e.startLba
  /-- A location that names the segment is that of one of its bodies. -/
  homes : ∀ hash loc, ctx.extentIndex.lookup hash = some loc → loc.segmentId = ctx.segmentId →
    ∃ e ∈ entries, e.hash = hash ∧ e.kind.hasBodyBytes = true
  /-- A recipe that names the segment is one of its own. -/
  deltaHomes : ∀ hash loc, ctx.extentIndex.lookupDelta hash = some loc →
    loc.segmentId = ctx.segmentId → ∃ e ∈ entries, e.hash = hash ∧ e.kind.isDelta = true
  /-- Canonicals claim nothing. -/
  canonical : ∀ e ∈ entries, e.kind.isCanonicalOnly = true → e.lbaLength = 0
  /-- The sentinel hash is that of the zeros. -/
  zero : ∀ e ∈ entries, e.kind.isCanonicalOnly = false → (e.kind = .zero ↔ e.hash = ZERO_HASH)

/-- Nothing the segment still holds is lost, and nothing else is claimed. -/
structure Lossless (ctx : MaterialiseCtx) (plaintext : Hash → Bytes) (view : ClassifyCtx)
    (out : Materialised) : Prop where
  /-- Every block the segment claims is covered. -/
  covered : ∀ x hash offset,
    view.lbaMap.lookupWithClaimant x = some (hash, offset, view.segmentId) →
    ∃ p ∈ out.entries, p.entry.Covers x
  /-- No other block is. -/
  owned : ∀ p ∈ out.entries, ∀ x, p.entry.Covers x →
    ∃ hash offset, view.lbaMap.lookupWithClaimant x = some (hash, offset, view.segmentId)
  /-- What is covered decodes to the block the view reads. -/
  decodes : ∀ p ∈ out.entries, ∀ x, p.entry.Covers x → ∀ hash offset claimant,
    view.lbaMap.lookupWithClaimant x = some (hash, offset, claimant) →
    ∃ content, ctx.Decodes plaintext out.deltaBody p content ∧
      sliceBlocks content (x - p.entry.startLba) 1 = claimedBlock plaintext hash offset
  /-- A live hash homed here is carried on. -/
  carried : ∀ hash ∈ view.liveHashes, view.Homes hash →
    ∃ p ∈ out.entries, p.entry.hash = hash ∧ p.entry.kind.ownsExtentHash = true

theorem mem_of_lastCovering {entries : List SegmentEntry} {x : ℕ} {e : SegmentEntry}
    (h : lastCovering entries x = some e) : e ∈ entries ∧ e.Covers x := by
  have hcov := find?_some (p := fun e : SegmentEntry => decide (e.Covers x)) h
  exact ⟨mem_reverse.mp (mem_of_find?_eq_some h), of_decide_eq_true hcov⟩

/-- The entry still agrees with the view at every block: the segment holds the claim there, and
the claim reads what the entry does. -/
def ClassifyCtx.Agrees (ctx : ClassifyCtx) (plaintext : Hash → Bytes) (entry : SegmentEntry) : Prop :=
  ∀ x, entry.Covers x → ∃ hash offset,
    ctx.lbaMap.lookupWithClaimant x = some (hash, offset, ctx.segmentId) ∧
      sliceBlocks (plaintext entry.hash) (x - entry.startLba) 1 = claimedBlock plaintext hash offset

/-- Every partly dead Delta of the segment has a source, or agrees with the view as it stands. -/
def ClassifyCtx.Cuttable (ctx : ClassifyCtx) (plaintext : Hash → Bytes)
    (entries : List SegmentEntry) : Prop :=
  ∀ e ∈ entries, e.kind = .delta → ctx.PartlyLive e →
    (∃ opt ∈ e.deltaOptions, (ctx.extentIndex.lookup opt.sourceHash).isSome = true) ∨
      ctx.Agrees plaintext e

/-! ## A record and the view -/

section Emitted

variable {view : ClassifyCtx} {entries : List SegmentEntry} {entry : SegmentEntry} {entryIdx : ℕ}
  {o : PlanOutput} {x : ℕ} {plaintext : Hash → Bytes}

/-- A live run of a Zero stands for zeros, one of a payload for its blocks. -/
theorem block_of_liveRun (hv : ConsistentView view entries) (hmem : entry ∈ entries)
    {r : ExtentRead} (hr : r ∈ view.liveRuns entry) (hx : r.Covers x) (hclaims : entry.ClaimsBody) :
    sliceBlocks (sliceBlocks (plaintext entry.hash) r.payloadBlockOffset
        (r.rangeEnd - r.rangeStart)) (x - r.rangeStart) 1 =
      claimedBlock plaintext entry.hash (x - entry.startLba) := by
  obtain ⟨h1, h2⟩ := hx
  obtain ⟨hs, hle, he, hoffset⟩ := view.of_mem_liveRuns hv.wf hr
  rw [claimedBlock, if_neg (mt (hv.zero entry hmem hclaims.2).mpr hclaims.1),
    sliceBlocks_sliceBlocks (by omega)]
  congr 1
  omega

/-- At a block its record claims, the segment holds a claim that reads what the record stands
for. -/
theorem Emitted.claimed (ho : Emitted view entry entryIdx o) (hv : ConsistentView view entries)
    (hcut : view.Cuttable plaintext entries) (hmem : entry ∈ entries) (hx : o.Claims entry x) :
    ∃ hash offset, view.lbaMap.lookupWithClaimant x = some (hash, offset, view.segmentId) ∧
      sliceBlocks (o.payload plaintext entry) (x - (o.range entry).1) 1 =
        claimedBlock plaintext hash offset := by
  cases ho with
  | zero hkind hr =>
    rename_i r
    have hcov : r.Covers x := claims_zeroSplit_iff.mp hx
    have h1 := hcov.1
    have h2 := hcov.2
    refine ⟨_, _, view.live_of_mem_liveRuns hv.wf hr hcov, ?_⟩
    rw [claimedBlock, if_pos ((hv.zero entry hmem (by rw [hkind]; rfl)).mp hkind)]
    show sliceBlocks (zeroBytes (r.rangeEnd - r.rangeStart)) (x - r.rangeStart) 1 = _
    exact sliceBlocks_zeroBytes (by omega)
  | keepCanonical hcanon =>
    rw [PlanOutput.Claims, PlanOutput.range, if_pos hcanon] at hx
    cases hx.2
  | canonicalCanonical | canonical => exact absurd hx.2 (by simp [PlanOutput.range])
  | keepLive hclaims hlive =>
    rw [PlanOutput.Claims, PlanOutput.range, if_neg (by simp [hclaims.2])] at hx
    refine ⟨_, _, hlive x hx, ?_⟩
    rw [PlanOutput.payload, if_neg hclaims.1, PlanOutput.range, if_neg (by simp [hclaims.2]),
      claimedBlock, if_neg (mt (hv.zero entry hmem hclaims.2).mpr hclaims.1)]
  | keepDeferred hkind hlive hsource =>
    have hcanon : entry.kind.isCanonicalOnly = false := by rw [hkind]; rfl
    have hagrees := (hcut entry hmem hkind hlive).resolve_left fun hsome =>
      absurd (hsource.symm.trans (any_eq_true.mpr hsome)) (by decide)
    rw [PlanOutput.Claims, PlanOutput.range, if_neg (by simp [hcanon])] at hx
    rw [PlanOutput.payload, if_neg (by simp [hkind]), PlanOutput.range, if_neg (by simp [hcanon])]
    exact hagrees x hx
  | run hclaims hlive hsource hr =>
    have hcov := claims_runOutput_iff.mp hx
    exact ⟨_, _, view.live_of_mem_liveRuns hv.wf hr hcov, block_of_liveRun hv hmem hr hcov hclaims⟩

end Emitted

/-! ## One segment -/

/-- A segment about to be rewritten: its bodies can be read, the view agrees with it, its tier is
permitted and resolution by hash returns the plaintext of what it refers to. -/
structure RewriteInput (ctx : MaterialiseCtx) (plaintext : Hash → Bytes) (lbaMap : LbaMap)
    (liveHashes : Finset Hash) (segUlid : Ulid) (state : InputState) : Prop where
  loaded : ctx.inputStates segUlid = some state
  readable : ctx.Readable plaintext
  view : ConsistentView (ctx.classifyCtx lbaMap liveHashes segUlid) state.entries
  tier : ∀ e ∈ state.entries, ctx.TierAllowed e
  references : ∀ e ∈ state.entries, e.kind = .dedupRef →
    ctx.resolveBodyByHashDecompressed e.hash = .ok (plaintext e.hash)

namespace RewriteInput

variable {ctx : MaterialiseCtx} {plaintext : Hash → Bytes} {lbaMap : LbaMap}
  {liveHashes : Finset Hash} {segUlid : Ulid} {state : InputState} {entry : SegmentEntry}
  {entryIdx : ℕ} {o : PlanOutput}

/-- The view the segment is classified in. -/
abbrev seen (_ : RewriteInput ctx plaintext lbaMap liveHashes segUlid state) : ClassifyCtx :=
  ctx.classifyCtx lbaMap liveHashes segUlid

section Planned

variable (h : RewriteInput ctx plaintext lbaMap liveHashes segUlid state)
include h

theorem holds (hentry : state.entries[entryIdx]? = some entry) :
    ctx.Holds ⟨segUlid, entryIdx, entry⟩ :=
  ⟨state, h.loaded, hentry⟩

theorem materialisable (hmem : entry ∈ state.entries) :
    ctx.Materialisable lbaMap liveHashes ⟨segUlid, entryIdx, entry⟩ := by
  refine ⟨h.tier entry hmem, fun hkind _ => ?_⟩
  have hresolve := h.references entry hmem hkind
  unfold resolveBodyByHashDecompressed at hresolve
  cases hloc : ctx.extentIndex.lookup entry.hash with
  | some loc => rfl
  | none =>
    rw [hloc] at hresolve
    cases hresolve

/-- A live home of the segment is that of an entry that owns it. -/
theorem exists_owner {hash : Hash} (hhome : h.seen.Homes hash) :
    ∃ e ∈ state.entries, e.hash = hash ∧ e.kind.ownsExtentHash = true ∧
      h.seen.ownsHome e = true := by
  rcases hhome with ⟨loc, hloc, hseg⟩ | ⟨loc, hloc, hseg⟩
  · obtain ⟨e, he, rfl, hbody⟩ := h.view.homes hash loc hloc hseg
    exact ⟨e, he, rfl, EntryKind.ownsExtentHash_of_hasBodyBytes hbody,
      ClassifyCtx.ownsHome_of_lookup hbody hloc hseg⟩
  · obtain ⟨e, he, rfl, hdelta⟩ := h.view.deltaHomes hash loc hloc hseg
    exact ⟨e, he, rfl, EntryKind.ownsExtentHash_of_isDelta hdelta,
      ClassifyCtx.ownsHome_of_lookupDelta hdelta hloc hseg⟩

/-- The records of a plan cover what the segment holds: every record was emitted for one of its
entries or consumes an input, every live block has a record, and so has every live home. -/
structure Planned (view : ClassifyCtx) (entries : List SegmentEntry) (outputs : List PlanOutput) :
    Prop where
  sound : ∀ o ∈ outputs, (∃ input, o = .drop input) ∨
    ∃ entryIdx entry, entries[entryIdx]? = some entry ∧ Emitted view entry entryIdx o
  claiming : ∀ entryIdx entry, entries[entryIdx]? = some entry →
    entry.kind.isCanonicalOnly = false → ∀ x, entry.Covers x → view.Live entry x →
    ∃ o ∈ outputs, Emitted view entry entryIdx o ∧ o.Claims entry x
  carrying : ∀ entryIdx entry, entries[entryIdx]? = some entry →
    entry.kind.ownsExtentHash = true → view.ownsHome entry = true →
    entry.hash ∈ view.liveHashes →
    ∃ o ∈ outputs, Emitted view entry entryIdx o ∧ o.CarriesWhole

variable {outputs : List PlanOutput}

theorem placed (hentry : state.entries[entryIdx]? = some entry)
    (ho : Emitted h.seen entry entryIdx o) :
    ctx.Placed entry o :=
  placed_of_emitted h.view.wf (fun _ hsome => hsome) (h.holds hentry) rfl ho

variable (hplan : Planned h.seen state.entries outputs)
include hplan

/-- The entry a record is placed for is the one it was emitted for. -/
theorem origin (ho : o ∈ outputs) (hentry : ctx.Placed entry o) :
    ∃ entryIdx, state.entries[entryIdx]? = some entry ∧
      Emitted h.seen entry entryIdx o := by
  rcases hplan.sound o ho with ⟨input, rfl⟩ | ⟨entryIdx, entry', hentry', hemit⟩
  · exact hentry.elim
  · obtain rfl := hentry.unique (h.placed hentry' hemit)
    exact ⟨entryIdx, hentry', hemit⟩

/-- Such a plan is materialised, into the entries its records ask for. -/
theorem built (newUlid : Ulid) : ∃ out, materialisePlan ⟨newUlid, outputs⟩ ctx = .ok out ∧
      ctx.Built plaintext outputs out.deltaBody out.entries := by
  have hwell : ∀ o ∈ outputs, ctx.Wellplaced o := by
    intro o ho
    rcases hplan.sound o ho with hdrop | ⟨entryIdx, entry, hentry, hemit⟩
    · exact .inl hdrop
    · exact .inr ⟨entry, h.placed hentry hemit⟩
  have hacc : ∀ o ∈ outputs, ∀ entry, ctx.Placed entry o → ctx.Accepted entry o := by
    intro o ho entry hentry
    obtain ⟨entryIdx, hat, hemit⟩ := h.origin hplan ho hentry
    have hmat : ctx.Materialisable lbaMap liveHashes ⟨segUlid, entryIdx, entry⟩ :=
      h.materialisable (mem_of_getElem? hat)
    exact hmat.accepted hemit
  have hslot : ctx.SlotOk {} := fun s hs => absurd hs (by simp)
  obtain ⟨st', new, ext, hok, hentries, -, hbuilt⟩ := h.readable.applyOutputs hwell hslot hacc
  refine ⟨⟨st'.entries, st'.deltaBody⟩, by rw [materialisePlan, hok]; rfl, ?_⟩
  rw [show st'.entries = new from hentries]
  exact hbuilt

/-- **A plan that covers what the segment holds is materialised without loss.** -/
theorem lossless_of_planned
    (hcut : h.seen.Cuttable plaintext state.entries)
    (newUlid : Ulid) : ∃ out, materialisePlan ⟨newUlid, outputs⟩ ctx = .ok out ∧
      Lossless ctx plaintext h.seen out := by
  obtain ⟨out, hok, hbuilt⟩ := h.built hplan newUlid
  refine ⟨out, hok, ?_⟩
  -- what an output entry covers is what its record claims
  have hcovers : ∀ p ∈ out.entries, ∀ x, p.entry.Covers x → ∃ o entry entryIdx,
      state.entries[entryIdx]? = some entry ∧
      Emitted h.seen entry entryIdx o ∧ o.Claims entry x ∧
      ctx.Renders plaintext out.deltaBody entry o p := by
    intro p hp x hx
    obtain ⟨o, ho, entry, hentry, hrenders⟩ := hbuilt.sound p hp
    obtain ⟨entryIdx, hat, hemit⟩ := h.origin hplan ho hentry
    refine ⟨o, entry, entryIdx, hat, hemit, ?_, hrenders⟩
    rw [PlanOutput.Claims, ← hrenders.range]
    exact hx
  refine ⟨fun x hash offset hclaim => ?_, fun p hp x hx => ?_,
    fun p hp x hx hash offset claimant hclaim => ?_, fun hash hlive hhome => ?_⟩
  · obtain ⟨e, hlast, rfl, rfl⟩ := h.view.claims x hash offset hclaim
    obtain ⟨hmem, hcov⟩ := mem_of_lastCovering hlast
    have hcanon : e.kind.isCanonicalOnly = false := by
      by_contra hcanon
      have hempty := h.view.canonical e hmem (by simpa using hcanon)
      exact absurd hcov.2 (by rw [hempty]; have := hcov.1; omega)
    obtain ⟨entryIdx, hat⟩ := getElem?_of_mem hmem
    obtain ⟨o, ho, hemit, hclaims⟩ := hplan.claiming entryIdx e hat hcanon x hcov hclaim
    obtain ⟨p, hp, hrenders⟩ := hbuilt.complete o ho e (h.placed hat hemit)
      (.inl (by have := hclaims.1; have := hclaims.2; omega))
    refine ⟨p, hp, ?_⟩
    rw [PlanOutput.Claims, ← hrenders.range] at hclaims
    exact hclaims
  · obtain ⟨o, entry, entryIdx, hat, hemit, hclaims, -⟩ := hcovers p hp x hx
    obtain ⟨hash, offset, hclaim, -⟩ :=
      hemit.claimed h.view hcut (mem_of_getElem? hat) hclaims
    exact ⟨hash, offset, hclaim⟩
  · obtain ⟨o, entry, entryIdx, hat, hemit, hclaims, hrenders⟩ := hcovers p hp x hx
    obtain ⟨hash', offset', hclaim', hblock⟩ :=
      hemit.claimed h.view hcut (mem_of_getElem? hat) hclaims
    obtain ⟨rfl, rfl, rfl⟩ : hash = hash' ∧ offset = offset' ∧
        claimant = h.seen.segmentId := by
      simpa using hclaim.symm.trans hclaim'
    refine ⟨_, hrenders.decodes, ?_⟩
    rw [← hrenders.range] at hblock
    exact hblock
  · obtain ⟨e, hmem, rfl, howns, hhome⟩ := h.exists_owner hhome
    obtain ⟨entryIdx, hat⟩ := getElem?_of_mem hmem
    obtain ⟨o, ho, hemit, hwhole⟩ := hplan.carrying entryIdx e hat howns hhome hlive
    obtain ⟨p, hp, hrenders⟩ := hbuilt.complete o ho e (h.placed hat hemit) (.inr hwhole)
    obtain ⟨hhash, hkeeps⟩ := hrenders.carries hwhole howns
    exact ⟨p, hp, hhash, hkeeps⟩

end Planned

/-! ## The two passes -/

section Passes

variable {view : ClassifyCtx} {entries : List SegmentEntry} {o : PlanOutput}

theorem mem_emitPlanOutputs :
    o ∈ emitPlanOutputs view.segmentId (entries.map fun e => classifyEntry e view) ↔
      ∃ entryIdx entry, entries[entryIdx]? = some entry ∧
        o ∈ emitOutput view.segmentId entryIdx (classifyEntry entry view) := by
  simp only [emitPlanOutputs, mem_flatMap, Prod.exists, mem_zipIdx_iff_getElem?,
    getElem?_map, Option.map_eq_some_iff]
  constructor
  · rintro ⟨_, entryIdx, ⟨entry, hentry, rfl⟩, ho⟩
    exact ⟨entryIdx, entry, hentry, ho⟩
  · rintro ⟨entryIdx, entry, hentry, ho⟩
    exact ⟨_, entryIdx, ⟨entry, hentry, rfl⟩, ho⟩

theorem planned_emitPlanOutputs (hm : view.lbaMap.Wf) : Planned view entries
    (emitPlanOutputs view.segmentId (entries.map fun e => classifyEntry e view)) where
  sound o ho := by
    obtain ⟨entryIdx, entry, hentry, ho⟩ := mem_emitPlanOutputs.mp ho
    exact .inr ⟨entryIdx, entry, hentry, emitted_of_mem_emitOutput hm ho⟩
  claiming entryIdx entry hentry hcanon x hx hlive := by
    obtain ⟨o, ho, hclaims⟩ := exists_emitOutput_claiming hm hcanon hx hlive entryIdx
    exact ⟨o, mem_emitPlanOutputs.mpr ⟨entryIdx, entry, hentry, ho⟩,
      emitted_of_mem_emitOutput hm ho, hclaims⟩
  carrying entryIdx entry hentry howns hhome hlive := by
    obtain ⟨o, ho, hwhole⟩ := exists_emitOutput_carrying hm howns hhome hlive entryIdx
    exact ⟨o, mem_emitPlanOutputs.mpr ⟨entryIdx, entry, hentry, ho⟩,
      emitted_of_mem_emitOutput hm ho, hwhole⟩

/-- The coordinator's records of a segment with something live. -/
theorem mem_compactSegment_of_ne_drop (hm : view.lbaMap.Wf) (ho : ∀ input, o ≠ .drop input) :
    o ∈ compactSegment view.liveHashes (collectStats entries view) ↔
      ∃ entryIdx entry, entries[entryIdx]? = some entry ∧
        o ∈ compactRecords view entry entryIdx := by
  have hmem : o ∈ (collectStats entries view).liveEntries.flatMap
      (compactEntry view.segmentId view.liveHashes) ↔ ∃ entryIdx entry,
        entries[entryIdx]? = some entry ∧
        o ∈ (liveEntriesOf entry entryIdx (classifyEntry entry view)).flatMap
          (compactEntry view.segmentId view.liveHashes) := by
    simp only [collectStats, flatMap_assoc, mem_flatMap, Prod.exists, mem_zipIdx_iff_getElem?]
    exact exists_comm
  simp only [flatMap_compactEntry hm] at hmem
  rw [← hmem, compactSegment]
  split_ifs with hempty
  · rw [isEmpty_iff.mp hempty]
    simp only [mem_singleton, flatMap_nil, not_mem_nil, iff_false]
    exact ho _
  · rfl

theorem emitted_of_mem_compactRecords (hm : view.lbaMap.Wf) {entry : SegmentEntry} {entryIdx : ℕ}
    (ho : o ∈ compactRecords view entry entryIdx) : Emitted view entry entryIdx o := by
  rw [compactRecords] at ho
  split_ifs at ho with hcanon
  · rw [mem_singleton.mp ho]
    exact .canonicalCanonical hcanon
  · simp at ho
  · exact emitted_of_mem_emitOutput hm ho

theorem planned_compactSegment (hm : view.lbaMap.Wf) : Planned view entries
    (compactSegment view.liveHashes (collectStats entries view)) := by
  have hnotdrop : ∀ {entryIdx entry o}, Emitted view entry entryIdx o →
      ∀ input, o ≠ .drop input := by
    rintro entryIdx entry o ho input rfl
    cases ho
  refine ⟨fun o ho => ?_, fun entryIdx entry hentry hcanon x hx hlive => ?_,
    fun entryIdx entry hentry howns hhome hlive => ?_⟩
  · by_cases hdrop : ∃ input, o = .drop input
    · exact .inl hdrop
    · obtain ⟨entryIdx, entry, hentry, ho⟩ :=
        (mem_compactSegment_of_ne_drop hm fun input h => hdrop ⟨input, h⟩).mp ho
      exact .inr ⟨entryIdx, entry, hentry, emitted_of_mem_compactRecords hm ho⟩
  · obtain ⟨o, ho, hclaims⟩ := exists_emitOutput_claiming hm hcanon hx hlive entryIdx
    have hemit := emitted_of_mem_emitOutput hm ho
    refine ⟨o, (mem_compactSegment_of_ne_drop hm (hnotdrop hemit)).mpr
      ⟨entryIdx, entry, hentry, ?_⟩, hemit, hclaims⟩
    rw [compactRecords, if_neg (by simp [hcanon])]
    exact ho
  · by_cases hcanon : entry.kind.isCanonicalOnly = true
    · have hemit : Emitted view entry entryIdx _ := .canonicalCanonical hcanon
      refine ⟨_, (mem_compactSegment_of_ne_drop hm (hnotdrop hemit)).mpr
        ⟨entryIdx, entry, hentry, ?_⟩, hemit, trivial⟩
      rw [compactRecords, if_pos hcanon, if_pos hlive]
      exact mem_singleton_self _
    · obtain ⟨o, ho, hwhole⟩ := exists_emitOutput_carrying hm howns hhome hlive entryIdx
      have hemit := emitted_of_mem_emitOutput hm ho
      refine ⟨o, (mem_compactSegment_of_ne_drop hm (hnotdrop hemit)).mpr
        ⟨entryIdx, entry, hentry, ?_⟩, hemit, hwhole⟩
      rw [compactRecords, if_neg hcanon]
      exact ho

end Passes

/-- A segment the coordinator does not sit out has no Delta to defer. -/
theorem cuttable_of_eligible {view : ClassifyCtx} {entries : List SegmentEntry}
    (hm : view.lbaMap.Wf) (h : (collectStats entries view).hasPartialDeath = false) :
    view.Cuttable plaintext entries := by
  intro e he hkind hlive
  refine .inl (any_eq_true.mp ?_)
  by_contra hsource
  have hdefer : classifyEntry e view = .deferUnresolvableDelta := by
    rw [classifyEntry_of_partlyLive hm (by simp [hkind]) (by rw [hkind]; rfl) hlive,
      if_pos ⟨hkind, Bool.eq_false_iff.mpr hsource⟩]
  have hnone := any_eq_false.mp h e he
  exact hnone (decide_eq_true hdefer)

/-- A deferred Delta is passed on whole, so a lossless output needs it to agree with the view. -/
theorem cuttable_of_lossless (h : RewriteInput ctx plaintext lbaMap liveHashes segUlid state)
    {newUlid : Ulid} {out : Materialised}
    (hok : materialisePlan ⟨newUlid, emitPlanOutputs segUlid (state.entries.map fun e =>
      classifyEntry e h.seen)⟩ ctx = .ok out)
    (hout : Lossless ctx plaintext h.seen out) :
    h.seen.Cuttable plaintext state.entries := by
  intro e he hkind hlive
  refine or_iff_not_imp_left.mpr fun hsource x hx => ?_
  have hm : h.seen.lbaMap.Wf := h.view.wf
  have hcanon : e.kind.isCanonicalOnly = false := by rw [hkind]; rfl
  have hnone : h.seen.hasResolvableSource e = false := by
    rw [Bool.eq_false_iff]
    exact fun hsome => hsource (any_eq_true.mp hsome)
  obtain ⟨entryIdx, hat⟩ := getElem?_of_mem he
  have hkeep : PlanOutput.keep segUlid entryIdx ∈
      emitPlanOutputs h.seen.segmentId
        (state.entries.map fun e =>
          classifyEntry e h.seen) := by
    refine mem_emitPlanOutputs.mpr ⟨entryIdx, e, hat, ?_⟩
    rw [classifyEntry_of_partlyLive hm (by simp [hkind]) hcanon hlive, if_pos ⟨hkind, hnone⟩]
    exact mem_singleton_self _
  -- the Delta is in the output, over its whole range
  obtain ⟨out', hok', hbuilt⟩ := h.built (planned_emitPlanOutputs hm) newUlid
  obtain rfl : out = out' := Except.ok.inj (hok.symm.trans hok')
  obtain ⟨p, hp, hrenders⟩ := hbuilt.complete _ hkeep e
    (h.placed hat (.keepDeferred hkind hlive hnone)) (.inr trivial)
  have hrange := hrenders.range
  rw [PlanOutput.range, if_neg (by simp [hcanon])] at hrange
  obtain ⟨hstart, hlength⟩ := Prod.mk.inj hrange
  have hcov : p.entry.Covers x := by
    rw [SegmentEntry.Covers, hstart, hlength]
    exact hx
  obtain ⟨hash, offset, hclaim⟩ := hout.owned p hp x hcov
  obtain ⟨content, hdecodes, hblock⟩ := hout.decodes p hp x hcov hash offset _ hclaim
  refine ⟨hash, offset, hclaim, ?_⟩
  have hcontent := hdecodes.unique hrenders.decodes
  rw [PlanOutput.payload, if_neg (by simp [hkind])] at hcontent
  rw [← hcontent, ← hstart, hblock]

/-- **A rewrite loses nothing, but for a Delta it cannot cut.** The output of the volume's repack is
lossless exactly when every partly dead Delta has a source or agrees with the view as it stands; the
output of the coordinator's compaction is lossless whenever it does not sit the segment out. -/
theorem rewrite_lossless_iff (h : RewriteInput ctx plaintext lbaMap liveHashes segUlid state)
    (newUlid : Ulid) :
    ((∃ out, materialisePlan ⟨newUlid, emitPlanOutputs segUlid (state.entries.map fun e =>
          classifyEntry e (ctx.classifyCtx lbaMap liveHashes segUlid))⟩ ctx = .ok out ∧
        Lossless ctx plaintext (ctx.classifyCtx lbaMap liveHashes segUlid) out) ↔
      (ctx.classifyCtx lbaMap liveHashes segUlid).Cuttable plaintext state.entries) ∧
    ((collectStats state.entries
        (ctx.classifyCtx lbaMap liveHashes segUlid)).hasPartialDeath = false →
      ∃ out, materialisePlan (compactSegments [collectStats state.entries
          (ctx.classifyCtx lbaMap liveHashes segUlid)] newUlid liveHashes) ctx = .ok out ∧
        Lossless ctx plaintext (ctx.classifyCtx lbaMap liveHashes segUlid) out) := by
  have hm : h.seen.lbaMap.Wf := h.view.wf
  refine ⟨⟨fun ⟨out, hok, hout⟩ => h.cuttable_of_lossless hok hout, fun hcut => ?_⟩, fun helig => ?_⟩
  · exact h.lossless_of_planned (planned_emitPlanOutputs hm) hcut newUlid
  · have hplan : Planned h.seen state.entries
        (compactSegments [collectStats state.entries
          h.seen] newUlid liveHashes).outputs := by
      rw [compactSegments, flatMap_singleton]
      exact planned_compactSegment hm
    exact h.lossless_of_planned hplan (cuttable_of_eligible hm helig) newUlid

end RewriteInput

/-! ## A Delta whose source is gone -/

namespace DeferredDelta

open ReferenceToDelta (codecs plaintext located lbaMap lbaMap_wf)

/-- Segment 10 holds hash 1 on two blocks as a recipe against hash 2. -/
def recipe : SegmentEntry := .newDelta 1 0 2 [⟨2, 0, 8192, 0⟩]

/-- A segment that holds the recipe alone. -/
def state : InputState := ⟨[recipe], fun _ => none, [], 0, 0⟩

variable (inner : AList fun _ : Hash => ExtentLocation)

/-- The recipe is homed in segment 10; segment 11 has overwritten its second block. -/
def index : ExtentIndex :=
  recordSources
    { new with
      inner := inner.insert 3 (located 11 3)
      deltas := AList.insert 1 ⟨10, 0, .cached, [⟨2, 0, 8192, 0⟩]⟩ ∅ } 10 1 [2]

/-- A worker that has segment 10. -/
def ctx : MaterialiseCtx where
  codecs := codecs
  inputStates s := if s = 10 then some state else none
  extentIndex := index inner
  resolver :=
    ⟨fun _ _ _ => .error "", fun _ => some ("10", .fullSegment), fun _ => .error "",
      fun _ _ _ => .ok (plaintext 1)⟩
  allowJournal := false

/-- The hashes claimed and the source named. -/
def liveHashes : Finset Hash := {1, 2, 3}

/-- The bodies in the data map besides that of hash 3. -/
def Located : Prop :=
  ∀ h loc, inner.lookup h = some loc → ∃ u, u ≠ 10 ∧ loc = located u h

variable {inner : AList fun _ : Hash => ExtentLocation}

theorem Located.index (hinner : Located inner) (h : Hash) (loc : ExtentLocation)
    (hloc : (index inner).lookup h = some loc) : ∃ u, u ≠ 10 ∧ loc = located u h := by
  have heq : (DeferredDelta.index inner).inner = inner.insert 3 (located 11 3) := rfl
  rw [ExtentIndex.lookup, heq] at hloc
  by_cases h3 : h = 3
  · rw [h3] at hloc
    exact ⟨11, by decide, by rw [h3]; exact (Option.some.inj hloc).symm⟩
  · rw [lookup_insert_ne h3] at hloc
    exact hinner h loc hloc

theorem entry_of_hasEntry {input : Ulid} {entryIdx : ℕ} {st : InputState} {entry : SegmentEntry}
    (h : (ctx inner).HasEntry input entryIdx st entry) : entry = recipe := by
  obtain ⟨hstate, hentry⟩ := h
  simp only [ctx] at hstate
  split_ifs at hstate
  obtain rfl := Option.some.inj hstate
  have hmem := mem_of_getElem? hentry
  exact mem_singleton.mp hmem

theorem readable (hinner : Located inner) :
    (ctx inner).Readable plaintext where
  codecs := ⟨fun _ => rfl, fun h => absurd h (by simp [ctx, ReferenceToDelta.codecs]),
    fun _ _ => ⟨none, rfl⟩⟩
  located := by
    intro h loc hloc
    obtain ⟨u, -, rfl⟩ := hinner.index h loc hloc
    rfl
  stored h hbody := by rw [entry_of_hasEntry h] at hbody; exact absurd hbody (by decide)
  options h _ := by rw [entry_of_hasEntry h]; exact cons_ne_nil _ _
  blobs h _ opt hopt := by
    rw [entry_of_hasEntry h] at hopt ⊢
    rw [mem_singleton.mp hopt]
    exact ⟨plaintext 1, rfl, by rw [plaintext, length_replicate]; rfl, rfl⟩
  hashed h _ := by
    rw [entry_of_hasEntry h]
    show BitVec.ofNat 256 ((plaintext 1).headD 0).toNat = 1
    decide
  sized h _ _ := by
    rw [entry_of_hasEntry h]
    simp [plaintext, recipe, SegmentEntry.newDelta]

theorem lookupWithClaimant_lbaMap (x : ℕ) : lbaMap.lookupWithClaimant x =
    if 1 ≤ x ∧ x < 2 then some (3, x - 1, 11)
    else if x < 2 then some (1, x, 10)
    else none := by
  have hfirst := LbaMap.inv_new.insertInner (s := 0) (show 0 < 2 by decide) 0 1 10
  rw [lbaMap, hfirst.lookupWithClaimant_insertInner (by decide),
    LbaMap.inv_new.lookupWithClaimant_insertInner (by decide)]
  simp only [Nat.zero_add, Nat.zero_le, true_and]
  rfl

theorem view (hinner : Located inner) :
    ConsistentView ((ctx inner).classifyCtx lbaMap liveHashes 10) state.entries where
  wf := lbaMap_wf
  claims x hash offset hclaim := by
    rw [show ((ctx inner).classifyCtx lbaMap liveHashes 10).lbaMap = lbaMap from rfl,
      lookupWithClaimant_lbaMap] at hclaim
    split_ifs at hclaim with h1 h2
    · simp [classifyCtx] at hclaim
    · obtain ⟨rfl, rfl, -⟩ : 1 = hash ∧ x = offset ∧ _ := by simpa using hclaim
      obtain rfl : x = 0 := by omega
      exact ⟨recipe, rfl, rfl, rfl⟩
  homes hash loc hloc hseg := by
    obtain ⟨u, hu, rfl⟩ := hinner.index hash loc hloc
    exact absurd hseg hu
  deltaHomes hash loc hloc _ := by
    have heq : ((ctx inner).classifyCtx lbaMap liveHashes 10).extentIndex.deltas =
        insert 1 ⟨10, 0, .cached, [⟨2, 0, 8192, 0⟩]⟩ ∅ := rfl
    rw [lookupDelta, heq] at hloc
    refine ⟨recipe, mem_singleton_self _, ?_, rfl⟩
    by_contra hne
    have hne' : hash ≠ 1 := fun h => hne h.symm
    rw [lookup_insert_ne hne'] at hloc
    cases hloc
  canonical e he hcanon := by
    rw [mem_singleton.mp he] at hcanon
    exact absurd hcanon (by decide)
  zero e he _ := by
    rw [mem_singleton.mp he]
    decide

theorem input (hinner : Located inner) :
    RewriteInput (ctx inner) plaintext lbaMap liveHashes 10 state where
  loaded := rfl
  readable := readable hinner
  view := view hinner
  tier e he hjournal := by
    rw [mem_singleton.mp he] at hjournal
    exact absurd hjournal (by decide)
  references e he hkind := by
    rw [mem_singleton.mp he] at hkind
    exact absurd hkind (by decide)

end DeferredDelta

open DeferredDelta ReferenceToDelta in
/-- A recipe whose source is in no data map, with its second block overwritten by segment 11: the
repack passes it on over both blocks. -/
theorem repack_claims_overwritten_block :
    RewriteInput (DeferredDelta.ctx ∅) plaintext lbaMap DeferredDelta.liveHashes 10 state ∧
      (∃ out, materialisePlan ⟨40, emitPlanOutputs 10 (state.entries.map fun e =>
          classifyEntry e ((DeferredDelta.ctx ∅).classifyCtx lbaMap DeferredDelta.liveHashes 10))⟩
          (DeferredDelta.ctx ∅) = .ok out ∧ ∃ p ∈ out.entries, p.entry.Covers 1) ∧
      lbaMap.lookupWithClaimant 1 = some (3, 0, 11) := by
  refine ⟨input fun h loc hloc => ?_, ⟨⟨[.fromEntry recipe], plaintext 1⟩, ?_, ?_⟩, rfl⟩
  · rw [lookup_empty] at hloc
    cases hloc
  · rfl
  · exact ⟨_, mem_singleton_self _, by decide⟩

open DeferredDelta ReferenceToDelta in
/-- The same recipe with its source in the data map. -/
theorem repack_lossless_with_source :
    ∃ out, materialisePlan ⟨40, emitPlanOutputs 10 (state.entries.map fun e =>
        classifyEntry e ((DeferredDelta.ctx (insert 2 (located 20 2) ∅)).classifyCtx lbaMap
          DeferredDelta.liveHashes 10))⟩ (DeferredDelta.ctx (insert 2 (located 20 2) ∅)) =
        .ok out ∧
      Lossless (DeferredDelta.ctx (insert 2 (located 20 2) ∅)) plaintext
        ((DeferredDelta.ctx (insert 2 (located 20 2) ∅)).classifyCtx lbaMap
          DeferredDelta.liveHashes 10) out := by
  refine ((input fun h loc hloc => ?_).rewrite_lossless_iff 40).1.mpr fun e he _ _ => .inl ?_
  · by_cases h2 : h = 2
    · rw [h2, lookup_insert] at hloc
      exact ⟨20, by decide, by rw [h2]; exact (Option.some.inj hloc).symm⟩
    · rw [lookup_insert_ne h2, lookup_empty] at hloc
      cases hloc
  · rw [mem_singleton.mp he]
    exact ⟨_, mem_singleton_self _, rfl⟩

end Elide
