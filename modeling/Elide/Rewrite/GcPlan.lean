import Elide.MapLayers.Structural
import Elide.Rewrite.Lossless

/-!
# A GC plan and the entries it materialises to

A GC pass classifies the committed segments over one view of the volume, leaves out those it has to
defer, and plans a compaction of some of the rest. A worker materialises the plan later. This module
follows an output entry back: to the record it renders, to the input entry the record was emitted
for, and to the claims the view had there.

## Main results

* `GcPass.exists_origin`: every output entry comes from a record of one of the inputs.
* `GcPass.claimed`: where an output entry claims a block, an input held the claim, with the same
  content.
* `GcPass.carried_body`, `carried_delta`: what is live and homed at an input is carried, a body as a
  body and a recipe as a recipe.
* `GcPass.live_of_delta`, `length_pos`: a recipe in the output is of a live hash, and an output entry
  that claims blocks covers at least one.
-/

namespace Elide

open Rewrite MaterialiseCtx List RewriteInput

/-- The hashes a pass keeps: those claimed and those an encoding names. -/
def gcLiveHashes (m : Maps) : Finset Hash :=
  (m.lbamap.claimHashes ++ m.extentIndex.namedDeltaSources).toFinset

/-- What a pass over the maps `m` reads when it classifies a segment. -/
def gcView (m : Maps) (segment : Ulid) : ClassifyCtx :=
  ⟨m.lbamap, m.extentIndex, gcLiveHashes m, segment⟩

/-- The plan over those of `segments` that need no deferral. -/
def gcPlan (m : Maps) (entries : Ulid → List SegmentEntry) (segments : List Ulid)
    (newUlid : Ulid) : RewritePlan :=
  compactSegments (eligibleStats (segments.map fun u => collectStats (entries u) (gcView m u)))
    newUlid (gcLiveHashes m)

theorem RewritePlan.mem_inputs {plan : RewritePlan} {u : Ulid} :
    u ∈ plan.inputs ↔ ∃ o ∈ plan.outputs, o.input = u := by
  simp [RewritePlan.inputs]

theorem Emitted.input {ctx : ClassifyCtx} {entry : SegmentEntry} {entryIdx : ℕ} {o : PlanOutput}
    (ho : Emitted ctx entry entryIdx o) : o.input = ctx.segmentId := by
  cases ho <;> rfl

/-- A pass over the maps `m`, and the worker that materialises its plan: it holds the entries the
pass classified, reads every body and resolves what the pass resolved. -/
structure GcPass (m : Maps) (entries : Ulid → List SegmentEntry) (segments : List Ulid)
    (ctx : MaterialiseCtx) (plaintext : Hash → Bytes) : Prop where
  inv : m.lbamap.Inv
  view : ∀ u ∈ segments, ConsistentView (gcView m u) (entries u)
  /-- A claim covers at least one block. -/
  length : ∀ u ∈ segments, ∀ e ∈ entries u, e.kind.isCanonicalOnly = false → 0 < e.lbaLength
  readable : ctx.Readable plaintext
  loaded : ∀ u ∈ segments, ∃ state, ctx.inputStates u = some state ∧ state.entries = entries u
  resolves : ∀ h, (m.extentIndex.lookup h).isSome = true → (ctx.extentIndex.lookup h).isSome = true

namespace GcPass

variable {m : Maps} {entries : Ulid → List SegmentEntry} {segments : List Ulid}
  {ctx : MaterialiseCtx} {plaintext : Hash → Bytes} {newUlid u : Ulid} {entry : SegmentEntry}
  {entryIdx : ℕ} {o : PlanOutput} {out : Materialised} {p : PendingEntry}

/-! ## The records -/

/-- The segment is in the pass and is not deferred. -/
def Eligible (m : Maps) (entries : Ulid → List SegmentEntry) (segments : List Ulid) (u : Ulid) :
    Prop :=
  u ∈ segments ∧ (collectStats (entries u) (gcView m u)).hasPartialDeath = false

theorem mem_outputs : o ∈ (gcPlan m entries segments newUlid).outputs ↔
    ∃ u, Eligible m entries segments u ∧
      o ∈ compactSegment (gcLiveHashes m) (collectStats (entries u) (gcView m u)) := by
  simp only [gcPlan, compactSegments, eligibleStats, mem_flatMap, mem_filter,
    mem_map, Bool.not_eq_true']
  constructor
  · rintro ⟨_, ⟨⟨u, hu, rfl⟩, helig⟩, ho⟩
    exact ⟨u, ⟨hu, helig⟩, ho⟩
  · rintro ⟨u, ⟨hu, helig⟩, ho⟩
    exact ⟨_, ⟨⟨u, hu, rfl⟩, helig⟩, ho⟩

/-- The record was emitted for an entry of the segment `u`. -/
structure Records (m : Maps) (entries : Ulid → List SegmentEntry) (segments : List Ulid)
    (u : Ulid) (entry : SegmentEntry) (entryIdx : ℕ) (o : PlanOutput) : Prop where
  eligible : Eligible m entries segments u
  at_idx : (entries u)[entryIdx]? = some entry
  mem : o ∈ compactRecords (gcView m u) entry entryIdx

theorem Records.mem_entries (h : Records m entries segments u entry entryIdx o) :
    entry ∈ entries u :=
  mem_of_getElem? h.at_idx

theorem Records.segment (h : Records m entries segments u entry entryIdx o) : u ∈ segments :=
  h.eligible.1

section

variable (h : GcPass m entries segments ctx plaintext)
include h

theorem emitted (hrec : Records m entries segments u entry entryIdx o) :
    Emitted (gcView m u) entry entryIdx o :=
  emitted_of_mem_compactRecords (h.view u hrec.segment).wf hrec.mem

/-- A record consumes an input whole or was emitted for one of its entries. -/
theorem drop_or_records (ho : o ∈ (gcPlan m entries segments newUlid).outputs) :
    (∃ u, o = .drop u ∧ Eligible m entries segments u) ∨
      ∃ u entry entryIdx, Records m entries segments u entry entryIdx o := by
  obtain ⟨u, helig, ho⟩ := mem_outputs.mp ho
  by_cases hdrop : ∃ input, o = .drop input
  · left
    obtain ⟨input, rfl⟩ := hdrop
    rw [compactSegment] at ho
    split_ifs at ho
    · cases mem_singleton.mp ho
      exact ⟨u, rfl, helig⟩
    · obtain ⟨l, -, ho⟩ := mem_flatMap.mp ho
      unfold compactEntry at ho
      split at ho
      · simp [runOutput] at ho
      · split at ho <;> simp at ho
  · right
    obtain ⟨entryIdx, entry, hentry, hmem⟩ := (mem_compactSegment_of_ne_drop
      (h.view u helig.1).wf fun input heq => hdrop ⟨input, heq⟩).mp ho
    exact ⟨u, entry, entryIdx, helig, hentry, hmem⟩

theorem eligible_of_mem_inputs (hu : u ∈ (gcPlan m entries segments newUlid).inputs) :
    Eligible m entries segments u := by
  obtain ⟨o, ho, rfl⟩ := RewritePlan.mem_inputs.mp hu
  rcases h.drop_or_records ho with ⟨u, rfl, helig⟩ | ⟨u, entry, entryIdx, hrec⟩
  · exact helig
  · rw [(h.emitted hrec).input]
    exact hrec.eligible

theorem placed (hu : u ∈ segments) (hat : (entries u)[entryIdx]? = some entry)
    (hemit : Emitted (gcView m u) entry entryIdx o) : ctx.Placed entry o := by
  obtain ⟨state, hstate, hentries⟩ := h.loaded u hu
  have hholds : ctx.Holds ⟨u, entryIdx, entry⟩ := ⟨state, hstate, hentries ▸ hat⟩
  exact placed_of_emitted (h.view u hu).wf h.resolves hholds rfl hemit

theorem placed_of_records (hrec : Records m entries segments u entry entryIdx o) :
    ctx.Placed entry o :=
  h.placed hrec.segment hrec.at_idx (h.emitted hrec)

/-- A claimed hash is live. -/
theorem live_of_claim {x : ℕ} {hash : Hash} {off : ℕ} {c : Ulid}
    (hx : m.lbamap.lookupWithClaimant x = some (hash, off, c)) : hash ∈ gcLiveHashes m := by
  rw [gcLiveHashes, mem_toFinset, mem_append]
  left
  rw [LbaMap.mem_claimHashes, h.inv.isReferenced_iff]
  exact ⟨x, off, by rw [LbaMap.lookup_eq_map, hx]; rfl⟩

/-- What is passed on whole is live: it claims a block, or it is kept for those who resolve against
it. -/
theorem live_of_carriesWhole (hrec : Records m entries segments u entry entryIdx o)
    (hwhole : o.CarriesWhole) : entry.hash ∈ gcLiveHashes m := by
  have hm : (gcView m u).lbaMap.Wf := (h.view u hrec.segment).wf
  have ho := hrec.mem
  rw [compactRecords] at ho
  split_ifs at ho with hcanon hlive
  · exact hlive
  · cases ho
  have hpos := h.length u hrec.segment entry hrec.mem_entries (by simpa using hcanon)
  by_cases hzero : entry.kind = .zero
  · rw [classifyEntry_zero hzero] at ho
    obtain ⟨r, -, rfl⟩ := mem_map.mp ho
    exact hwhole.elim
  have hclaims : entry.ClaimsBody := ⟨hzero, by simpa using hcanon⟩
  rcases hclaims.cases hm with ⟨hall, -⟩ | ⟨-, -, heq⟩ | ⟨⟨⟨x, -, hx⟩, -⟩, -⟩
  · exact h.live_of_claim (hall entry.startLba ⟨Nat.le_refl _, by omega⟩)
  · rw [heq] at ho
    split_ifs at ho with hdemote
    · exact hdemote.2.2
    · cases ho
    · cases ho
  · exact h.live_of_claim hx

/-! ## The output entries -/

/-- **Where an output entry comes from**, and what each record that passes an entry on becomes. -/
theorem exists_origin (hok : materialisePlan (gcPlan m entries segments newUlid) ctx = .ok out) :
    (∀ p ∈ out.entries, ∃ u entry entryIdx o, Records m entries segments u entry entryIdx o ∧
        ctx.Rendered plaintext out.deltaBody entry o p) ∧
      ∀ o ∈ (gcPlan m entries segments newUlid).outputs, ∀ entry, ctx.Placed entry o →
        o.CarriesWhole → ∃ p ∈ out.entries, ctx.Rendered plaintext out.deltaBody entry o p := by
  have hwell : ∀ o ∈ (gcPlan m entries segments newUlid).outputs, ctx.Wellplaced o := by
    intro o ho
    rcases h.drop_or_records ho with ⟨u, rfl, -⟩ | ⟨u, entry, entryIdx, hrec⟩
    · exact .inl ⟨u, rfl⟩
    · exact .inr ⟨entry, h.placed_of_records hrec⟩
  have hslot : ctx.SlotOk {} := fun s hs => absurd hs (by simp)
  obtain ⟨st, hst, hok⟩ := Run.exists_of_bind_ok hok
  obtain rfl := Except.ok.inj hok
  obtain ⟨new, hnew, -, hsound, hcomplete⟩ := h.readable.rendered hwell hslot hst
  have hentries : st.entries = new := hnew
  dsimp only
  rw [hentries]
  refine ⟨fun p hp => ?_, fun o ho entry he hwhole => hcomplete o ho entry he (.inr hwhole)⟩
  obtain ⟨o, ho, entry, hrendered⟩ := hsound p hp
  rcases h.drop_or_records ho with ⟨u, rfl, -⟩ | ⟨u, entry', entryIdx, hrec⟩
  · exact hrendered.placed.elim
  · obtain rfl := hrendered.placed.unique (h.placed_of_records hrec)
    exact ⟨u, entry, entryIdx, o, hrec, hrendered⟩

section

variable (hrec : Records m entries segments u entry entryIdx o)
  (hp : ctx.Rendered plaintext out.deltaBody entry o p)
include hrec hp

/-- **An output entry claims what its input held**, and decodes there to what the claim read. -/
theorem claimed {x : ℕ} (hx : p.entry.Covers x) :
    ∃ hash off content, m.lbamap.lookupWithClaimant x = some (hash, off, u) ∧
      ctx.Decodes plaintext out.deltaBody p content ∧
      sliceBlocks content (x - p.entry.startLba) 1 = claimedBlock plaintext hash off := by
  have hrange := hp.renders.range
  have hclaims : o.Claims entry x := by
    rw [PlanOutput.Claims, ← hrange]
    exact hx
  have hcut : (gcView m u).Cuttable plaintext (entries u) :=
    cuttable_of_eligible (h.view u hrec.segment).wf hrec.eligible.2
  obtain ⟨hash, off, hlookup, hblock⟩ :=
    (h.emitted hrec).claimed (h.view u hrec.segment) hcut hrec.mem_entries hclaims
  rw [← hrange] at hblock
  exact ⟨hash, off, _, hlookup, hp.renders.decodes, hblock⟩

/-- A claim of the output covers at least one block. -/
theorem length_pos (hclaims : p.entry.kind.isCanonicalOnly = false) : 0 < p.entry.lbaLength := by
  obtain ⟨hentry, hcanon⟩ := hp.derived.claims hclaims
  have hpos := h.length u hrec.segment entry hrec.mem_entries hentry
  have hm : (gcView m u).lbaMap.Wf := (h.view u hrec.segment).wf
  have hrun : ∀ r ∈ (gcView m u).liveRuns entry, 0 < r.rangeEnd - r.rangeStart := by
    intro r hr
    have := hm.lt_of_mem_extentsInRange (by omega) (mem_filter.mp hr).1
    omega
  have hlen : p.entry.lbaLength = (o.range entry).2 := congrArg Prod.snd hp.renders.range
  rw [hlen]
  cases h.emitted hrec with
  | zero _ hr | run _ _ _ hr => exact hrun _ hr
  | keepCanonical | keepLive | keepDeferred =>
    rw [PlanOutput.range, if_neg (by simp [hentry])]
    exact hpos
  | canonicalCanonical | canonical => exact absurd rfl (hcanon _ _)

end

section Carried

variable (hok : materialisePlan (gcPlan m entries segments newUlid) ctx = .ok out)
include hok

theorem exists_carried (hu : u ∈ (gcPlan m entries segments newUlid).inputs)
    (hmem : entry ∈ entries u) (howns : entry.kind.ownsExtentHash = true)
    (hhome : (gcView m u).ownsHome entry = true) (hlive : entry.hash ∈ gcLiveHashes m) :
    ∃ o, o.CarriesWhole ∧ ∃ p ∈ out.entries, ctx.Rendered plaintext out.deltaBody entry o p := by
  have helig := h.eligible_of_mem_inputs hu
  obtain ⟨entryIdx, hat⟩ := List.getElem?_of_mem hmem
  obtain ⟨o, ho, hemit, hwhole⟩ := (planned_compactSegment
    (h.view u helig.1).wf).carrying entryIdx entry hat howns hhome hlive
  obtain ⟨p, hp, hrendered⟩ := (h.exists_origin hok).2 o (mem_outputs.mpr ⟨u, helig, ho⟩) entry
    (h.placed helig.1 hat hemit) hwhole
  exact ⟨o, hwhole, p, hp, hrendered⟩

/-- A live body homed at an input is carried as a body. -/
theorem carried_body {hash : Hash} {loc : ExtentLocation}
    (hloc : m.extentIndex.lookup hash = some loc)
    (hu : loc.segmentId ∈ (gcPlan m entries segments newUlid).inputs)
    (hlive : hash ∈ gcLiveHashes m) :
    ∃ p ∈ out.entries, p.entry.hash = hash ∧ p.entry.kind.hasBodyBytes = true := by
  have hview := h.view _ (h.eligible_of_mem_inputs hu).1
  obtain ⟨entry, hmem, rfl, hbody⟩ := hview.homes hash loc hloc rfl
  obtain ⟨o, hwhole, p, hp, hrendered⟩ := h.exists_carried hok hu hmem
    (EntryKind.ownsExtentHash_of_hasBodyBytes hbody) (ClassifyCtx.ownsHome_of_lookup hbody hloc rfl)
    hlive
  exact ⟨p, hp, hrendered.derived.body hwhole hbody⟩

/-- A live recipe homed at an input is carried as a recipe. -/
theorem carried_delta {hash : Hash} {d : DeltaLocation}
    (hd : m.extentIndex.lookupDelta hash = some d)
    (hu : d.segmentId ∈ (gcPlan m entries segments newUlid).inputs)
    (hlive : hash ∈ gcLiveHashes m) :
    ∃ p ∈ out.entries, p.entry.hash = hash ∧ p.entry.kind.isDelta = true := by
  have hview := h.view _ (h.eligible_of_mem_inputs hu).1
  obtain ⟨entry, hmem, rfl, hdelta⟩ := hview.deltaHomes hash d hd rfl
  obtain ⟨o, hwhole, p, hp, hrendered⟩ := h.exists_carried hok hu hmem
    (EntryKind.ownsExtentHash_of_isDelta hdelta) (ClassifyCtx.ownsHome_of_lookupDelta hdelta hd rfl)
    hlive
  exact ⟨p, hp, hrendered.derived.delta hwhole hdelta⟩

/-- A recipe in the output is of a live hash. -/
theorem live_of_delta (hp : p ∈ out.entries) (hdelta : p.entry.kind.isDelta = true) :
    p.entry.hash ∈ gcLiveHashes m := by
  obtain ⟨u, entry, entryIdx, o, hrec, hrendered⟩ := (h.exists_origin hok).1 p hp
  have hwhole := hrendered.derived.recipe hdelta
  have hzero : p.entry.kind ≠ .zero := by
    intro hkind
    rw [hkind] at hdelta
    cases hdelta
  rw [hrendered.derived.hash hwhole hzero]
  exact h.live_of_carriesWhole hrec hwhole

end Carried

end

end GcPass

end Elide
