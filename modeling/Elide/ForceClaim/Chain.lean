import Elide.ForceClaim.Plan
import Elide.LbaMap.RebuildWinner
import Mathlib.Data.Finset.Sort

/-!
# Chains of forced claims

A forced claim puts its fork in the record first and fills it afterwards. If it is killed in between,
the name is bound to a partial fork, and the next forced claim takes that as its source. What the
next claim can know of the dead fork is then what the partial fork's objects say: its provenance, which
pins it to the dead fork at the snapshot the record gave, and its HEAD, if it came to write it.

A missing HEAD means damage for a fork that ran, and a claim then falls back to the fork's newest
snapshot. A partial fork has no snapshot either, so the fallback is the empty state: the tail of the
dead fork, beyond the pinned snapshot, is lost. The pin can lose as well. The record's snapshot may be
behind the dead fork's last one, which only the end of a claim puts right, and the copies are planned
against the last one.

## Main results

* `BoundFork.contains_iff`: the fork a chain ends with has all that was live in the dead fork, and so
  every block of it, exactly when each live segment is in the snapshot that the first claim's
  provenance pins, or is beyond the dead fork's last snapshot and no claim of the chain was killed
  before its HEAD.
* `BoundFork.inherits`: it is pinned to the dead fork, or to what the dead fork was pinned to.
* `BoundFork.tail_lost`: a chain of two claims that ends without the dead fork's segment.
-/

namespace Elide

open ForkObjects SegmentHead Vector Finset LbaMapBuilder

/-- A fork that a name is bound to. -/
structure BoundFork where
  vol : Ulid
  /-- The snapshot in the record. -/
  latestSnapshot : Option Ulid
  objects : ForkObjects
  segments : Finset Ulid

/-- What a forced claim does to the bucket after its rebind. -/
inductive ReOwnStep where
  | putHead
  | copySegment (u : Ulid)
  | putProvenance
  deriving DecidableEq

/-- A forced claim that is killed, after so many steps. -/
structure KilledClaim where
  vol : Ulid
  pubkey : Vector UInt8 32
  steps : ℕ

namespace BoundFork

/-- What is live in the fork. -/
def live (f : BoundFork) : Finset Ulid :=
  liveSet f.objects.frontierSegments f.objects.sourceHead

/-- The segments of a user manifest. -/
def manifest (f : BoundFork) (snap : Ulid) : Finset Ulid := (f.objects.manifests.get? snap).getD ∅

variable (source : BoundFork)

/-- The new fork as the rebind leaves it. Its record has no snapshot. -/
def rebound (vol : Ulid) (pubkey : Vector UInt8 32) : BoundFork where
  vol := vol
  latestSnapshot := none
  objects :=
    { pubkey := pubkey
      provenance := source.objects.provisional source.vol source.latestSnapshot
      latest := none
      manifests := .empty
      stopManifests := .empty
      head := none }
  segments := ∅

/-- The steps of a claim of the source. -/
def reOwn : List ReOwnStep :=
  (if source.objects.headDelta = ∅ then []
    else .putHead :: (source.objects.headDelta.sort (· ≤ ·)).map .copySegment) ++ [.putProvenance]

/-- One step of re-owning `source` under the fork. -/
def step (source fork : BoundFork) : ReOwnStep → BoundFork
  | .putHead => { fork with objects := { fork.objects with head := some source.objects.intent } }
  | .copySegment u => { fork with segments := insert u fork.segments }
  | .putProvenance =>
    { fork with
      objects := { fork.objects with
        provenance := source.objects.finalLineage source.vol fork.objects.provenance } }

/-- A claim that gets this far. -/
def forceClaim (vol : Ulid) (pubkey : Vector UInt8 32) (steps : List ReOwnStep) : BoundFork :=
  steps.foldl source.step (source.rebound vol pubkey)

/-- The partial fork a killed claim leaves. -/
def killed (k : KilledClaim) : BoundFork :=
  source.forceClaim k.vol k.pubkey (source.reOwn.take k.steps)

/-- The fork of a claim that completes. -/
def completed (vol : Ulid) (pubkey : Vector UInt8 32) : BoundFork :=
  source.forceClaim vol pubkey source.reOwn

/-- The fork of a claim that completes after a chain of killed ones. -/
def recovered (dead : BoundFork) (chain : List KilledClaim) (vol : Ulid)
    (pubkey : Vector UInt8 32) : BoundFork :=
  (chain.foldl killed dead).completed vol pubkey

/-! ### What is claimed -/

/-- A segment of the dead fork is in the snapshot of it that a parent reference pins. -/
def PinnedIn (dead : BoundFork) (parent : Option ParentRef) (u : Ulid) : Prop :=
  ∃ p, parent = some p ∧ p.volumeUlid = dead.vol ∧ u ∈ dead.manifest p.snapshotUlid

/-- A fork has all that was live in the dead one, copied or by the snapshot it is pinned to. -/
def Contains (dead fork : BoundFork) : Prop :=
  ∀ u ∈ dead.live, u ∈ fork.segments ∨ dead.PinnedIn fork.objects.provenance.parent u

/-- The segments of the dead fork in the snapshot of it that a fork is pinned to. -/
def pinnedSegments (dead fork : BoundFork) : Finset Ulid :=
  match fork.objects.provenance.parent with
  | some p => if p.volumeUlid = dead.vol then dead.manifest p.snapshotUlid else ∅
  | none => ∅

/-- What a rebuild walks over: the ancestors, and sets of segments of which `file` says what is in
them. -/
def layers (ancestors : List (List SegmentFile)) (file : Ulid → SegmentFile)
    (own : List (Finset Ulid)) : List (List SegmentFile) :=
  ancestors ++ own.map fun segments => (segments.sort (· ≤ ·)).map file

/-- Whatever the segments hold, and the ancestors: a block that a segment of the dead fork's last cut
holds reads the same in the fork, unless the segment is beaten there by one that the cut has not. -/
def ReadsAs (dead fork : BoundFork) : Prop :=
  ∀ (ancestors : List (List SegmentFile)) (file : Ulid → SegmentFile),
    (∀ layer ∈ ancestors, ∀ seg ∈ layer, ∀ e ∈ seg.entries, LbaMap.EntryFits e) →
    (∀ u, ∀ e ∈ (file u).entries, LbaMap.EntryFits e) →
    ∀ x seg, holder (layers ancestors file [dead.live]) x = some seg →
      Prevails (layers ancestors file [dead.pinnedSegments fork, fork.segments]) seg x →
      (buildLayers (layers ancestors file
          [dead.pinnedSegments fork, fork.segments])).lookupWithClaimant x =
        (buildLayers (layers ancestors file [dead.live])).lookupWithClaimant x

/-- The provenance of the chain's first fork, where it is left. -/
def firstLineage (dead : BoundFork) (chain : List KilledClaim) : ProvenanceLineage :=
  let provisional := dead.objects.provisional dead.vol dead.latestSnapshot
  if chain.head?.all fun k => decide (dead.reOwn.length ≤ k.steps) then
    dead.objects.finalLineage dead.vol provisional
  else provisional

/-- Each live segment is pinned by the chain's first provenance, or is in the tail and no claim was
killed before its HEAD. -/
def HoldsTail (dead : BoundFork) (chain : List KilledClaim) : Prop :=
  ∀ u ∈ dead.live, dead.PinnedIn (dead.firstLineage chain).parent u ∨
    u ∉ dead.objects.manifestSegments ∧ ∀ k ∈ chain, 0 < k.steps

/-! ### Segments and blocks -/

section Reads

variable {dead fork : BoundFork} {file : Ulid → SegmentFile}

theorem mem_pinnedSegments {u : Ulid} :
    u ∈ dead.pinnedSegments fork ↔ dead.PinnedIn fork.objects.provenance.parent u := by
  rw [pinnedSegments, PinnedIn]
  cases fork.objects.provenance.parent with
  | none => simp
  | some p => by_cases hp : p.volumeUlid = dead.vol <;> simp [hp]

theorem mem_layers {ancestors : List (List SegmentFile)} {own : List (Finset Ulid)}
    {seg : SegmentFile} : (∃ l ∈ layers ancestors file own, seg ∈ l) ↔
      (∃ l ∈ ancestors, seg ∈ l) ∨ ∃ segments ∈ own, ∃ u ∈ segments, file u = seg := by
  simp [layers, or_and_right, exists_or]

theorem fits_layers {ancestors : List (List SegmentFile)}
    (hancestors : ∀ layer ∈ ancestors, ∀ seg ∈ layer, ∀ e ∈ seg.entries, LbaMap.EntryFits e)
    (hfile : ∀ u, ∀ e ∈ (file u).entries, LbaMap.EntryFits e) (own : List (Finset Ulid)) :
    ∀ l ∈ layers ancestors file own, ∀ seg ∈ l, ∀ e ∈ seg.entries, LbaMap.EntryFits e := by
  intro l hl seg hseg
  rcases mem_layers.mp ⟨l, hl, hseg⟩ with ⟨l, hl, hseg⟩ | ⟨_, -, u, -, rfl⟩
  · exact hancestors l hl seg hseg
  · exact hfile u

theorem Contains.readsAs (h : dead.Contains fork) : dead.ReadsAs fork := by
  intro ancestors file hancestors hfile x seg hseg hprevails
  obtain ⟨hmem, hx⟩ := mem_of_holder hseg
  have hkept : ∃ l ∈ layers ancestors file [dead.pinnedSegments fork, fork.segments], seg ∈ l := by
    refine mem_layers.mpr ((mem_layers.mp hmem).imp_right ?_)
    rintro ⟨_, hlive, u, hu, rfl⟩
    rw [List.mem_singleton.mp hlive] at hu
    rcases h u hu with hown | hpin
    · exact ⟨_, by simp, u, hown, rfl⟩
    · exact ⟨_, List.mem_cons_self, u, mem_pinnedSegments.mpr hpin, rfl⟩
  rw [lookup_buildLayers (fits_layers hancestors hfile _),
    lookup_buildLayers (fits_layers hancestors hfile _), hseg,
    holder_of_prevails hprevails hkept hx]

/-- A segment with one block among empty ones. -/
def only (u v : Ulid) : SegmentFile := ⟨v, [], if v = u then [.newDedupRef 1 0 1] else []⟩

theorem isSome_claim_only {u v : Ulid} : ((only u v).claim 0).isSome = true ↔ v = u := by
  by_cases hv : v = u
  · simp only [only, if_pos hv, iff_true_right hv]
    rfl
  · simp [only, hv, SegmentFile.claim, lastClaim]

/-- A segment that is missing may have been the only one with a block. -/
theorem ReadsAs.contains (h : dead.ReadsAs fork) : dead.Contains fork := by
  intro u hu
  have hfits : ∀ v, ∀ e ∈ (only u v).entries, LbaMap.EntryFits e := by
    intro v
    by_cases hv : v = u
    · simp only [only, if_pos hv]
      decide
    · simp [only, hv]
  have hnone : ∀ l ∈ ([] : List (List SegmentFile)), ∀ seg ∈ l, ∀ e ∈ seg.entries,
      LbaMap.EntryFits e := by simp
  have halone : ∀ own, Prevails (layers [] (only u) own) (only u u) 0 := by
    refine fun own => prevails_of_alone fun l hl a ha hx => ?_
    rcases mem_layers.mp ⟨l, hl, ha⟩ with ⟨l, hl, -⟩ | ⟨_, -, v, -, rfl⟩
    · cases hl
    · rw [isSome_claim_only.mp hx]
  have hheld := holder_of_prevails (halone [dead.live])
    (mem_layers.mpr (.inr ⟨_, List.mem_singleton_self _, u, hu, rfl⟩)) (isSome_claim_only.mpr rfl)
  have hsame := h [] (only u) hnone hfits 0 _ hheld (halone _)
  rw [lookup_buildLayers (fits_layers hnone hfits _), lookup_buildLayers (fits_layers hnone hfits _),
    hheld, Option.bind_some] at hsame
  -- so somebody holds the block in the fork, and it can only be `u`
  obtain ⟨seg, hseg, -⟩ := Option.bind_eq_some_iff.mp
    (hsame.trans (Option.eq_some_of_isSome (isSome_claim_only.mpr rfl)))
  obtain ⟨hmem, hx⟩ := mem_of_holder hseg
  rcases mem_layers.mp hmem with ⟨l, hl, -⟩ | ⟨segments, hsegs, v, hv, rfl⟩
  · cases hl
  · rw [isSome_claim_only.mp hx] at hv
    simp only [List.mem_cons, List.not_mem_nil, or_false] at hsegs
    rcases hsegs with rfl | rfl
    · exact .inr (mem_pinnedSegments.mp hv)
    · exact .inl hv

theorem readsAs_iff : dead.ReadsAs fork ↔ dead.Contains fork :=
  ⟨ReadsAs.contains, Contains.readsAs⟩

end Reads

/-! ### One claim -/

section ForceClaim

variable {source fork : BoundFork} {steps : List ReOwnStep}

theorem mem_segments_foldl {u : Ulid} : u ∈ (steps.foldl source.step fork).segments ↔
      u ∈ fork.segments ∨ .copySegment u ∈ steps := by
  induction steps generalizing fork with
  | nil => simp
  | cons a steps ih =>
    rw [List.foldl_cons, ih]
    cases a with
    | putHead => simp [step]
    | copySegment v => simp [step, or_assoc, or_left_comm]
    | putProvenance => simp [step]

theorem head_foldl : (steps.foldl source.step fork).objects.head =
      if .putHead ∈ steps then some source.objects.intent else fork.objects.head := by
  induction steps generalizing fork with
  | nil => simp
  | cons a steps ih =>
    rw [List.foldl_cons, ih]
    cases a with
    | putHead | copySegment | putProvenance => simp [step]

/-- The provenance does not depend on how often its end is put. -/
theorem provenance_foldl : (steps.foldl source.step fork).objects.provenance =
      if .putProvenance ∈ steps then source.objects.finalLineage source.vol fork.objects.provenance
      else fork.objects.provenance := by
  induction steps generalizing fork with
  | nil => simp
  | cons a steps ih =>
    rw [List.foldl_cons, ih]
    cases a with
    | putHead => simp [step]
    | copySegment v => simp [step]
    | putProvenance => simp [step, finalLineage_finalLineage]

/-- A claim takes no snapshot. -/
theorem snapshots_foldl : (steps.foldl source.step fork).latestSnapshot = fork.latestSnapshot ∧
      (steps.foldl source.step fork).objects.latest = fork.objects.latest ∧
      (steps.foldl source.step fork).objects.manifests = fork.objects.manifests ∧
      (steps.foldl source.step fork).objects.stopManifests = fork.objects.stopManifests := by
  induction steps generalizing fork with
  | nil => exact ⟨rfl, rfl, rfl, rfl⟩
  | cons a steps ih =>
    cases a <;> exact ih

theorem copySegment_mem_reOwn {u : Ulid} :
    .copySegment u ∈ source.reOwn ↔ u ∈ source.objects.headDelta := by
  rw [reOwn]
  split_ifs with h
  · simp [h]
  · simp

theorem putProvenance_mem_reOwn : .putProvenance ∈ source.reOwn := by
  exact List.mem_append_right _ (List.mem_singleton_self _)

theorem putHead_mem_take {k : ℕ} :
    .putHead ∈ source.reOwn.take k ↔ source.objects.headDelta ≠ ∅ ∧ 0 < k := by
  rw [reOwn]
  cases k with
  | zero => simp
  | succ k =>
    split_ifs with h
    · simp [h]
    · simp [h]

/-- The provenance is the last to be put. -/
theorem putProvenance_mem_take {k : ℕ} :
    .putProvenance ∈ source.reOwn.take k ↔ source.reOwn.length ≤ k := by
  constructor
  · intro h
    by_contra hk
    rw [reOwn, List.length_append, List.length_singleton] at hk
    rw [reOwn, List.take_append_of_le_length (by omega)] at h
    have hmem := List.mem_of_mem_take h
    split_ifs at hmem <;> simp at hmem
  · intro hk
    rw [List.take_of_length_le hk]
    exact putProvenance_mem_reOwn

end ForceClaim

/-! ### Partial forks -/

/-- A fork without snapshots, whose HEAD has these segments. -/
structure Partial (fork : BoundFork) (added : Finset Ulid) (parent : Option ParentRef) : Prop where
  latestSnapshot : fork.latestSnapshot = none
  latest : fork.objects.latest = none
  manifests : fork.objects.manifests = .empty
  stopManifests : fork.objects.stopManifests = .empty
  head : fork.objects.head = none ∧ added = ∅ ∨
    ∃ anchor, fork.objects.head = some { empty anchor with added := added }
  parent : fork.objects.provenance.parent = parent

theorem parent_fromParts (parent : Option ParentRef) (extents : List Text) (source : Ulid) :
    (ProvenanceLineage.fromParts parent extents [source]).parent = parent := rfl

namespace Partial

variable {fork : BoundFork} {added : Finset Ulid} {parent : Option ParentRef}

section

variable (h : fork.Partial added parent)
include h

theorem manifestSegments : fork.objects.manifestSegments = ∅ := by
  rw [ForkObjects.manifestSegments, h.latest]
  rfl

/-- There is no manifest for HEAD's anchor. -/
theorem frontierSegments : fork.objects.frontierSegments = ∅ := by
  rw [ForkObjects.frontierSegments, h.manifestSegments]
  split
  · simp [ForkObjects.fetchManifestAnyKind, h.manifests, h.stopManifests]
  · rfl

theorem sourceHead : ∃ anchor, fork.objects.sourceHead = { empty anchor with added := added } := by
  rw [ForkObjects.sourceHead]
  rcases h.head with ⟨hnone, rfl⟩ | ⟨anchor, hsome⟩
  · rw [hnone]
    exact ⟨_, rfl⟩
  · rw [hsome]
    exact ⟨anchor, rfl⟩

/-- What a claim of a partial fork copies is what the fork's HEAD has. -/
theorem headDelta : fork.objects.headDelta = added := by
  obtain ⟨anchor, hhead⟩ := h.sourceHead
  ext u
  rw [ForkObjects.headDelta, mem_filter, mem_liveSet, h.frontierSegments, hhead,
    h.manifestSegments]
  simp [empty]

end

end Partial

/-- What a killed claim leaves. -/
theorem partial_killed (source : BoundFork) (k : KilledClaim) :
    (source.killed k).Partial (if 0 < k.steps then source.objects.headDelta else ∅)
      (source.firstLineage [k]).parent := by
  obtain ⟨hsnap, hlatest, hman, hstop⟩ :=
    @snapshots_foldl source (source.rebound k.vol k.pubkey) (source.reOwn.take k.steps)
  refine ⟨hsnap, hlatest, hman, hstop, ?_, ?_⟩
  · rw [killed, forceClaim, head_foldl]
    by_cases hk : 0 < k.steps
    · by_cases hdelta : source.objects.headDelta = ∅
      · rw [if_neg fun h => (putHead_mem_take.mp h).1 hdelta, if_pos hk]
        exact .inl ⟨rfl, hdelta⟩
      · rw [if_pos (putHead_mem_take.mpr ⟨hdelta, hk⟩), if_pos hk]
        exact .inr ⟨_, rfl⟩
    · rw [if_neg fun h => hk (putHead_mem_take.mp h).2, if_neg hk]
      exact .inl ⟨rfl, rfl⟩
  · rw [killed, forceClaim, provenance_foldl, firstLineage]
    simp only [putProvenance_mem_take, List.head?_cons, Option.all_some, decide_eq_true_eq]
    rfl

/-- A claim of a partial fork is pinned as that is, finished or not. -/
theorem Partial.firstLineage {fork : BoundFork} {added : Finset Ulid} {parent : Option ParentRef}
    (h : fork.Partial added parent) (chain : List KilledClaim) :
    (fork.firstLineage chain).parent = parent := by
  have hprov : (fork.objects.provisional fork.vol fork.latestSnapshot).parent = parent := by
    rw [h.latestSnapshot, ← h.parent]
    exact parent_fromParts _ _ _
  rw [BoundFork.firstLineage]
  split_ifs
  · rw [finalLineage, h.latest]
    exact (parent_withoutGrant _).trans hprov
  · exact hprov

theorem Partial.foldl_killed {fork : BoundFork} {added : Finset Ulid} {parent : Option ParentRef}
    (h : fork.Partial added parent) (chain : List KilledClaim) :
    (chain.foldl killed fork).Partial (if ∀ k ∈ chain, 0 < k.steps then added else ∅) parent := by
  induction chain generalizing fork added with
  | nil => simpa using h
  | cons k chain ih =>
    have hk := fork.partial_killed k
    rw [h.headDelta, h.firstLineage] at hk
    have hrest := ih hk
    by_cases hpos : 0 < k.steps
    · simpa [hpos] using hrest
    · simpa [hpos] using hrest

/-! ### Whole chains -/

theorem mem_segments_completed {source : BoundFork} {vol u : Ulid} {pubkey : Vector UInt8 32} :
    u ∈ (source.completed vol pubkey).segments ↔ u ∈ source.objects.headDelta := by
  rw [completed, forceClaim, mem_segments_foldl, copySegment_mem_reOwn]
  exact or_iff_right (notMem_empty u)

theorem parent_completed (source : BoundFork) (vol : Ulid) (pubkey : Vector UInt8 32) :
    (source.completed vol pubkey).objects.provenance = source.firstLineage [] := by
  rw [completed, forceClaim, provenance_foldl, if_pos putProvenance_mem_reOwn]
  rfl

/-- The chain copies the dead fork's tail if every claim of it came to write its HEAD. -/
theorem mem_segments_recovered {dead : BoundFork} {chain : List KilledClaim} {vol u : Ulid}
    {pubkey : Vector UInt8 32} :
    u ∈ (dead.recovered chain vol pubkey).segments ↔
      u ∈ dead.objects.headDelta ∧ ∀ k ∈ chain, 0 < k.steps := by
  rw [recovered, mem_segments_completed]
  cases chain with
  | nil => simp
  | cons k chain =>
    rw [List.foldl_cons, ((dead.partial_killed k).foldl_killed chain).headDelta]
    by_cases hk : 0 < k.steps
    · by_cases hall : ∀ j ∈ chain, 0 < j.steps
      · simpa [hk, if_pos hall] using fun _ => hall
      · simp [hall]
    · simp [hk]

theorem parent_recovered (dead : BoundFork) (chain : List KilledClaim) (vol : Ulid)
    (pubkey : Vector UInt8 32) :
    (dead.recovered chain vol pubkey).objects.provenance.parent =
      (dead.firstLineage chain).parent := by
  rw [recovered, parent_completed]
  cases chain with
  | nil => rfl
  | cons k chain => exact ((dead.partial_killed k).foldl_killed chain).firstLineage []

/-- **A chain of forced claims keeps the dead fork's live set exactly if it holds the tail.** For any
dead fork and record, and any chain of claims killed after any number of steps: the fork of the claim
that completes has every live segment of the dead fork, copied or in the snapshot it is pinned to, if
and only if each of them is in the snapshot that the first claim's provenance pins, or is beyond the
dead fork's last snapshot while no claim was killed before its HEAD. Under the same condition, and no
other, every block reads as in the dead fork's last cut, whatever is in the segments. -/
theorem contains_iff (dead : BoundFork) (chain : List KilledClaim) (vol : Ulid)
    (pubkey : Vector UInt8 32) :
    (dead.Contains (dead.recovered chain vol pubkey) ↔ dead.HoldsTail chain) ∧
      (dead.ReadsAs (dead.recovered chain vol pubkey) ↔ dead.HoldsTail chain) := by
  have hcontains : dead.Contains (dead.recovered chain vol pubkey) ↔ dead.HoldsTail chain := by
    refine forall₂_congr fun u hu => ?_
    have hdelta : u ∈ dead.objects.headDelta ↔ u ∉ dead.objects.manifestSegments := by
      rw [ForkObjects.headDelta, mem_filter, decide_eq_true_eq]
      exact and_iff_right hu
    rw [mem_segments_recovered, parent_recovered, hdelta, or_comm]
  exact ⟨hcontains, readsAs_iff.trans hcontains⟩

/-- The dead fork's ancestors are kept in any case: the new fork is pinned to the dead fork, or to what
that was pinned to. -/
theorem inherits (dead : BoundFork) (chain : List KilledClaim) (vol : Ulid)
    (pubkey : Vector UInt8 32) :
    (∃ p, (dead.recovered chain vol pubkey).objects.provenance.parent = some p ∧
        p.volumeUlid = dead.vol) ∨
      (dead.recovered chain vol pubkey).objects.provenance.parent =
        dead.objects.provenance.parent := by
  rw [parent_recovered]
  have hprov : (∃ p, (dead.objects.provisional dead.vol dead.latestSnapshot).parent = some p ∧
        p.volumeUlid = dead.vol) ∨
      (dead.objects.provisional dead.vol dead.latestSnapshot).parent =
        dead.objects.provenance.parent := by
    cases dead.latestSnapshot with
    | some snap => exact .inl ⟨_, rfl, rfl⟩
    | none => exact .inr (parent_fromParts _ _ _)
  rw [firstLineage]
  split_ifs
  · rw [finalLineage]
    split
    · split_ifs
      · rw [parent_withoutGrant]
        exact hprov
      · exact .inl ⟨_, rfl, rfl⟩
    · rw [parent_withoutGrant]
      exact hprov
  · exact hprov

namespace NoHead

/-- A fork that has been written to and never snapshotted. -/
def dead : BoundFork where
  vol := 1
  latestSnapshot := none
  objects :=
    { pubkey := Vector.replicate 32 0
      provenance := .root [] none
      latest := none
      manifests := .empty
      stopManifests := .empty
      head := some { empty none with added := {7} } }
  segments := {7}

/-- A claim that is killed right after its rebind. -/
def early : KilledClaim := ⟨2, Vector.replicate 32 0, 0⟩

end NoHead

open NoHead in
/-- **The tail of a dead fork is lost.** Segment 7 is live in the fork. A claim is killed before its
HEAD, and the next takes its fork for an empty volume: it completes with no segment and no parent,
and does not read as the dead fork. -/
theorem tail_lost :
    7 ∈ dead.live ∧ (dead.recovered [early] 3 (replicate 32 0)).segments = ∅ ∧
      (dead.recovered [early] 3 (replicate 32 0)).objects.provenance.parent = none ∧
      ¬ dead.Contains (dead.recovered [early] 3 (replicate 32 0)) ∧
      ¬ dead.ReadsAs (dead.recovered [early] 3 (replicate 32 0)) := by
  have hlive : 7 ∈ dead.live := by decide
  have hsegments : (dead.recovered [early] 3 (replicate 32 0)).segments = ∅ := by
    refine eq_empty_of_forall_notMem fun u hu => ?_
    exact absurd ((mem_segments_recovered.mp hu).2 early (List.mem_singleton_self _)) (by decide)
  have hparent : (dead.recovered [early] 3 (replicate 32 0)).objects.provenance.parent = none := by
    rw [parent_recovered]
    rfl
  have hlost : ¬ dead.Contains (dead.recovered [early] 3 (replicate 32 0)) := by
    intro h
    rcases h 7 hlive with hmem | ⟨p, hp, -⟩
    · rw [hsegments] at hmem
      cases hmem
    · rw [hparent] at hp
      cases hp
  exact ⟨hlive, hsegments, hparent, hlost, mt readsAs_iff.mp hlost⟩

end BoundFork

end Elide
