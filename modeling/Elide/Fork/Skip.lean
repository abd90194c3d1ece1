import Elide.Fork.Sessions

/-!
# Skipping empty forks

A claimant pins its fork to a snapshot of the released volume. Where the released fork wrote nothing
of its own, the pin is moved to the parent, and so on up the chain. Whether a fork wrote anything is
not recorded. The code compares the last segment of the fork's manifest with the snapshot the fork was
taken from: if it is below, every segment is taken to be inherited.

A manifest lists the fork's own segments only, so a fork with any segment at all has written. Its
ULIDs come from its host's mint, which starts from the fork's own files and so from zero, while the
snapshot's comes from another host. Where the fork's clock is behind, a fork with segments is skipped.

## Main results

* `ReleasedFork.skip_sound_iff`: what a skip returns reads as the released volume, and no fork with a
  claim of its own is skipped, exactly when each fork the skip comes to has a segment at or beyond the
  snapshot of its parent, or no claim.
* `ReleasedFork.mintedPast_of_clock`: which is so on clocks that are past the snapshots.
* `ReleasedFork.skips_written_fork`: a fork that is skipped with its write.
-/

namespace Elide

open List LbaMapBuilder

/-- The segments of the manifest among those minted. A mint that is `none` went into a segment that
has been compacted away, or into a WAL. -/
def UlidMint.segments (clock : ℕ → Ulid) :
    UlidMint → List (Option (List Ulid × List SegmentEntry)) → List SegmentFile
  | _, [] => []
  | mint, none :: mints => segments clock (mint.next clock).2 mints
  | mint, some (inputs, entries) :: mints =>
    ⟨(mint.next clock).1, inputs, entries⟩ :: segments clock (mint.next clock).2 mints

/-- A fork of the chain, up to the snapshot that it was released at or that its child was taken
from. -/
structure ReleasedFork where
  vol : Ulid
  /-- The clock of its host. -/
  clock : ℕ → Ulid
  /-- Its mints since it was created. -/
  mints : List (Option (List Ulid × List SegmentEntry))
  fits : ∀ m ∈ mints, ∀ c ∈ m, ∀ e ∈ c.2, LbaMap.EntryFits e
  /-- The highest ULID of `index/`, where the segments of the manifest are among others; a fresh one
  if there is none. -/
  snapshot : Ulid
  le_snapshot : ∀ seg ∈ UlidMint.segments clock ⟨0, 0⟩ mints, seg.ulid ≤ snapshot
  /-- What reading its provenance and fetching and verifying its manifest gives. -/
  read : Except String Unit

namespace ReleasedFork

/-- The segments its manifest lists, in order. The mint of a new fork starts from zero, and an open
seeds it with the last of them. -/
def segments (f : ReleasedFork) : List SegmentFile := UlidMint.segments f.clock ⟨0, 0⟩ f.mints

/-- `max(segment_ulids) < parent_snap`. -/
def isEmpty (f : ReleasedFork) (parentSnap : Ulid) : Bool :=
  f.segments.getLast?.all fun seg => decide (seg.ulid < parentSnap)

/-- The fork to pin to, with the ancestors of it. The source returns its volume and snapshot. -/
def skipEmptyIntermediates (f : ReleasedFork) :
    List ReleasedFork → Except String (ReleasedFork × List ReleasedFork)
  | [] => do
    f.read
    return (f, [])
  | parent :: ancestors => do
    f.read
    if f.isEmpty parent.snapshot then parent.skipEmptyIntermediates ancestors
    else return (f, parent :: ancestors)

/-- The layer of a fork, cut at its snapshot. -/
def layer (f : ReleasedFork) : List SegmentFile :=
  f.segments.filter fun seg => decide (seg.ulid ≤ f.snapshot)

/-- The map rebuilt through the layers of a fork, oldest first. -/
def rebuilt (f : ReleasedFork) (ancestors : List ReleasedFork) : LbaMap :=
  buildLayers ((f :: ancestors).reverse.map layer)

/-- The manifest lists a segment that has a claim. -/
def CarriesClaim (f : ReleasedFork) : Prop :=
  ∃ seg ∈ f.segments, ∃ x, (seg.claim x).isSome = true

/-- Every fork the skip comes to has a segment at or beyond the snapshot it was taken from, or no
claim. -/
def MintedPast (f : ReleasedFork) : List ReleasedFork → Prop
  | [] => True
  | parent :: ancestors => (∃ seg ∈ f.segments, parent.snapshot ≤ seg.ulid) ∨
      (¬ f.CarriesClaim ∧ parent.MintedPast ancestors)

end ReleasedFork

/-! ### What is minted -/

/-- The mint goes up. -/
theorem UlidMint.segments_spec (clock : ℕ → Ulid) (mint : UlidMint)
    (mints : List (Option (List Ulid × List SegmentEntry))) :
    (∀ seg ∈ mint.segments clock mints, mint.last < seg.ulid) ∧
      (mint.segments clock mints).Pairwise fun a b => a.ulid < b.ulid := by
  induction mints generalizing mint with
  | nil => exact ⟨by simp [segments], List.Pairwise.nil⟩
  | cons m mints ih =>
    obtain ⟨hlt, hlast⟩ := mint.lt_next clock
    obtain ⟨habove, hpair⟩ := ih (mint.next clock).2
    cases m with
    | none => exact ⟨fun seg hseg => hlt.trans (habove seg hseg), hpair⟩
    | some c =>
      refine ⟨fun seg hseg => ?_, pairwise_cons.mpr ⟨habove, hpair⟩⟩
      rcases mem_cons.mp hseg with rfl | hseg
      · exact hlt
      · exact hlt.trans (habove seg hseg)

theorem UlidMint.fits_segments {clock : ℕ → Ulid} {mint : UlidMint}
    {mints : List (Option (List Ulid × List SegmentEntry))}
    (h : ∀ m ∈ mints, ∀ c ∈ m, ∀ e ∈ c.2, LbaMap.EntryFits e) :
    ∀ seg ∈ mint.segments clock mints, ∀ e ∈ seg.entries, LbaMap.EntryFits e := by
  induction mints generalizing mint with
  | nil => simp [segments]
  | cons m mints ih =>
    have hrest := @ih (mint.next clock).2 fun m' hm' => h m' (mem_cons_of_mem _ hm')
    cases m with
    | none => exact hrest
    | some c =>
      intro seg hseg
      rcases mem_cons.mp hseg with rfl | hseg
      · exact h _ mem_cons_self c rfl
      · exact hrest seg hseg

/-- A mint is never below what the clock answers. -/
theorem UlidMint.le_segments {clock : ℕ → Ulid} {bound : Ulid} (h : ∀ t, bound ≤ clock t)
    (mint : UlidMint) (mints : List (Option (List Ulid × List SegmentEntry))) :
    ∀ seg ∈ mint.segments clock mints, bound ≤ seg.ulid := by
  induction mints generalizing mint with
  | nil => simp [segments]
  | cons m mints ih =>
    cases m with
    | none => exact ih _
    | some c =>
      intro seg hseg
      rcases mem_cons.mp hseg with rfl | hseg
      · refine (h mint.ticks).trans ?_
        simp only [next]
        split_ifs with hlt
        · exact le_rfl
        · exact (not_lt.mp hlt).trans (Nat.le_succ _)
      · exact ih _ seg hseg

namespace ReleasedFork

variable {f : ReleasedFork}

theorem pairwise_segments (f : ReleasedFork) : f.segments.Pairwise fun a b => a.ulid < b.ulid :=
  (UlidMint.segments_spec f.clock ⟨0, 0⟩ f.mints).2

/-- The last segment is the highest. -/
theorem le_getLast {last : SegmentFile} (hlast : f.segments.getLast? = some last)
    {seg : SegmentFile} (hseg : seg ∈ f.segments) : seg.ulid ≤ last.ulid := by
  obtain ⟨init, hinit⟩ := getLast?_eq_some_iff.mp hlast
  have hpair := f.pairwise_segments
  rw [hinit] at hseg hpair
  rcases mem_append.mp hseg with hseg | hseg
  · exact ((pairwise_append.mp hpair).2.2 seg hseg last (mem_singleton_self _)).le
  · rw [mem_singleton.mp hseg]

theorem isEmpty_iff {parentSnap : Ulid} :
    f.isEmpty parentSnap = true ↔ ∀ seg ∈ f.segments, seg.ulid < parentSnap := by
  rw [isEmpty]
  cases hlast : f.segments.getLast? with
  | none => simp [getLast?_eq_none_iff.mp hlast]
  | some last =>
    rw [Option.all_some, decide_eq_true_eq]
    exact ⟨fun h seg hseg => (le_getLast hlast hseg).trans_lt h,
      fun h => h last (mem_of_getLast? hlast)⟩

/-- The cut at the snapshot leaves out nothing of the manifest. -/
theorem layer_eq (f : ReleasedFork) : f.layer = f.segments := by
  rw [layer, filter_eq_self]
  exact fun seg hseg => decide_eq_true (f.le_snapshot seg hseg)

end ReleasedFork

/-! ### What is skipped -/

namespace ReleasedFork

theorem fits_layers (forks : List ReleasedFork) :
    ∀ l ∈ forks.map layer, ∀ seg ∈ l, ∀ e ∈ seg.entries, LbaMap.EntryFits e := by
  intro l hl
  obtain ⟨f, -, rfl⟩ := mem_map.mp hl
  rw [layer_eq]
  exact UlidMint.fits_segments f.fits

/-- A fork without a claim reads as its parent. -/
theorem lookup_rebuilt_of_not_carries {f : ReleasedFork} (h : ¬ f.CarriesClaim)
    (parent : ReleasedFork) (ancestors : List ReleasedFork) (x : ℕ) :
    (f.rebuilt (parent :: ancestors)).lookupWithClaimant x =
      (parent.rebuilt ancestors).lookupWithClaimant x := by
  have hnone : ∀ seg ∈ f.layer, seg.claim x = none := by
    intro seg hseg
    rw [layer_eq] at hseg
    rw [← Option.not_isSome_iff_eq_none]
    exact fun hx => h ⟨seg, hseg, x, hx⟩
  rw [rebuilt, rebuilt, lookup_buildLayers (fits_layers _), lookup_buildLayers (fits_layers _),
    reverse_cons, map_append, map_singleton, holder_append_of_none hnone]

/-- The skip goes up the chain. -/
theorem exists_skipped {f g : ReleasedFork} {ancestors rest : List ReleasedFork}
    (h : f.skipEmptyIntermediates ancestors = .ok (g, rest)) :
    (f = g ∧ ancestors = rest ∧ ∀ parent ∈ ancestors.head?, f.isEmpty parent.snapshot = false) ∨
      ∃ parent ancestors', ancestors = parent :: ancestors' ∧ f.isEmpty parent.snapshot = true ∧
        parent.skipEmptyIntermediates ancestors' = .ok (g, rest) := by
  cases ancestors with
  | nil =>
    obtain ⟨u, hread, h⟩ := Run.exists_of_bind_ok h
    cases h
    exact .inl ⟨rfl, rfl, by simp⟩
  | cons parent ancestors =>
    obtain ⟨u, hread, h⟩ := Run.exists_of_bind_ok h
    cases hempty : f.isEmpty parent.snapshot with
    | true =>
      refine .inr ⟨parent, ancestors, rfl, hempty, ?_⟩
      rw [← h, hempty]
      rfl
    | false =>
      rw [hempty] at h
      cases h
      refine .inl ⟨rfl, rfl, fun p hp => ?_⟩
      obtain rfl := Option.some.inj hp
      exact hempty

/-- What the skip returns is a tail of the chain. -/
theorem exists_split {f g : ReleasedFork} {ancestors rest : List ReleasedFork}
    (h : f.skipEmptyIntermediates ancestors = .ok (g, rest)) :
    ∃ skipped, f :: ancestors = skipped ++ g :: rest := by
  induction ancestors generalizing f with
  | nil =>
    rcases exists_skipped h with ⟨rfl, rfl, -⟩ | ⟨_, _, ⟨⟩, -⟩
    exact ⟨[], rfl⟩
  | cons parent ancestors ih =>
    rcases exists_skipped h with ⟨rfl, rfl, -⟩ | ⟨p, ps, heq, -, hrest⟩
    · exact ⟨[], rfl⟩
    · obtain ⟨rfl, rfl⟩ := cons.inj heq
      obtain ⟨skipped, hs⟩ := ih hrest
      exact ⟨f :: skipped, by rw [hs]; rfl⟩

/-- **A skip is sound exactly when the forks it comes to were minted past their parents' snapshots.**
For every chain of released forks, on any clocks: the map rebuilt through what the skip returns is the
one of the released volume, and no skipped fork has a claim, if and only if each fork the skip comes
to has a segment at or beyond the snapshot of its parent, or no claim. -/
theorem skip_sound_iff {f g : ReleasedFork} {ancestors rest : List ReleasedFork}
    (h : f.skipEmptyIntermediates ancestors = .ok (g, rest)) :
    ((∀ x, (g.rebuilt rest).lookupWithClaimant x = (f.rebuilt ancestors).lookupWithClaimant x) ∧
      ∀ skipped, f :: ancestors = skipped ++ g :: rest → ∀ k ∈ skipped, ¬ k.CarriesClaim) ↔
    f.MintedPast ancestors := by
  induction ancestors generalizing f with
  | nil =>
    rcases exists_skipped h with ⟨rfl, rfl, -⟩ | ⟨_, _, ⟨⟩, -⟩
    refine iff_of_true ⟨fun x => rfl, fun skipped hs k hk => ?_⟩ trivial
    cases skipped with
    | nil => cases hk
    | cons a l => simp at hs
  | cons parent ancestors ih =>
    rcases exists_skipped h with ⟨rfl, rfl, hstop⟩ | ⟨p, ps, heq, hempty, hrest⟩
    · -- the skip stops here
      have hpast : ∃ seg ∈ f.segments, parent.snapshot ≤ seg.ulid := by
        have hne : ¬ ∀ seg ∈ f.segments, seg.ulid < parent.snapshot := by
          rw [← isEmpty_iff, hstop parent rfl]
          exact Bool.false_ne_true
        push Not at hne
        exact hne
      refine iff_of_true ⟨fun x => rfl, fun skipped hs k hk => ?_⟩ (.inl hpast)
      have hlen := congrArg length hs
      rw [length_append] at hlen
      have hnil : skipped = [] := length_eq_zero_iff.mp (by omega)
      rw [hnil] at hk
      cases hk
    · obtain ⟨rfl, rfl⟩ := cons.inj heq
      have hnot : ¬ ∃ seg ∈ f.segments, parent.snapshot ≤ seg.ulid := by
        rintro ⟨seg, hseg, hle⟩
        exact absurd (isEmpty_iff.mp hempty seg hseg) (not_lt.mpr hle)
      rw [MintedPast, or_iff_right hnot, ← ih hrest]
      constructor
      · rintro ⟨hlook, hskipped⟩
        obtain ⟨l, hl⟩ := exists_split hrest
        have hf : ¬ f.CarriesClaim := hskipped (f :: l) (by rw [hl]; rfl) f mem_cons_self
        refine ⟨hf, fun x => (hlook x).trans (lookup_rebuilt_of_not_carries hf _ _ x),
          fun skipped hs k hk => ?_⟩
        exact hskipped (f :: skipped) (by rw [hs]; rfl) k (mem_cons_of_mem _ hk)
      · rintro ⟨hf, hlook, hskipped⟩
        refine ⟨fun x => (hlook x).trans (lookup_rebuilt_of_not_carries hf _ _ x).symm,
          fun skipped hs k hk => ?_⟩
        cases skipped with
        | nil => cases hk
        | cons a l =>
          obtain ⟨rfl, hl⟩ := cons.inj hs
          rcases mem_cons.mp hk with rfl | hk
          · exact hf
          · exact hskipped l hl k hk

end ReleasedFork

namespace ReleasedFork

/-- On clocks that are past the snapshot of the parent, the skip is sound. -/
theorem mintedPast_of_clock {f : ReleasedFork} {ancestors : List ReleasedFork}
    (h : (f :: ancestors).IsChain fun f parent => ∀ t, parent.snapshot ≤ f.clock t) :
    f.MintedPast ancestors := by
  induction ancestors generalizing f with
  | nil => trivial
  | cons parent ancestors ih =>
    obtain ⟨hclock, hrest⟩ := isChain_cons_cons.mp h
    cases hsegs : f.segments with
    | nil =>
      refine .inr ⟨?_, ih hrest⟩
      rintro ⟨seg, hseg, -⟩
      rw [hsegs] at hseg
      cases hseg
    | cons seg segs =>
      have hmem : seg ∈ f.segments := by
        rw [hsegs]
        exact mem_cons_self
      exact .inl ⟨seg, hmem, UlidMint.le_segments hclock _ _ seg hmem⟩

namespace BehindParent

/-- One block of a hash. -/
def entry (hash : Hash) (lba : ℕ) : SegmentEntry where
  hash := hash
  startLba := lba
  lbaLength := 1
  kind := .data

/-- A root with block 0, released at snapshot 100. -/
def parent : ReleasedFork where
  vol := 1
  clock _ := 100
  mints := [some ([], [entry 1 0])]
  fits := by decide
  snapshot := 100
  le_snapshot := by decide
  read := .ok ()

/-- Its fork on a host whose clock is behind, with block 1. -/
def child : ReleasedFork where
  vol := 2
  clock _ := 5
  mints := [some ([], [entry 2 1])]
  fits := by decide
  snapshot := 5
  le_snapshot := by decide
  read := .ok ()

/-- A fork that has written nothing. -/
def unwritten : ReleasedFork where
  vol := 3
  clock _ := 5
  mints := []
  fits := by decide
  snapshot := 200
  le_snapshot := by decide
  read := .ok ()

theorem layer_parent : parent.layer = [⟨100, [], [entry 1 0]⟩] := by
  rfl

theorem layer_child : child.layer = [⟨5, [], [entry 2 1]⟩] := by
  rfl

end BehindParent

open BehindParent in
/-- The theorem where an empty fork is skipped: its parent reads the same. -/
theorem skips_unwritten_fork : unwritten.skipEmptyIntermediates [parent] = .ok (parent, []) ∧
      ∀ x, (parent.rebuilt []).lookupWithClaimant x =
        (unwritten.rebuilt [parent]).lookupWithClaimant x := by
  have hskip : unwritten.skipEmptyIntermediates [parent] = .ok (parent, []) := rfl
  refine ⟨hskip, ((skip_sound_iff hskip).mpr (.inr ⟨?_, trivial⟩)).1⟩
  rintro ⟨seg, hseg, -⟩
  cases hseg

open BehindParent in
/-- **A fork is skipped with its write.** The fork's only segment has ULID 5, below the snapshot 100
of its parent, so the claimant is pinned to the parent, where block 1 has nothing. -/
theorem skips_written_fork :
    child.skipEmptyIntermediates [parent] = .ok (parent, []) ∧ child.CarriesClaim ∧
      (child.rebuilt [parent]).lookup 1 = some (2, 0) ∧ (parent.rebuilt []).lookup 1 = none := by
  refine ⟨rfl, ⟨_, mem_singleton_self _, 1, rfl⟩, ?_, ?_⟩
  · rw [LbaMap.lookup_eq_map, rebuilt, lookup_buildLayers (fits_layers _)]
    simp only [reverse_cons, reverse_nil, nil_append, cons_append, map_cons, map_nil, layer_parent,
      layer_child, holder, flatMap_cons, flatMap_nil]
    rw [order_of_flush (by decide), order_of_flush (by decide)]
    rfl
  · rw [LbaMap.lookup_eq_map, rebuilt, lookup_buildLayers (fits_layers _)]
    simp only [reverse_cons, reverse_nil, nil_append, map_cons, map_nil,
      layer_parent, holder, flatMap_cons, flatMap_nil]
    rw [order_of_flush (by decide)]
    rfl

end ReleasedFork

end Elide
