import Elide.LbaMap.Refinement
import Elide.MapLayers.Lookups
import Elide.Volume.Formation

/-!
# The epoch of the open WAL

What the write path leaves for a promote to take. Every claim of the `delta` layer is the WAL's and
stands on a pending write of its hash; every DATA location of the layer is in the WAL, of a hash
that no layer below holds; every journal body is keyed by the WAL. Writes and zeroes keep this from
the moment the WAL is opened (`Volume.Epoch.commits`).
-/

namespace Elide

open ExtentIndex Option Maps

/-- A location of the index is in segment `u`, or is keyed by it. -/
def ExtentIndex.Names (x : ExtentIndex) (u : Ulid) : Prop :=
  (∃ h loc, x.lookup h = some loc ∧ loc.segmentId = u) ∨
    (∃ s h loc, x.lookupJournal s h = some loc ∧ (s = u ∨ loc.segmentId = u)) ∨
    ∃ h d, x.lookupDelta h = some d ∧ d.segmentId = u

theorem Maps.not_names_of_isEmpty {m : Maps} (hm : m.isEmpty = true) (u : Ulid) :
    ¬ m.extentIndex.Names u := by
  obtain ⟨hdata, hdeltas, hjournal⟩ := lookups_of_isEmpty hm
  rintro (⟨h, loc, hloc, -⟩ | ⟨s, h, loc, hloc, -⟩ | ⟨h, d, hd, -⟩)
  · cases (hdata h).symm.trans hloc
  · cases (hjournal s h).symm.trans hloc
  · cases (hdeltas h).symm.trans hd

/-- A record of the open WAL. -/
inductive Commit where
  | write (lba lbaLength : ℕ) (hash : Hash) (codec : Codec) (storedLength bodyOffset : ℕ)
  | zero (startLba lbaCount : ℕ)
  deriving DecidableEq, Repr

/-- The range is not empty and no sum over it overflows. -/
def Commit.Fits : Commit → Prop
  | .write lba lbaLength .. => LbaMap.Fits lba lbaLength 0
  | .zero startLba lbaCount => LbaMap.Fits startLba lbaCount 0

instance (c : Commit) : Decidable c.Fits := by
  cases c <;> exact inferInstanceAs (Decidable (LbaMap.Fits _ _ _))

namespace Volume

/-- Commit a guest write or zero to the maps and the WAL. -/
def commit (v : Volume) : Commit → Volume
  | .write lba lbaLength hash codec storedLength bodyOffset =>
    v.writeCommit lba lbaLength hash codec storedLength bodyOffset
  | .zero startLba lbaCount => v.zeroCommit startLba lbaCount

/-- A whole epoch of commits. -/
def commits (v : Volume) (cs : List Commit) : Volume := cs.foldl commit v

/-- The open WAL holds no record yet, and its ULID is new to the layers. -/
structure Opened (v : Volume) : Prop where
  pending : v.pending = []
  delta : v.maps.delta = .empty
  base : v.maps.base.lbamap.Inv
  frozen : ∀ layer ∈ v.maps.frozen, layer.walUlid ≠ v.wal
  unnamed : ∀ m ∈ v.maps.all, ¬ m.extentIndex.Names v.wal

/-- What holds between the opening of the WAL and its promote. -/
structure Epoch (v : Volume) : Prop where
  base : v.maps.base.lbamap.Inv
  frozen : ∀ layer ∈ v.maps.frozen, layer.walUlid ≠ v.wal
  unnamed : ∀ m ∈ v.maps.below.all, ¬ m.extentIndex.Names v.wal
  inv : v.maps.delta.lbamap.Inv
  claims : ∀ x h off c, v.maps.delta.lbamap.lookupWithClaimant x = some (h, off, c) →
    c = v.wal ∧ ∃ w ∈ v.pending, w.entry.hash = h ∧ w.entry.Covers x
  owned : ∀ h loc, v.maps.delta.extentIndex.lookup h = some loc →
    loc.segmentId = v.wal ∧ v.maps.below.lookupExtent h = none
  journal : ∀ s h loc, v.maps.delta.extentIndex.lookupJournal s h = some loc →
    s = v.wal ∧ loc.segmentId = v.wal
  deltas : ∀ h, v.maps.delta.extentIndex.lookupDelta h = none
  plain : ∀ w ∈ v.pending, w.Plain

variable {v : Volume}

theorem Opened.epoch (hv : v.Opened) : v.Epoch where
  base := hv.base
  frozen := hv.frozen
  unnamed := by
    have hbelow : v.maps.below = v.maps := by rw [MapLayers.below, ← hv.delta]
    rw [hbelow]
    exact hv.unnamed
  inv := by
    rw [hv.delta]
    exact LbaMap.inv_new
  claims := by
    intro x h off c hx
    rw [hv.delta] at hx
    exact absurd hx (by simp [← LbaMap.value_tiles, empty, LbaMap.tiles_new])
  owned := by
    intro h loc hloc
    rw [hv.delta] at hloc
    exact absurd hloc (by simp [empty, new, lookup])
  journal := by
    intro s h loc hloc
    rw [hv.delta] at hloc
    exact absurd hloc (by simp [empty, new, lookupJournal])
  deltas := by
    intro h
    rw [hv.delta]
    rfl
  plain := by
    rw [hv.pending]
    simp

/-- A new claim stands on the write that made it, an old one on the write it stood on. -/
theorem Epoch.claims_insert (hv : v.Epoch) {lba len : ℕ} (hfit : LbaMap.Fits lba len 0) (w : PendingWrite)
    (hlba : w.entry.startLba = lba) (hlen : w.entry.lbaLength = len) (x : ℕ) (h : Hash) (off : ℕ)
    (c : Ulid)
    (hx : (v.maps.delta.lbamap.insert lba len w.entry.hash v.wal).lookupWithClaimant x =
      some (h, off, c)) :
    c = v.wal ∧ ∃ w' ∈ v.pending ++ [w], w'.entry.hash = h ∧ w'.entry.Covers x := by
  rw [LbaMap.insert, hv.inv.lookupWithClaimant_insertInner hfit.1] at hx
  split_ifs at hx with hin
  · obtain ⟨rfl, -, rfl⟩ : w.entry.hash = h ∧ _ ∧ v.wal = c := by simpa using hx
    refine ⟨rfl, w, by simp, rfl, ?_⟩
    rw [SegmentEntry.Covers, hlba, hlen]
    exact hin
  · obtain ⟨hc, w', hw', hcov⟩ := hv.claims x h off c hx
    exact ⟨hc, w', List.mem_append_left _ hw', hcov⟩

theorem commit_frame (v : Volume) (c : Commit) : (v.commit c).wal = v.wal ∧
    (v.commit c).maps.base = v.maps.base ∧ (v.commit c).maps.frozen = v.maps.frozen := by
  cases c <;> exact ⟨rfl, rfl, rfl⟩

theorem plain_commit (hv : ∀ w ∈ v.pending, w.Plain) (c : Commit) :
    ∀ w ∈ (v.commit c).pending, w.Plain := by
  cases c with
  | write lba len hash codec storedLength bodyOffset =>
    refine List.forall_mem_append.mpr ⟨hv, List.forall_mem_singleton.mpr ⟨?_, rfl⟩⟩
    simp only [SegmentEntry.newDataNoBody]
    split_ifs
    · exact .inr (.inl rfl)
    · exact .inl rfl
  | zero startLba lbaCount =>
    exact List.forall_mem_append.mpr
      ⟨hv, List.forall_mem_singleton.mpr ⟨.inr (.inr ⟨rfl, rfl⟩), rfl⟩⟩

theorem Epoch.zeroCommit (hv : v.Epoch) {startLba lbaCount : ℕ}
    (hfit : LbaMap.Fits startLba lbaCount 0) : (v.zeroCommit startLba lbaCount).Epoch where
  base := hv.base
  frozen := hv.frozen
  unnamed := hv.unnamed
  inv := hv.inv.insertInner hfit.1 0 ZERO_HASH v.wal
  claims := hv.claims_insert hfit ⟨.newZero startLba lbaCount, none⟩ rfl rfl
  owned := hv.owned
  journal := hv.journal
  deltas := hv.deltas
  plain := plain_commit hv.plain (.zero startLba lbaCount)

/-- What a write does to the epoch: a claim, a pending write, and one new location in the WAL unless
its hash resolves. -/
theorem writeCommit_eq (v : Volume) (lba len : ℕ) (hash : Hash) (codec : Codec)
    (storedLength bodyOffset : ℕ) :
    ∃ (y : ExtentIndex) (loc : ExtentLocation),
      v.writeCommit lba len hash codec storedLength bodyOffset =
        { v with
          maps := { v.maps with delta := ⟨v.maps.delta.lbamap.insert lba len hash v.wal, y⟩ }
          pending := v.pending ++
            [⟨{ SegmentEntry.newDataNoBody hash lba len codec storedLength with
              journal := v.journal.contains lba }, some bodyOffset⟩] } ∧
      loc.segmentId = v.wal ∧
      (y = v.maps.delta.extentIndex ∨
        y = (v.maps.delta.extentIndex.insertJournalIfAbsent v.wal hash loc).1 ∨
        (v.maps.below.lookupExtent hash = none ∧
          y = (v.maps.delta.extentIndex.insertIfAbsent hash loc).1)) := by
  refine ⟨_, ⟨v.wal, bodyOffset, storedLength, codec, .local, 0, none⟩, rfl, rfl, ?_⟩
  cases v.journal.contains lba with
  | true =>
    simp only [if_true]
    split_ifs
    · exact .inl rfl
    · exact .inr (.inl rfl)
  | false =>
    simp only [Bool.false_eq_true, if_false]
    split_ifs with hres
    · exact .inl rfl
    · refine .inr (.inr ⟨?_, rfl⟩)
      rw [Bool.not_eq_true, isSome_eq_false_iff, isNone_iff_eq_none,
        MapLayers.lookupExtent_eq, or_eq_none_iff] at hres
      exact hres.2

/-- The write path only adds bodies. -/
theorem isSome_lookup_commit (v : Volume) (c : Commit) {h : Hash}
    (hh : (v.maps.delta.extentIndex.lookup h).isSome = true) :
    ((v.commit c).maps.delta.extentIndex.lookup h).isSome = true := by
  cases c with
  | zero startLba lbaCount => exact hh
  | write lba len hash codec storedLength bodyOffset =>
    obtain ⟨y, loc, heq, -, hy⟩ := v.writeCommit_eq lba len hash codec storedLength bodyOffset
    rw [commit, heq]
    rcases hy with rfl | rfl | ⟨-, rfl⟩
    · exact hh
    · rw [lookup, (insertJournalIfAbsent_frame _ _ _ _).1]
      exact hh
    · rw [lookup_insertIfAbsent]
      split_ifs
      · simp
      · exact hh

/-- The index part of the invariant, over such a step. -/
theorem Epoch.index_step (hv : v.Epoch) {hash : Hash} {loc : ExtentLocation}
    (hloc : loc.segmentId = v.wal) {y : ExtentIndex}
    (hy : y = v.maps.delta.extentIndex ∨
      y = (v.maps.delta.extentIndex.insertJournalIfAbsent v.wal hash loc).1 ∨
      (v.maps.below.lookupExtent hash = none ∧
        y = (v.maps.delta.extentIndex.insertIfAbsent hash loc).1)) :
    (∀ h l, y.lookup h = some l → l.segmentId = v.wal ∧ v.maps.below.lookupExtent h = none) ∧
      (∀ s h l, y.lookupJournal s h = some l → s = v.wal ∧ l.segmentId = v.wal) ∧
      ∀ h, y.lookupDelta h = none := by
  rcases hy with rfl | rfl | ⟨hnone, rfl⟩
  · exact ⟨hv.owned, hv.journal, hv.deltas⟩
  · obtain ⟨hinner, hdeltas⟩ :=
      v.maps.delta.extentIndex.insertJournalIfAbsent_frame hash loc v.wal
    refine ⟨fun h l hl => ?_, fun s h l hl => ?_, fun h => ?_⟩
    · rw [lookup, hinner] at hl
      exact hv.owned h l hl
    · rw [lookupJournal_insertJournalIfAbsent] at hl
      split_ifs at hl with hh
      · rcases or_eq_some_iff.mp hl with hl | ⟨-, hl⟩
        · exact ⟨hh.1, (hv.journal _ _ l hl).2⟩
        · exact ⟨hh.1, some.inj hl ▸ hloc⟩
      · exact hv.journal s h l hl
    · rw [lookupDelta, hdeltas]
      exact hv.deltas h
  · obtain ⟨hdeltas, hjournal⟩ := v.maps.delta.extentIndex.insertIfAbsent_frame hash loc
    refine ⟨fun h l hl => ?_, fun s h l hl => ?_, fun h => ?_⟩
    · rw [lookup_insertIfAbsent] at hl
      split_ifs at hl with hh
      · rcases or_eq_some_iff.mp hl with hl | ⟨-, hl⟩
        · exact hh ▸ hv.owned hash l hl
        · exact ⟨some.inj hl ▸ hloc, hh ▸ hnone⟩
      · exact hv.owned h l hl
    · rw [lookupJournal, hjournal] at hl
      exact hv.journal s h l hl
    · rw [lookupDelta, hdeltas]
      exact hv.deltas h

theorem Epoch.writeCommit (hv : v.Epoch) {lba len : ℕ} (hfit : LbaMap.Fits lba len 0) (hash : Hash)
    (codec : Codec) (storedLength bodyOffset : ℕ) :
    (v.writeCommit lba len hash codec storedLength bodyOffset).Epoch := by
  obtain ⟨y, loc, heq, hloc, hy⟩ := v.writeCommit_eq lba len hash codec storedLength bodyOffset
  obtain ⟨howned, hjournal, hdeltas⟩ := hv.index_step hloc hy
  rw [heq]
  refine ⟨hv.base, hv.frozen, hv.unnamed, hv.inv.insertInner hfit.1 0 hash v.wal,
    hv.claims_insert hfit ⟨{ SegmentEntry.newDataNoBody hash lba len codec storedLength with
      journal := v.journal.contains lba }, some bodyOffset⟩ rfl rfl, howned, hjournal, hdeltas, ?_⟩
  exact plain_commit hv.plain (.write lba len hash codec storedLength bodyOffset)

/-- **The epoch's invariant** holds whatever the guest writes. -/
theorem Epoch.commits (hv : v.Epoch) {cs : List Commit} (hcs : ∀ c ∈ cs, c.Fits) :
    (v.commits cs).Epoch := by
  induction cs generalizing v with
  | nil => exact hv
  | cons c cs ih =>
    have hc := hcs c List.mem_cons_self
    refine ih ?_ fun c' hc' => hcs c' (List.mem_cons_of_mem _ hc')
    cases c with
    | write lba len hash codec storedLength bodyOffset => exact hv.writeCommit hc _ _ _ _
    | zero startLba lbaCount => exact hv.zeroCommit hc

/-- Commits touch the open epoch only. -/
theorem commits_frame (v : Volume) (cs : List Commit) :
    (v.commits cs).wal = v.wal ∧ (v.commits cs).maps.base = v.maps.base ∧
      (v.commits cs).maps.frozen = v.maps.frozen := by
  induction cs generalizing v with
  | nil => exact ⟨rfl, rfl, rfl⟩
  | cons c cs ih =>
    obtain ⟨hwal, hbase, hfrozen⟩ := ih (v.commit c)
    obtain ⟨hwal', hbase', hfrozen'⟩ := v.commit_frame c
    exact ⟨hwal.trans hwal', hbase.trans hbase', hfrozen.trans hfrozen'⟩

end Volume

end Elide
