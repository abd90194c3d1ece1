import Elide.ExtentIndex.Lookups
import Elide.ExtentIndex.Resolution
import Elide.LbaMap.Rebuild
import Elide.Lib.Run

/-!
# Rebuilding the extent index from segments

`ExtentIndexBuilder` registers the entries of every segment a walk finds, first come first served. A
hash ends up in the data map if any segment has a durable body for it, and a hash without one ends up
with the first recipe of the walk.

## Main results

* `ExtentIndexBuilder.rebuild_resolves`: what a read finds after a rebuild, in terms of the entries.
-/

namespace Elide

open List ExtentIndex SegmentEntry Prod

/-- A segment as the walk hands it over. -/
structure WalkedSegment where
  file : SegmentFile
  bodySectionStart : ℕ
  bodyLength : ℕ
  inlineSection : List UInt8
  /-- It is in `index/`, with its body in the cache; otherwise the whole file is at hand. -/
  cached : Bool
  deriving DecidableEq

namespace WalkedSegment

variable (s : WalkedSegment)

/-- Where a rebuild finds the segment's delta body. -/
def deltaBodySource : Option DeltaBodySource :=
  if s.cached then some .cached
  else if s.file.entries.any fun e => e.kind.isDelta then
    some (.full s.bodySectionStart s.bodyLength)
  else none

/-- How a rebuild registers the segment's entries. -/
def ctx : SegmentRegistrationCtx where
  segmentId := s.file.ulid
  bodySectionStart := s.bodySectionStart
  bodyTier := if s.cached then .cached else .local
  deltaBodySource := s.deltaBodySource
  inline := .inlineSection s.inlineSection

/-- The segment has a body for `hash`, in the journal tier or in the durable one. -/
def HasBody (hash : Hash) (journal : Bool) : Prop :=
  ∃ e ∈ s.file.entries, e.kind.hasBodyBytes = true ∧ e.journal = journal ∧ e.hash = hash ∧
    (ExtentIndex.inlineBytes e (.inlineSection s.inlineSection)).isSome = true

instance (hash : Hash) (journal : Bool) : Decidable (s.HasBody hash journal) :=
  inferInstanceAs (Decidable (∃ e ∈ s.file.entries, _ ∧ _ ∧ _ ∧ _))

end WalkedSegment

namespace ExtentIndexBuilder

/-- Register every entry of a segment. -/
def visit (x : ExtentIndex) (s : WalkedSegment) : Except RegisterError ExtentIndex :=
  s.file.entries.zipIdx.foldlM (fun x e => x.registerEntryIfAbsent e.1 e.2 s.ctx) x

variable (segs : List WalkedSegment)

/-- A walk over all layers, oldest first. -/
def rebuild : Except RegisterError ExtentIndex :=
  segs.foldlM visit .new

/-! ## What a walk has registered -/

/-- The first recipe for `hash` in the order of the walk. -/
def firstRecipe (hash : Hash) : Option SegmentEntry :=
  (segs.flatMap fun s => s.file.entries).find? fun e => e.kind.isDelta && decide (e.hash = hash)

/-- What a read of `hash` under `claimant` can find among the segments: a journal body of the
claimant, a durable body, or the first recipe with a durable body for one of its sources. -/
def Finds (claimant : Ulid) (hash : Hash) : Prop :=
  (∃ s ∈ segs, s.file.ulid = claimant ∧ s.HasBody hash true) ∨ (∃ s ∈ segs, s.HasBody hash false) ∨
    ∃ e ∈ firstRecipe segs hash, ∃ opt ∈ e.deltaOptions, ∃ s ∈ segs, s.HasBody opt.sourceHash false

/-- An entry with the segment it comes from. -/
abbrev Placed := SegmentEntry × SegmentRegistrationCtx

/-- The entry gives `hash` a body in the tier. -/
def GivesBody (p : Placed) (hash : Hash) (journal : Bool) : Prop :=
  p.1.kind.hasBodyBytes = true ∧ p.1.journal = journal ∧ p.1.hash = hash ∧
    (ExtentIndex.inlineBytes p.1 p.2.inline).isSome = true

/-- The index after the entries `es` of a walk. -/
structure Rebuilt (es : List Placed) (x : ExtentIndex) : Prop where
  body : ∀ h, (x.lookup h).isSome = true ↔ ∃ p ∈ es, GivesBody p h false
  journal : ∀ u h, (x.lookupJournal u h).isSome = true ↔
    ∃ p ∈ es, p.2.segmentId = u ∧ GivesBody p h true
  recipe : ∀ h, x.lookup h = none → (x.lookupDelta h).map DeltaLocation.options =
    ((es.map fst).find? fun e => e.kind.isDelta && decide (e.hash = h)).map
      deltaOptions

theorem rebuilt_new : Rebuilt [] .new where
  body h := by simp [ExtentIndex.new, ExtentIndex.lookup]
  journal u h := by simp [new, lookupJournal]
  recipe h _ := rfl

variable {es : List Placed} {x : ExtentIndex} {p : Placed}

theorem exists_mem_snoc {P : Placed → Prop} : (∃ q ∈ es ++ [p], P q) ↔ (∃ q ∈ es, P q) ∨ P p := by
  simp only [mem_append, mem_singleton, or_and_right, exists_or, exists_eq_left]

/-- An entry that gives no body and no recipe changes nothing. -/
theorem Rebuilt.skip (h : Rebuilt es x) (hbody : ∀ k j, ¬ GivesBody p k j)
    (hdelta : p.1.kind.isDelta = false) : Rebuilt (es ++ [p]) x where
  body k := by rw [exists_mem_snoc, or_iff_left (hbody k false), h.body]
  journal u k := by
    rw [exists_mem_snoc, or_iff_left fun hp => hbody k true hp.2, h.journal]
  recipe k hk := by
    rw [h.recipe k hk]
    simp [hdelta]

theorem Rebuilt.registerDelta (h : Rebuilt es x) (hdelta : p.1.kind.isDelta = true) (i : ℕ)
    (src : DeltaBodySource) :
    Rebuilt (es ++ [p]) (x.registerDelta p.1 i p.2.segmentId src .ifAbsent) := by
  obtain ⟨hinner, hjournal⟩ := x.registerDelta_frame p.1 i p.2.segmentId src .ifAbsent
  have hbody : ∀ k j, ¬ GivesBody p k j := by
    rintro k j ⟨hk, -⟩
    rw [EntryKind.hasBodyBytes_of_isDelta hdelta] at hk
    cases hk
  refine ⟨fun k => ?_, fun u k => ?_, fun k hk => ?_⟩
  · rw [ExtentIndex.lookup, hinner, exists_mem_snoc, or_iff_left (hbody k false)]
    exact h.body k
  · rw [lookupJournal, hjournal, exists_mem_snoc, or_iff_left fun hp => hbody k true hp.2]
    exact h.journal u k
  · rw [ExtentIndex.lookup, hinner] at hk
    have hold := h.recipe k hk
    rw [lookupDelta_registerDelta, map_append, List.find?_append]
    by_cases hhash : k = p.1.hash
    · subst hhash
      rcases hslot : x.lookupDelta p.1.hash with _ | d
      · -- an empty slot goes to the entry
        rw [hslot] at hold
        rw [Option.map_eq_none_iff.mp hold.symm, if_pos]
        · simp [hdelta]
        · rw [lookupDelta] at hslot
          simp [admitsDelta, hk, hslot]
      · rw [hslot] at hold
        rw [if_neg, Option.map_or]
        · rw [← hold]
          rfl
        · rw [lookupDelta] at hslot
          simp [admitsDelta, hslot]
    · rw [if_neg fun hc => hhash hc.1, hold]
      simp [Ne.symm hhash]

theorem Rebuilt.registerBody (h : Rebuilt es x) (hbody : p.1.kind.hasBodyBytes = true) (i : ℕ) :
    Rebuilt (es ++ [p]) (x.registerBody p.1 i p.2 .ifAbsent) := by
  have hdelta := EntryKind.isDelta_of_hasBodyBytes hbody
  rw [ExtentIndex.registerBody]
  rcases hinline : inlineBytes p.1 p.2.inline with _ | inlineData
  · refine h.skip (fun k j hp => ?_) hdelta
    rw [GivesBody, hinline] at hp
    cases hp.2.2.2
  · have hgives : ∀ k j, GivesBody p k j ↔ p.1.journal = j ∧ p.1.hash = k := fun k j => by
      rw [GivesBody, hinline]
      simp [hbody]
    have hrecipe : ∀ y : ExtentIndex, (∀ k, y.lookup k = none → x.lookup k = none) →
        y.deltas = x.deltas → ∀ k, y.lookup k = none →
        (y.lookupDelta k).map DeltaLocation.options =
          (((es ++ [p]).map fst).find? fun e => e.kind.isDelta && decide (e.hash = k)).map
            deltaOptions := fun y hless hdeltas k hk => by
      have hlast : ([p].map fst).find? (fun e => e.kind.isDelta && decide (e.hash = k)) =
          none := by simp [hdelta]
      rw [lookupDelta, hdeltas, map_append, List.find?_append, hlast, Option.or_none]
      exact h.recipe k (hless k hk)
    cases hj : p.1.journal with
    | true =>
      simp only [if_true]
      set loc : ExtentLocation := _
      obtain ⟨hinner, hdeltas⟩ := x.insertJournalIfAbsent_frame p.1.hash loc p.2.segmentId
      refine ⟨fun k => ?_, fun u k => ?_, hrecipe _ (fun k hk => ?_) hdeltas⟩
      · rw [ExtentIndex.lookup, hinner, exists_mem_snoc, hgives, hj, or_iff_left (by simp)]
        exact h.body k
      · rw [lookupJournal_insertJournalIfAbsent, exists_mem_snoc, hgives, hj]
        split_ifs with hat
        · obtain ⟨rfl, rfl⟩ := hat
          exact iff_of_true (by simp) (.inr ⟨rfl, rfl, rfl⟩)
        · rw [or_iff_left fun hc => hat ⟨hc.1.symm, hc.2.2.symm⟩]
          exact h.journal u k
      · rw [ExtentIndex.lookup, hinner] at hk
        exact hk
    | false =>
      simp only [Bool.false_eq_true, if_false]
      set loc : ExtentLocation := _
      obtain ⟨hdeltas, hjournal⟩ := x.insertIfAbsent_frame p.1.hash loc
      refine ⟨fun k => ?_, fun u k => ?_, hrecipe _ (fun k hk => ?_) hdeltas⟩
      · rw [lookup_insertIfAbsent, exists_mem_snoc, hgives, hj]
        split_ifs with hat
        · exact iff_of_true (by simp) (.inr ⟨rfl, hat.symm⟩)
        · rw [or_iff_left fun hc => hat hc.2.symm]
          exact h.body k
      · rw [lookupJournal, hjournal, exists_mem_snoc, hgives, hj, or_iff_left (by simp)]
        exact h.journal u k
      · rw [lookup_insertIfAbsent] at hk
        split_ifs at hk with hat
        · simp at hk
        · exact hk

/-- One entry of a segment whose recipes have a body source. -/
theorem Rebuilt.registerEntry (h : Rebuilt es x)
    (hsource : p.1.kind.isDelta = true → p.2.deltaBodySource.isSome = true) (i : ℕ) :
    ∃ y, x.registerEntryIfAbsent p.1 i p.2 = .ok y ∧ Rebuilt (es ++ [p]) y := by
  have hskip : p.1.kind.hasBodyBytes = false → p.1.kind.isDelta = false →
      Rebuilt (es ++ [p]) x := fun hbody hdelta => h.skip (fun k j hp => by
    rw [GivesBody, hbody] at hp
    cases hp.1) hdelta
  rw [ExtentIndex.registerEntryIfAbsent, ExtentIndex.registerEntry]
  cases hkind : p.1.kind with
  | dedupRef | zero => exact ⟨x, rfl, hskip (by rw [hkind]; rfl) (by rw [hkind]; rfl)⟩
  | delta | canonicalDelta =>
    have hdelta : p.1.kind.isDelta = true := by rw [hkind]; rfl
    obtain ⟨src, hsrc⟩ := Option.isSome_iff_exists.mp (hsource hdelta)
    rw [hsrc]
    exact ⟨_, rfl, h.registerDelta hdelta i src⟩
  | data | inline | canonicalData | canonicalInline =>
    exact ⟨_, rfl, h.registerBody (by rw [hkind]; rfl) i⟩

/-! ## The walk -/

theorem isSome_deltaBodySource {s : WalkedSegment} {e : SegmentEntry} (he : e ∈ s.file.entries)
    (hdelta : e.kind.isDelta = true) : s.deltaBodySource.isSome = true := by
  rw [WalkedSegment.deltaBodySource]
  split_ifs with hcached hany
  · rfl
  · rfl
  · exact absurd (any_eq_true.mpr ⟨e, he, hdelta⟩) hany

/-- The entries of a segment with where they come from. -/
def placed (s : WalkedSegment) : List Placed := s.file.entries.map fun e => (e, s.ctx)

theorem Rebuilt.visit (h : Rebuilt es x) (s : WalkedSegment) :
    ∃ y, ExtentIndexBuilder.visit x s = .ok y ∧ Rebuilt (es ++ placed s) y := by
  have hplaced : placed s = s.file.entries.zipIdx.flatMap fun e => [(e.1, s.ctx)] := by
    rw [← map_eq_flatMap, placed]
    nth_rewrite 1 [← zipIdx_map_fst 0 s.file.entries]
    rw [List.map_map]
    rfl
  rw [hplaced]
  refine Run.exists_foldlM_ok (fun e he es x h => ?_) es h
  exact h.registerEntry (p := (e.1, s.ctx))
    (fun hdelta => isSome_deltaBodySource (fst_mem_of_mem_zipIdx he) hdelta) e.2

theorem exists_rebuilt : ∃ x, rebuild segs = .ok x ∧ Rebuilt (segs.flatMap placed) x :=
  Run.exists_foldlM_ok (fun s _ _ _ h => h.visit s) [] rebuilt_new

theorem exists_placed {segs : List WalkedSegment} {h : Hash} {j : Bool} {P : Ulid → Prop} :
    (∃ p ∈ segs.flatMap placed, P p.2.segmentId ∧ GivesBody p h j) ↔
      ∃ s ∈ segs, P s.file.ulid ∧ s.HasBody h j := by
  constructor
  · rintro ⟨p, hp, hP, hgives⟩
    obtain ⟨s, hs, hp⟩ := mem_flatMap.mp hp
    obtain ⟨e, he, rfl⟩ := mem_map.mp hp
    exact ⟨s, hs, hP, e, he, hgives⟩
  · rintro ⟨s, hs, hP, e, he, hgives⟩
    exact ⟨(e, s.ctx), mem_flatMap.mpr ⟨s, hs, mem_map.mpr ⟨e, he, rfl⟩⟩, hP, hgives⟩

/-- **What a read finds after a rebuild.** The walk fails on no segment, and a claimed hash resolves
exactly when the segments have something to find. -/
theorem rebuild_resolves : ∃ x, rebuild segs = .ok x ∧
      ∀ claimant hash, x.resolves claimant hash = true ↔ Finds segs claimant hash := by
  obtain ⟨x, hx, hreg⟩ := exists_rebuilt segs
  refine ⟨x, hx, fun claimant hash => ?_⟩
  have hbody : ∀ h, (x.lookup h).isSome = true ↔ ∃ s ∈ segs, s.HasBody h false := fun h => by
    have hplaced := @exists_placed segs h false fun _ => True
    rw [hreg.body]
    simpa using hplaced
  have hjournal : (x.lookupJournal claimant hash).isSome = true ↔
      ∃ s ∈ segs, s.file.ulid = claimant ∧ s.HasBody hash true := by
    rw [hreg.journal]
    exact exists_placed (P := (· = claimant))
  have hfirst : (segs.flatMap placed).map fst = segs.flatMap fun s => s.file.entries := by
    simp [map_flatMap, placed, Function.comp_def]
  rw [resolves, Bool.or_eq_true, Bool.or_eq_true, hjournal, hbody, or_assoc]
  refine or_congr_right (or_congr_right' fun hnone => ?_)
  rw [← hbody, Bool.not_eq_true, Option.isSome_eq_false_iff, Option.isNone_iff_eq_none] at hnone
  have hrecipe := hreg.recipe hash hnone
  rw [hfirst, ← firstRecipe] at hrecipe
  rw [resolvesDelta]
  rcases hslot : x.lookupDelta hash with _ | d
  · rw [hslot, Option.map_none, eq_comm, Option.map_eq_none_iff] at hrecipe
    simp [hrecipe]
  · rw [hslot, Option.map_some, eq_comm, Option.map_eq_some_iff] at hrecipe
    obtain ⟨e, he, hopts⟩ := hrecipe
    simp [he, ← hopts, hbody]

end ExtentIndexBuilder

end Elide
