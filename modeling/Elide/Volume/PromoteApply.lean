import Elide.ExtentIndex.Lookups
import Elide.LbaMap.Restamp
import Elide.Lib.Run
import Elide.Volume.Promote

/-!
# What applying a segment does to the index

A written entry is applied to one of two tiers. In the data tier it takes the DATA location of its
hash over from the WAL, as a body or as a Delta; in the journal tier it re-keys the journal body of
its hash. Either way only the first entry of a hash finds the WAL still there. The index after a
whole segment is therefore a function of the index before it and of the first entry of each hash in
each tier (`SegmentResult.applied`).

The statements are about owners: which segment a location names. `Tokens` is what makes the
compare-and-swap tokens decide nothing else.

## Main results

* `SegmentResult.applied`: the owners after the apply of a segment.
* `SegmentResult.restampClaims_spec`: the claims after it.
* `SegmentResult.exists_applyPromotedPartition`: the apply never fails.
-/

namespace Elide

open List ExtentIndex SegmentEntry EntryKind ExtentLocation

namespace SegmentEntry

/-- The entry is applied to the DATA map: a Delta, or a body outside the journal tier. -/
def inDataTier (e : SegmentEntry) : Bool :=
  decide (e.kind = .delta) || (e.kind.hasBodyBytes && !e.journal)

/-- The entry is applied to the journal map. -/
def inJournalTier (e : SegmentEntry) : Bool := e.kind.hasBodyBytes && e.journal

theorem tiers_delta {e : SegmentEntry} (hk : e.kind = .delta) :
    e.inDataTier = true ∧ e.inJournalTier = false := by
  simp [inDataTier, inJournalTier, hk, hasBodyBytes]

theorem tiers_body {e : SegmentEntry} (hb : e.kind.hasBodyBytes = true) :
    e.kind ≠ .delta ∧ e.inDataTier = !e.journal ∧ e.inJournalTier = e.journal := by
  have hk : e.kind ≠ .delta := fun hk => by simp [hk, hasBodyBytes] at hb
  exact ⟨hk, by simp [inDataTier, hk, hb], by simp [inJournalTier, hb]⟩

end SegmentEntry

namespace ExtentIndex

variable (x : ExtentIndex)

/-- The segment that the DATA location of `h` names. -/
def owner (h : Hash) : Option Ulid := (x.lookup h).map segmentId

/-- The segment that the journal body of `h` under `s` names. -/
def journalOwner (s : Ulid) (h : Hash) : Option Ulid :=
  (x.lookupJournal s h).map segmentId

/-- The options of the Delta that serves `h`. -/
def deltaOptions (h : Hash) : Option (List DeltaOption) :=
  (x.lookupDelta h).map DeltaLocation.options

/-- The tokens `tok` are in step with the index: one matches wherever the WAL still owns a hash.
A hash with a token is still served from here, unless it is `shadowed` by a layer above. -/
structure Tokens (wal : Ulid) (tok : Hash → Option ℕ) (shadowed : Hash → Prop)
    (x : ExtentIndex) : Prop where
  at_wal : ∀ h loc, x.lookup h = some loc → loc.segmentId = wal → tok h = some loc.bodyOffset
  served : ∀ h, ¬ shadowed h → (tok h).isSome → (x.lookup h).isSome ∨ (x.lookupDelta h).isSome
  delta : ∀ h d, x.lookupDelta h = some d → d.segmentId ≠ wal

variable {wal c : Ulid} {tok : Hash → Option ℕ} {shadowed : Hash → Prop} {x y : ExtentIndex}
  {e : SegmentEntry}

theorem Tokens.isAt (hx : x.Tokens wal tok shadowed) {h : Hash} (ho : x.owner h = some wal) :
    ∃ off, tok h = some off ∧ x.IsAt h wal off := by
  obtain ⟨loc, hloc, hseg⟩ := Option.map_eq_some_iff.mp ho
  exact ⟨loc.bodyOffset, hx.at_wal h loc hloc hseg, loc, hloc, hseg, rfl⟩

theorem Tokens.isAt_iff (hx : x.Tokens wal tok shadowed) {h : Hash} {off : ℕ}
    (htok : tok h = some off) : x.IsAt h wal off ↔ x.owner h = some wal := by
  constructor
  · rintro ⟨loc, hloc, hseg, -⟩
    rw [owner, hloc, Option.map_some, hseg]
  · intro ho
    obtain ⟨off', htok', hat⟩ := hx.isAt ho
    exact Option.mem_unique htok htok' ▸ hat

/-- Applying `e` of segment `c` takes the index from `x` to `y`. -/
structure Moves (wal c : Ulid) (shadowed : Hash → Prop) (x : ExtentIndex) (e : SegmentEntry)
    (y : ExtentIndex) : Prop where
  owner : ∀ h, y.owner h = if h = e.hash ∧ e.inDataTier ∧ x.owner h = some wal then
      if e.kind = .delta then none else some c
    else x.owner h
  options : ∀ h, ¬ shadowed h → y.deltaOptions h =
    if h = e.hash ∧ e.kind = .delta ∧ x.owner h = some wal ∧ x.deltaOptions h = none then
      some e.deltaOptions
    else x.deltaOptions h
  journal : ∀ s h, y.journalOwner s h =
    if h = e.hash ∧ e.inJournalTier ∧ (x.journalOwner wal h).isSome ∧ (s = wal ∨ s = c) then
      if s = c then some c else none
    else x.journalOwner s h

/-- An entry of neither tier, or whose hash the WAL does not hold, changes nothing. -/
theorem moves_self (hdata : e.inDataTier = true → x.owner e.hash ≠ some wal)
    (hjournal : e.inJournalTier = true → x.journalOwner wal e.hash = none) :
    Moves wal c shadowed x e x := by
  refine ⟨?_, ?_, ?_⟩
  · intro h
    rw [if_neg]
    rintro ⟨rfl, ht, ho⟩
    exact hdata ht ho
  · intro h _
    rw [if_neg]
    rintro ⟨rfl, hk, ho, -⟩
    exact hdata (tiers_delta hk).1 ho
  · intro s h
    rw [if_neg]
    rintro ⟨rfl, ht, hs, -⟩
    rw [hjournal ht] at hs
    cases hs

section

variable (hx : x.Tokens wal tok shadowed) (hc : c ≠ wal) {loc : ExtentLocation}
  (hloc : loc.segmentId = c) (hbody : e.kind.hasBodyBytes = true)
include hx hc hloc hbody

theorem moves_replace {off : ℕ} (hj : e.journal = false) (htok : tok e.hash = some off) :
    Moves wal c shadowed x e (x.replaceIfMatches e.hash wal off loc).1 ∧
      (x.replaceIfMatches e.hash wal off loc).1.Tokens wal tok shadowed := by
  classical
  obtain ⟨hkind, htier, hjt⟩ := tiers_body hbody
  rw [hj] at htier hjt
  obtain ⟨hdeltas, hjournal⟩ := x.replaceIfMatches_frame e.hash loc wal off
  have hlook : ∀ h, (x.replaceIfMatches e.hash wal off loc).1.lookup h =
      if h = e.hash ∧ x.owner h = some wal then some loc else x.lookup h := by
    intro h
    rw [lookup_replaceIfMatches]
    refine if_congr (and_congr_right ?_) rfl rfl
    rintro rfl
    exact hx.isAt_iff htok
  have hlookd : ∀ h, (x.replaceIfMatches e.hash wal off loc).1.lookupDelta h = x.lookupDelta h :=
    fun h => congrArg (AList.lookup h) hdeltas
  refine ⟨⟨?_, ?_, ?_⟩, ⟨?_, ?_, ?_⟩⟩
  · intro h
    rw [owner, hlook, apply_ite (Option.map _), Option.map_some, hloc, if_neg hkind]
    exact if_congr (by rw [htier]; simp) rfl rfl
  · intro h _
    rw [deltaOptions, hlookd, if_neg (fun hcon => hkind hcon.2.1)]
    rfl
  · intro s h
    rw [if_neg (fun hcon => absurd hcon.2.1 (by rw [hjt]; simp)), journalOwner, lookupJournal,
      hjournal]
    rfl
  · intro h l hl hseg
    rw [hlook] at hl
    split_ifs at hl with hh
    · obtain rfl := Option.some.inj hl
      exact absurd (hloc.symm.trans hseg) hc
    · exact hx.at_wal h l hl hseg
  · intro h hs ht
    rw [hlook, hlookd]
    split_ifs with hh
    · exact .inl rfl
    · exact hx.served h hs ht
  · intro h d hd
    exact hx.delta h d ((hlookd h).symm.trans hd)

theorem moves_rekey (hj : e.journal = true) :
    Moves wal c shadowed x e (x.rekeyJournal wal c e.hash loc) ∧
      (x.rekeyJournal wal c e.hash loc).Tokens wal tok shadowed := by
  obtain ⟨hinner, hdeltas⟩ := x.rekeyJournal_frame e.hash loc wal c
  obtain ⟨hkind, hdt, htier⟩ := tiers_body hbody
  rw [hj] at hdt htier
  have hlook : ∀ h, (x.rekeyJournal wal c e.hash loc).lookup h = x.lookup h := by
    intro h
    rw [lookup, hinner]
    rfl
  have hlookd : ∀ h, (x.rekeyJournal wal c e.hash loc).lookupDelta h = x.lookupDelta h := by
    intro h
    rw [lookupDelta, hdeltas]
    rfl
  refine ⟨⟨?_, ?_, ?_⟩, ⟨?_, ?_, ?_⟩⟩
  · intro h
    rw [owner, hlook, if_neg (fun hcon => absurd hcon.2.1 (by rw [hdt]; simp))]
    rfl
  · intro h _
    rw [deltaOptions, hlookd, if_neg (fun hcon => hkind hcon.2.1)]
    rfl
  · intro s h
    rw [journalOwner, x.lookupJournal_rekeyJournal e.hash h loc hc.symm s]
    rw [apply_ite (Option.map _), apply_ite (Option.map _), Option.map_some, Option.map_none, hloc]
    refine if_congr ?_ rfl rfl
    rw [journalOwner, Option.isSome_map, htier]
    constructor
    · rintro ⟨hs, rfl, hor⟩
      exact ⟨rfl, rfl, hs, hor⟩
    · rintro ⟨rfl, -, hs, hor⟩
      exact ⟨hs, rfl, hor⟩
  · intro h l hl hseg
    exact hx.at_wal h l ((hlook h).symm.trans hl) hseg
  · intro h hs ht
    rw [hlook, hlookd]
    exact hx.served h hs ht
  · intro h d hd
    exact hx.delta h d ((hlookd h).symm.trans hd)

end

/-- What a Delta with a matching token leaves: the WAL's location is dropped, and the Delta has the
slot if no other segment serves the hash. -/
structure TakesSlot (wal c : Ulid) (i : ℕ) (b : DeltaBodySource) (x : ExtentIndex) (e : SegmentEntry)
    (y : ExtentIndex) : Prop where
  lookup : ∀ h, y.lookup h = if h = e.hash ∧ x.owner h = some wal then none else x.lookup h
  delta : ∀ h, y.lookupDelta h =
    if h = e.hash ∧ x.lookupDelta h = none ∧ (x.owner h = some wal ∨ x.lookup h = none) then
      some ⟨c, i, b, e.deltaOptions⟩
    else x.lookupDelta h
  journal : ∀ s h, y.journalOwner s h = x.journalOwner s h

section

variable (hx : x.Tokens wal tok shadowed) {i : ℕ} {b : DeltaBodySource}
include hx

theorem takesSlot_registerDelta {off : ℕ} (htok : tok e.hash = some off) :
    TakesSlot wal c i b x e
      ((x.removeIfMatches e.hash wal off).1.registerDelta e i c b (.consumingInputs {wal})) := by
  classical
  obtain ⟨hdeltas, hjournal⟩ := x.removeIfMatches_frame e.hash wal off
  have hlook : ∀ h, (x.removeIfMatches e.hash wal off).1.lookup h =
      if h = e.hash ∧ x.owner h = some wal then none else x.lookup h := by
    intro h
    rw [lookup_removeIfMatches]
    refine if_congr (and_congr_right ?_) rfl rfl
    rintro rfl
    exact hx.isAt_iff htok
  generalize (x.removeIfMatches e.hash wal off).1 = y at hdeltas hjournal hlook
  obtain ⟨hinner, hjournal'⟩ := y.registerDelta_frame e i c b (.consumingInputs {wal})
  have hadmits : y.admitsDelta e.hash (.consumingInputs {wal}) = true ↔
      x.lookupDelta e.hash = none ∧ (x.owner e.hash = some wal ∨ x.lookup e.hash = none) := by
    have hfree : y.lookup e.hash = none ↔ x.owner e.hash = some wal ∨ x.lookup e.hash = none := by
      rw [hlook]
      split_ifs with ho
      · exact iff_of_true rfl (.inl ho.2)
      · exact (or_iff_right fun h => ho ⟨rfl, h⟩).symm
    rw [← hfree, admitsDelta, hdeltas]
    cases hd : x.deltas.lookup e.hash with
    | none => simp [ExtentIndex.lookup, lookupDelta, hd]
    | some d => simp [lookupDelta, hd, hx.delta e.hash d hd]
  refine ⟨fun h => ?_, fun h => ?_, fun s h => ?_⟩
  · rw [ExtentIndex.lookup, hinner]
    exact hlook h
  · rw [lookupDelta_registerDelta, lookupDelta, hdeltas]
    refine if_congr (and_congr_right ?_) rfl rfl
    rintro rfl
    exact hadmits
  · rw [journalOwner, lookupJournal, hjournal', hjournal]
    rfl

theorem TakesSlot.moves (h : TakesSlot wal c i b x e y) (hkind : e.kind = .delta)
    (htok : (tok e.hash).isSome = true) : Moves wal c shadowed x e y := by
  obtain ⟨htier, hjt⟩ := tiers_delta hkind
  refine ⟨fun k => ?_, fun k hs => ?_, fun s k => ?_⟩
  · rw [owner, h.lookup, apply_ite (Option.map _), if_pos hkind]
    exact if_congr (by rw [htier]; simp) rfl rfl
  · rw [deltaOptions, h.delta, apply_ite (Option.map _)]
    refine if_congr (and_congr_right ?_) rfl rfl
    rintro rfl
    rw [and_iff_right hkind, deltaOptions, Option.map_eq_none_iff, and_comm]
    refine and_congr_left fun hd => or_iff_left fun hnone => ?_
    -- the token says that the hash is served
    rcases hx.served e.hash hs htok with h1 | h1
    · rw [hnone] at h1
      cases h1
    · rw [hd] at h1
      cases h1
  · rw [if_neg (fun hcon => absurd hcon.2.1 (by rw [hjt]; simp)), h.journal]

theorem TakesSlot.tokens (h : TakesSlot wal c i b x e y) (hc : c ≠ wal) :
    y.Tokens wal tok shadowed := by
  refine ⟨fun k l hl hseg => ?_, fun k hs ht => ?_, fun k d hd => ?_⟩
  · rw [h.lookup] at hl
    split_ifs at hl
    exact hx.at_wal k l hl hseg
  · have hserved := hx.served k hs ht
    rw [h.lookup, h.delta]
    split_ifs with ho hd hd
    · exact .inr rfl
    · -- a location dropped without a Delta in its place: there was one
      refine .inr (Option.isSome_iff_ne_none.mpr fun hnone => hd ⟨ho.1, hnone, .inl ho.2⟩)
    · exact .inr rfl
    · exact hserved
  · rw [h.delta] at hd
    split_ifs at hd
    · obtain rfl := Option.some.inj hd
      exact hc
    · exact hx.delta k d hd

end

/-! ## A whole segment -/

/-- The first entry of `h` that reaches the DATA map. -/
def firstData (es : List SegmentEntry) (h : Hash) : Option SegmentEntry :=
  es.find? fun e => decide (e.hash = h) && e.inDataTier

/-- Some entry of `h` reaches the journal map. -/
def reachesJournal (es : List SegmentEntry) (h : Hash) : Bool :=
  es.any fun e => decide (e.hash = h) && e.inJournalTier

/-- Applying the entries `es` of segment `c` takes the index from `x` to `y`. -/
structure Applied (wal c : Ulid) (shadowed : Hash → Prop) (x : ExtentIndex)
    (es : List SegmentEntry) (y : ExtentIndex) : Prop where
  owner : ∀ h, y.owner h = if x.owner h = some wal then
      (firstData es h).elim (some wal) fun e => if e.kind = .delta then none else some c
    else x.owner h
  options : ∀ h, ¬ shadowed h → y.deltaOptions h =
    (x.deltaOptions h).or (if x.owner h = some wal then
      (firstData es h).bind fun e => if e.kind = .delta then some e.deltaOptions else none
    else none)
  journal : ∀ s h, y.journalOwner s h =
    if (x.journalOwner wal h).isSome ∧ reachesJournal es h ∧ (s = wal ∨ s = c) then
      if s = c then some c else none
    else x.journalOwner s h

theorem applied_nil (wal c : Ulid) (shadowed : Hash → Prop) (x : ExtentIndex) :
    Applied wal c shadowed x [] x := by
  refine ⟨?_, ?_, ?_⟩
  · intro h
    split_ifs with ho
    · exact ho
    · rfl
  · intro h _
    rw [show firstData [] h = none from rfl, Option.bind_none, ite_self, Option.or_none]
  · intro s h
    rw [if_neg (fun hcon => absurd hcon.2.1 (by simp [reachesJournal]))]

theorem Applied.cons {es : List SegmentEntry} {z : ExtentIndex} (hc : c ≠ wal)
    (hm : Moves wal c shadowed x e y) (ha : Applied wal c shadowed y es z) :
    Applied wal c shadowed x (e :: es) z := by
  have hfirst : ∀ h, firstData (e :: es) h =
      if h = e.hash ∧ e.inDataTier then some e else firstData es h := by
    intro h
    rw [firstData, List.find?_cons]
    by_cases hh : h = e.hash
    · subst hh
      cases ht : e.inDataTier <;> simp [firstData]
    · rw [if_neg (fun hcon => hh hcon.1), decide_eq_false (fun hcon => hh hcon.symm)]
      rfl
  -- the entry takes the location, so the rest no longer finds the WAL
  have hne : (if e.kind = .delta then none else some c) ≠ some wal := by
    split_ifs
    · simp
    · exact fun h2 => hc (Option.some.inj h2)
  refine ⟨?_, ?_, ?_⟩
  · intro h
    rw [ha.owner, hm.owner, hfirst]
    by_cases ho : x.owner h = some wal
    · simp only [ho, and_true, if_true]
      by_cases hh : h = e.hash ∧ e.inDataTier = true
      · rw [if_pos hh, if_pos hh, if_neg hne, Option.elim_some]
      · rw [if_neg hh, if_neg hh, if_pos rfl]
    · simp only [ho, and_false, if_false]
  · intro h hs
    rw [ha.options h hs, hm.options h hs, hm.owner, hfirst]
    by_cases ho : x.owner h = some wal
    · simp only [ho, and_true, true_and, if_true]
      by_cases hh : h = e.hash ∧ e.inDataTier = true
      · rw [if_pos hh, if_pos hh, if_neg hne, hh.1]
        cases x.deltaOptions e.hash <;> simp
      · have hk : ¬ (h = e.hash ∧ e.kind = .delta ∧ x.deltaOptions h = none) := fun hcon =>
          hh ⟨hcon.1, (tiers_delta hcon.2.1).1⟩
        rw [if_neg hk, if_neg hh, if_neg hh, if_pos rfl]
    · simp only [ho, and_false, false_and, if_false]
  · intro s h
    have hreach : reachesJournal (e :: es) h = true ↔
        (h = e.hash ∧ e.inJournalTier = true) ∨ reachesJournal es h = true := by
      rw [reachesJournal, any_cons, Bool.or_eq_true, Bool.and_eq_true, decide_eq_true_eq,
        eq_comm (a := e.hash)]
      rfl
    rw [ha.journal, hm.journal wal, hm.journal s]
    by_cases ho : (x.journalOwner wal h).isSome = true
    · by_cases hh : h = e.hash ∧ e.inJournalTier = true
      · have hr := hreach.mpr (.inl hh)
        obtain ⟨rfl, ht⟩ := hh
        simp only [ht, ho, hr, hc.symm, true_and, true_or, and_true, if_true, if_false,
          Option.isSome_none, Bool.false_eq_true, false_and]
      · simp only [← and_assoc, hh, ho, hreach, false_and, false_or, true_and, if_false]
    · simp only [ho, false_and, and_false, if_false, Bool.false_eq_true]

end ExtentIndex

namespace SegmentResult

open ExtentIndex

variable {wal : Ulid} {tok : Hash → Option ℕ} {shadowed : Hash → Prop} {x : ExtentIndex}
  {part : SegmentResult}

/-- One entry is applied without an error, and as `Moves` says. -/
theorem applyEntry_spec (hx : x.Tokens wal tok shadowed) (hc : part.segmentUlid ≠ wal)
    {e : SegmentEntry} (hkind : e.kind.isCanonicalOnly = false) {t : Option ℕ}
    (ht : e.inDataTier = true → t = tok e.hash) (i : ℕ) :
    ∃ y, part.applyEntry wal x i e t = .ok y ∧ Moves wal part.segmentUlid shadowed x e y ∧
      y.Tokens wal tok shadowed := by
  -- without a token the WAL does not hold the hash
  have hnone : e.inDataTier = true → t = none → x.owner e.hash ≠ some wal := by
    rintro htier rfl ho
    obtain ⟨off, htok, -⟩ := hx.isAt ho
    cases (ht htier).trans htok
  have hself : e.inDataTier = false → e.inJournalTier = false →
      Moves wal part.segmentUlid shadowed x e x := by
    intro h1 h2
    exact moves_self (by simp [h1]) (by simp [h2])
  unfold applyEntry
  cases hk : e.kind with
  | data | inline =>
    have hb : e.kind.hasBodyBytes = true := by rw [hk]; rfl
    obtain ⟨-, htier, hjt⟩ := tiers_body hb
    -- the journal flag picks the map
    cases hj : e.journal with
    | true => exact ⟨_, rfl, moves_rekey hx hc rfl hb hj⟩
    | false =>
      rw [hj] at htier hjt
      cases htt : t with
      | none => exact ⟨x, rfl, moves_self (fun h => hnone h htt) (by simp [hjt]), hx⟩
      | some off => exact ⟨_, rfl, moves_replace hx hc rfl hb hj ((ht htier).symm.trans htt)⟩
  | dedupRef | zero =>
    exact ⟨x, rfl, hself (by rw [inDataTier, hk]; rfl) (by rw [inJournalTier, hk]; rfl), hx⟩
  | delta =>
    obtain ⟨htier, hjt⟩ := tiers_delta hk
    cases htt : t with
    | none => exact ⟨x, rfl, moves_self (fun h => hnone h htt) (by simp [hjt]), hx⟩
    | some off =>
      have htok := (ht htier).symm.trans htt
      have hslot := takesSlot_registerDelta (c := part.segmentUlid) (i := i)
        (b := .full part.bodySectionStart part.deltaRegionBodyLength) hx htok
      refine ⟨_, ?_, hslot.moves hx hk (by rw [htok]; rfl), hslot.tokens hx hc⟩
      simp [registerEntryConsumingInputs, registerEntry, hk, deltaCtx]
  | canonicalData | canonicalInline | canonicalDelta =>
    exact absurd hkind (by rw [hk]; simp [isCanonicalOnly])

/-- The entries of a segment, one after the other. -/
theorem foldlM_applyEntry (hx : x.Tokens wal tok shadowed) (hc : part.segmentUlid ≠ wal)
    (L : List ((SegmentEntry × Option ℕ) × ℕ))
    (hL : ∀ p ∈ L, p.1.1.kind.isCanonicalOnly = false ∧
      (p.1.1.inDataTier = true → p.1.2 = tok p.1.1.hash)) :
    ∃ y, L.foldlM (fun index p => part.applyEntry wal index p.2 p.1.1 p.1.2) x = .ok y ∧
      Applied wal part.segmentUlid shadowed x (L.map fun p => p.1.1) y ∧
      y.Tokens wal tok shadowed := by
  induction L generalizing x with
  | nil => exact ⟨x, rfl, applied_nil _ _ _ x, hx⟩
  | cons p L ih =>
    obtain ⟨hkind, ht⟩ := hL p mem_cons_self
    obtain ⟨y, hy, hm, hty⟩ := applyEntry_spec hx hc hkind ht p.2
    obtain ⟨z, hz, ha, htz⟩ := ih hty fun q hq => hL q (mem_cons_of_mem _ hq)
    refine ⟨z, ?_, Applied.cons hc hm ha, htz⟩
    rw [foldlM_cons, hy]
    exact hz

/-- **A segment's apply succeeds**, and the index it leaves is a function of the first entry of
each hash in each tier. -/
theorem applied (m : Maps) (hx : m.extentIndex.Tokens wal tok shadowed)
    (hc : part.segmentUlid ≠ wal) (hlen : part.entries.length = part.prePromoteOffsets.length)
    (hes : ∀ p ∈ part.entries.zip part.prePromoteOffsets, p.1.kind.isCanonicalOnly = false ∧
      (p.1.inDataTier = true → p.2 = tok p.1.hash)) :
    ∃ y, part.applyPromotedPartition wal m = .ok ⟨part.restampClaims m.lbamap, y⟩ ∧
      Applied wal part.segmentUlid shadowed m.extentIndex part.entries y ∧
      y.Tokens wal tok shadowed := by
  obtain ⟨y, hy, ha, hty⟩ := foldlM_applyEntry hx hc
    (part.entries.zip part.prePromoteOffsets).zipIdx fun p hp =>
      hes p.1 (fst_mem_of_mem_zipIdx hp)
  refine ⟨y, ?_, ?_, hty⟩
  · rw [applyPromotedPartition, hy]
    rfl
  · have hmap : ((part.entries.zip part.prePromoteOffsets).zipIdx.map fun p => p.1.1) =
        part.entries := by
      have hcomp : (fun p : (SegmentEntry × Option ℕ) × ℕ => p.1.1) = Prod.fst ∘ Prod.fst := rfl
      rw [hcomp, ← map_map, zipIdx_map_fst, map_fst_zip hlen.le]
    rwa [hmap] at ha

end SegmentResult

/-! ## Claims -/

namespace SegmentEntry

/-- The entry's range and `[k, k + len)` have a block in common. -/
def Meets (e : SegmentEntry) (k len : ℕ) : Prop :=
  (k < e.startLba → e.startLba < k + len) ∧ (e.startLba ≤ k → k < e.startLba + e.lbaLength)

instance (e : SegmentEntry) (k len : ℕ) : Decidable (e.Meets k len) :=
  inferInstanceAs (Decidable ((_ → _) ∧ (_ → _)))

theorem Covers.meets {e : SegmentEntry} {x k len : ℕ} (h : e.Covers x) (h1 : k ≤ x)
    (h2 : x < k + len) : e.Meets k len := by
  rw [Covers] at h
  refine ⟨?_, ?_⟩ <;> omega

end SegmentEntry

namespace SegmentResult

/-- Some entry holds the extent's hash over one of its blocks. -/
def claims (es : List SegmentEntry) (k : ℕ) (e : MapEntry) : Bool :=
  es.any fun entry => decide (claimHash entry = e.hash ∧ entry.Meets k e.lbaLength)

variable (part : SegmentResult)

/-- **A segment's claims.** An extent passes to the segment, whole, if an entry of the segment holds
its hash over one of its blocks and its claimant is older. -/
theorem restampClaims_spec {m : LbaMap} (hm : m.Wf)
    (hes : ∀ e ∈ part.entries, e.kind.isCanonicalOnly = false) :
    (part.restampClaims m).Wf ∧ ∀ k, (part.restampClaims m).inner.get? k =
      (m.inner.get? k).map fun e =>
        if claims part.entries k e ∧ e.claimantUlid < part.segmentUlid then
          { e with claimantUlid := part.segmentUlid }
        else e := by
  rw [restampClaims]
  generalize part.entries = es at hes
  induction es generalizing m with
  | nil =>
    refine ⟨hm, fun k => ?_⟩
    cases hk : m.inner.get? k <;> simp [claims, hk]
  | cons entry es ih =>
    rw [foldl_cons, hes entry mem_cons_self]
    obtain ⟨hwf, hget⟩ := ih (m := (m.setClaimantIfMatches entry.startLba entry.lbaLength
      (claimHash entry) part.segmentUlid).1) hm.restamp fun e he => hes e (mem_cons_of_mem _ he)
    refine ⟨hwf, fun k => (hget k).trans ?_⟩
    rw [LbaMap.setClaimantIfMatches, LbaMap.restamp, LbaMap.get?_foldl_setClaimantAt]
    cases hk : m.inner.get? k with
    | none => rfl
    | some e =>
      have hkeys : k ∈ m.restampKeys entry.startLba (entry.startLba + entry.lbaLength)
          (claimHash entry) (fun existing => decide (existing < part.segmentUlid)) ↔
          (claimHash entry = e.hash ∧ entry.Meets k e.lbaLength) ∧
            e.claimantUlid < part.segmentUlid := by
        rw [hm.mem_restampKeys_iff hk, decide_eq_true_eq, SegmentEntry.Meets]
        tauto
      have hclaims : claims (entry :: es) k e =
          (decide (claimHash entry = e.hash ∧ entry.Meets k e.lbaLength) || claims es k e) := rfl
      simp only [Option.map_some, Option.some.injEq, hclaims, Bool.or_eq_true, decide_eq_true_eq]
      by_cases hin : (claimHash entry = e.hash ∧ entry.Meets k e.lbaLength) ∧
          e.claimantUlid < part.segmentUlid
      · rw [if_pos (hkeys.mpr hin), if_neg (fun h => lt_irrefl _ h.2), if_pos ⟨.inl hin.1, hin.2⟩]
      · rw [if_neg (hkeys.not.mpr hin)]
        exact if_congr (by tauto) rfl rfl

/-- Whatever a segment's claims are, no read moves. -/
theorem restampClaims_reads {m : LbaMap} (hm : m.Inv) :
    (part.restampClaims m).Inv ∧ ∀ x, (part.restampClaims m).lookup x = m.lookup x := by
  rw [restampClaims]
  generalize part.entries = es
  induction es generalizing m with
  | nil => exact ⟨hm, fun _ => rfl⟩
  | cons entry es ih =>
    rw [foldl_cons]
    split_ifs
    · exact ih hm
    · obtain ⟨hinv, hlook⟩ := ih (m := (m.setClaimantIfMatches entry.startLba entry.lbaLength
        (claimHash entry) part.segmentUlid).1) hm.restamp
      exact ⟨hinv, fun x => (hlook x).trans (hm.wf.lookup_restamp x)⟩

end SegmentResult

/-! ## Bodies -/

variable (e : SegmentEntry)

/-- The entry moves the DATA location of its hash off the WAL. -/
def SegmentEntry.movesBody : Bool :=
  match e.kind with
  | .delta => true
  | .dedupRef | .zero => false
  | .data | .inline | .canonicalData | .canonicalInline | .canonicalDelta => !e.journal

/-- The entry finds the body of `h` at its token in the WAL. -/
def SegmentEntry.Hits (tok : Option ℕ) (wal : Ulid) (x : ExtentIndex) (h : Hash) : Prop :=
  e.hash = h ∧ e.movesBody = true ∧ ∃ off, tok = some off ∧ x.IsAt h wal off

namespace SegmentResult

variable (part : SegmentResult) (wal : Ulid)

/-- From `x` to `y` the entry moves the one body it hits, into the segment or into a Delta. -/
def MovesBody (e : SegmentEntry) (tok : Option ℕ) (x y : ExtentIndex) : Prop :=
  ∀ h, (e.Hits tok wal x h →
      y.lookup h = if e.kind = .delta then none else some (part.location e)) ∧
    (¬ e.Hits tok wal x h → y.lookup h = x.lookup h)

variable {part wal} {e : SegmentEntry} {tok : Option ℕ} {x y : ExtentIndex}

theorem movesBody_of_inner_eq (hy : y.inner = x.inner) (hno : ∀ h, ¬ e.Hits tok wal x h) :
    part.MovesBody wal e tok x y :=
  fun h => ⟨fun hh => absurd hh (hno h), fun _ => congrArg (AList.lookup h) hy⟩

theorem hits_iff {off : ℕ} (hm : e.movesBody = true) {h : Hash} :
    e.Hits (some off) wal x h ↔ h = e.hash ∧ x.IsAt e.hash wal off := by
  constructor
  · rintro ⟨rfl, -, off', htok, hat⟩
    exact ⟨rfl, Option.some.inj htok ▸ hat⟩
  · rintro ⟨rfl, hat⟩
    exact ⟨rfl, hm, off, rfl, hat⟩

theorem movesBody_replace (hk : e.kind ≠ .delta) (hm : e.movesBody = true) (off : ℕ) :
    part.MovesBody wal e (some off) x
      (x.replaceIfMatches e.hash wal off (part.location e)).1 := by
  classical
  intro h
  rw [lookup_replaceIfMatches, hits_iff hm, if_neg hk]
  exact ⟨fun hh => if_pos hh, fun hh => if_neg hh⟩

theorem movesBody_remove (hk : e.kind = .delta) (off : ℕ)
    (hy : y.inner = (x.removeIfMatches e.hash wal off).1.inner) :
    part.MovesBody wal e (some off) x y := by
  classical
  intro h
  have hlook : y.lookup h = (x.removeIfMatches e.hash wal off).1.lookup h :=
    congrArg (AList.lookup h) hy
  rw [hlook, lookup_removeIfMatches, hits_iff (by rw [movesBody, hk]), if_pos hk]
  exact ⟨fun hh => if_pos hh, fun hh => if_neg hh⟩

/-- **One entry, on the DATA map.** -/
theorem movesBody_applyEntry (part : SegmentResult) (wal : Ulid) (x : ExtentIndex) (i : ℕ)
    (e : SegmentEntry) (tok : Option ℕ) :
    ∃ y, part.applyEntry wal x i e tok = .ok y ∧ part.MovesBody wal e tok x y := by
  have hstay : (e.movesBody = false ∨ tok = none) → part.MovesBody wal e tok x x := by
    intro h
    refine movesBody_of_inner_eq rfl ?_
    rintro k ⟨-, hm, off, htok, -⟩
    rcases h with h | h
    · cases h.symm.trans hm
    · cases h.symm.trans htok
  have hbody : e.kind ≠ .delta → e.kind ≠ .dedupRef → e.kind ≠ .zero →
      e.movesBody = !e.journal := by
    unfold movesBody
    cases hk : e.kind <;> simp_all
  unfold applyEntry
  cases hk : e.kind with
  | delta =>
    cases tok with
    | none => exact ⟨x, rfl, hstay (.inr rfl)⟩
    | some off =>
      refine ⟨_, ?_, movesBody_remove hk off (registerDelta_frame _ e i part.segmentUlid
        (.full part.bodySectionStart part.deltaRegionBodyLength) (.consumingInputs {wal})).1⟩
      simp [registerEntryConsumingInputs, registerEntry, hk, deltaCtx]
  | dedupRef | zero => exact ⟨x, rfl, hstay (.inl (by rw [movesBody, hk]))⟩
  | data | inline | canonicalData | canonicalInline | canonicalDelta =>
    have hm := hbody (by simp [hk]) (by simp [hk]) (by simp [hk])
    cases hj : e.journal with
    | true =>
      refine ⟨_, rfl, movesBody_of_inner_eq (rekeyJournal_frame _ _ _ _ _).1 ?_⟩
      rintro h ⟨-, hm', -⟩
      simp [hm, hj] at hm'
    | false =>
      cases tok with
      | none => exact ⟨x, rfl, hstay (.inr rfl)⟩
      | some off => exact ⟨_, rfl, movesBody_replace (by simp [hk]) (by simp [hm, hj]) off⟩

/-- No entry is refused: the segment of a Delta has a delta region. -/
theorem exists_applyPromotedPartition (part : SegmentResult) (wal : Ulid) (m : Maps) :
    ∃ y, part.applyPromotedPartition wal m = .ok ⟨part.restampClaims m.lbamap, y⟩ := by
  have hstep : ∀ (p : (SegmentEntry × Option ℕ) × ℕ) x,
      ∃ y, part.applyEntry wal x p.2 p.1.1 p.1.2 = .ok y ∧ True := fun p x =>
    (part.movesBody_applyEntry wal x p.2 p.1.1 p.1.2).imp fun _ h => ⟨h.1, trivial⟩
  obtain ⟨y, hy, -⟩ := Run.exists_foldlM_ok (g := fun _ => []) (P := fun (_ : List ℕ) _ => True)
    (l := (part.entries.zip part.prePromoteOffsets).zipIdx) (fun p _ _ x _ => hstep p x) []
    (s := m.extentIndex) trivial
  refine ⟨y, ?_⟩
  rw [applyPromotedPartition, hy]
  rfl

end SegmentResult

end Elide
