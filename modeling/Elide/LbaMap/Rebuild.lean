import Elide.LbaMap.Refinement

/-!
# Rebuilding the LBA map from segments

`LbaMapBuilder` is fed every segment a walk finds and admits claims in two phases. Flush-tier
segments, which record no inputs, are registered as they come, highest claimant first;
compaction outputs wait for the end of the layer and are then registered in ULID order under the
horizon of their inputs.

The first phase is order independent, although the fragments it leaves are not: what one block
ends up with is decided by the ULIDs and entry orders of the segments that cover it alone. The
invariant is `SegmentFile.Newest`, and it holds after any number of visits in any order.

## Main results

* `LbaMap.Inv.lookup_register` — one segment registered, whatever the admission
* `LbaMapBuilder.flush_rebuild_newest` — the rebuild picks the newest write in any order
-/

namespace Elide

open List Blocking LbaMap

/-- A committed segment: its ULID, the inputs it was compacted from and its entries. -/
structure SegmentFile where
  ulid : Ulid
  inputs : List Ulid
  entries : List SegmentEntry
  deriving DecidableEq

/-- Builds an LBA map from a segment walk. -/
structure LbaMapBuilder where
  map : LbaMap
  /-- The highest ULID whose entries reached the map. -/
  ceiling : Option Ulid
  /-- Compaction outputs that wait for the end of the layer: ULID, horizon and entries. -/
  outputs : List (Ulid × Ulid × List SegmentEntry)

namespace LbaMapBuilder

/-- Nothing visited. -/
def new : LbaMapBuilder := ⟨.new, none, []⟩

variable (b : LbaMapBuilder)

/-- Take a segment: an output is put off, another registered at once. -/
def visit (seg : SegmentFile) : LbaMapBuilder :=
  let ceiling := max b.ceiling (some seg.ulid)
  match seg.inputs.max? with
  | some horizon =>
    { b with ceiling, outputs := b.outputs ++ [(seg.ulid, horizon, seg.entries)] }
  | none =>
    { b with
      ceiling
      map := seg.entries.foldl (fun m entry => (m.registerEntryIfNewer entry seg.ulid).1) b.map }

/-- Admit the waiting outputs, ULID ascending. -/
def endLayer : LbaMapBuilder :=
  let outputs := b.outputs.mergeSort fun a b => decide (a.1 ≤ b.1)
  { b with
    outputs := []
    map := outputs.foldl (fun m (ulid, horizon, entries) =>
      entries.foldl (fun m entry => (m.registerEntryWithHorizon entry ulid horizon).1) m) b.map }

/-- The map, and the highest ULID seen. -/
def finish : LbaMap × Option Ulid := (b.map, b.ceiling)

/-- A walk over one layer. -/
def build (segs : List SegmentFile) : LbaMap := ((segs.foldl visit new).endLayer.finish).1

end LbaMapBuilder

/-! ## What a segment claims -/

/-- The entry makes a claim on `lba`. -/
def SegmentEntry.Claims (e : SegmentEntry) (lba : ℕ) : Prop :=
  e.kind.isCanonicalOnly = false ∧ e.Covers lba

instance (e : SegmentEntry) (lba : ℕ) : Decidable (e.Claims lba) :=
  inferInstanceAs (Decidable (_ ∧ _))

/-- The last entry, in write order, that claims `lba`. -/
def lastClaim (entries : List SegmentEntry) (lba : ℕ) : Option SegmentEntry :=
  entries.reverse.find? fun e => decide (e.Claims lba)

theorem lastClaim_append_singleton (es : List SegmentEntry) (e : SegmentEntry) (x : ℕ) :
    lastClaim (es ++ [e]) x = if e.Claims x then some e else lastClaim es x := by
  simp only [lastClaim]
  by_cases h : e.Claims x <;> simp [h]

/-- The value block `x` reads from an entry claimed by `u`. -/
def SegmentEntry.valueAt (e : SegmentEntry) (u : Ulid) (x : ℕ) : Hash × ℕ × Ulid :=
  (e.hash, x - e.startLba, u)

/-- `r` is the claim of the last entry for `x` in the segment of the highest ULID that has one. -/
def SegmentFile.Newest (segs : List SegmentFile) (x : ℕ) (r : Option (Hash × ℕ × Ulid)) : Prop :=
  (r = none ∧ ∀ seg ∈ segs, lastClaim seg.entries x = none) ∨
    ∃ seg ∈ segs, ∃ e, lastClaim seg.entries x = some e ∧ r = some (e.valueAt seg.ulid x) ∧
      ∀ seg' ∈ segs, (lastClaim seg'.entries x).isSome → seg'.ulid ≤ seg.ulid

theorem SegmentFile.Newest.unique {segs : List SegmentFile}
    (hdistinct : ∀ s ∈ segs, ∀ t ∈ segs, s.ulid = t.ulid → s = t) {x : ℕ}
    {r r' : Option (Hash × ℕ × Ulid)} (h : Newest segs x r) (h' : Newest segs x r') : r = r' := by
  rcases h with ⟨rfl, hnone⟩ | ⟨s, hs, e, he, rfl, hmax⟩
  · rcases h' with ⟨rfl, -⟩ | ⟨t, ht, e', he', -⟩
    · rfl
    · simp [hnone t ht] at he'
  · rcases h' with ⟨rfl, hnone⟩ | ⟨t, ht, e', he', rfl, hmax'⟩
    · simp [hnone s hs] at he
    · obtain rfl := hdistinct s hs t ht
        (le_antisymm (hmax' s hs (by simp [he])) (hmax t ht (by simp [he'])))
      obtain rfl := Option.mem_unique he he'
      rfl

/-! ## Registering one segment -/

/-- Whether the claim `v` gives way to an entry of `hash` by claimant `u`. -/
def Admission.admits (a : Admission) (u : Ulid) (hash : Hash) (v : Hash × ℕ × Ulid) : Bool :=
  match a with
  | .unconditional => true
  | .ifNewer => !higher.blocks u hash v.2.2 v.1
  | .consumingInputs inputs => !(consuming inputs).blocks u hash v.2.2 v.1
  | .outputHorizon horizon => !(aboveHorizon horizon).blocks u hash v.2.2 v.1

/-- No segment is in the way of its own later entries. -/
theorem Admission.admits_own (a : Admission) (hash : Hash) (v : Hash × ℕ × Ulid) :
    a.admits v.2.2 hash v = true := by
  cases a <;> simp [admits, blocks]

namespace SegmentFile

variable (seg : SegmentFile)

/-- Register the entries of a segment in order. -/
def register (a : Admission) (m : LbaMap) : LbaMap :=
  seg.entries.foldl (fun m entry => (m.registerEntryInner entry seg.ulid a).1) m

/-- What the segment claims block `x` for. -/
def claim (x : ℕ) : Option (Hash × ℕ × Ulid) :=
  (lastClaim seg.entries x).map fun e => e.valueAt seg.ulid x

/-- The claim `v` on block `x` gives way to one of the segment's entries, and so to all after it. -/
def Takes (a : Admission) (x : ℕ) (v : Hash × ℕ × Ulid) : Prop :=
  ∃ e ∈ seg.entries, e.Claims x ∧ a.admits seg.ulid e.hash v = true

instance (a : Admission) (x : ℕ) (v : Hash × ℕ × Ulid) :
    Decidable (seg.Takes a x v) := inferInstanceAs (Decidable (∃ e ∈ seg.entries, _ ∧ _))

variable {u : Ulid} {inputs : List Ulid} {es : List SegmentEntry} {e : SegmentEntry}

theorem claim_snoc (x : ℕ) : claim ⟨u, inputs, es ++ [e]⟩ x =
    if e.Claims x then some (e.valueAt u x) else claim ⟨u, inputs, es⟩ x := by
  simp only [claim, lastClaim_append_singleton]
  split_ifs <;> rfl

variable {x : ℕ} {v : Hash × ℕ × Ulid}

theorem takes_snoc {a : Admission} : Takes ⟨u, inputs, es ++ [e]⟩ a x v ↔
      Takes ⟨u, inputs, es⟩ a x v ∨ e.Claims x ∧ a.admits u e.hash v = true := by
  simp [Takes]

variable {seg : SegmentFile}

theorem isSome_claim_iff : (seg.claim x).isSome = true ↔ ∃ e ∈ seg.entries, e.Claims x := by
  simp [claim, lastClaim]

theorem Takes.isSome_claim {a : Admission} (h : seg.Takes a x v) : (seg.claim x).isSome = true := by
  obtain ⟨e, he, hc, -⟩ := h
  exact isSome_claim_iff.mpr ⟨e, he, hc⟩

theorem ulid_of_claim (h : seg.claim x = some v) : v.2.2 = seg.ulid := by
  obtain ⟨e, -, rfl⟩ := Option.map_eq_some_iff.mp h
  rfl

end SegmentFile

namespace LbaMap

variable {m : LbaMap}

/-- One registration, block by block. -/
theorem Inv.lookup_registerEntryInner (hm : m.Inv) {e : SegmentEntry} (he : EntryFits e) (u : Ulid)
    (a : Admission) (x : ℕ) :
    (m.registerEntryInner e u a).1.lookupWithClaimant x =
      if e.Claims x ∧ ∀ v ∈ m.lookupWithClaimant x, a.admits u e.hash v = true then
        some (e.valueAt u x)
      else m.lookupWithClaimant x := by
  unfold registerEntryInner
  cases hk : e.kind.isCanonicalOnly with
  | true => simp [SegmentEntry.Claims, hk]
  | false =>
    have hclaims : e.Claims x ↔ e.startLba ≤ x ∧ x < e.startLba + e.lbaLength := by
      simp [SegmentEntry.Claims, hk, SegmentEntry.Covers]
    have hguarded : ∀ b : Blocking, (∀ v, a.admits u e.hash v = !b.blocks u e.hash v.2.2 v.1) →
        (m.insertInnerIfNewer e.startLba e.lbaLength e.hash u b).1.lookupWithClaimant x =
          if e.Claims x ∧ ∀ v ∈ m.lookupWithClaimant x, a.admits u e.hash v = true then
            some (e.valueAt u x)
          else m.lookupWithClaimant x := by
      intro b hb
      rw [hm.lookupWithClaimant_insertInnerIfNewer (he hk).1]
      refine if_congr ?_ rfl rfl
      simp [hclaims, Admits, hb, and_assoc]
    simp only [Bool.false_eq_true, if_false]
    cases a with
    | unconditional =>
      rw [insert, hm.lookupWithClaimant_insertInner (he hk).1]
      refine if_congr ?_ (by rw [Nat.zero_add]; rfl) rfl
      simp [hclaims, Admission.admits]
    | ifNewer => exact hguarded .higher fun _ => rfl
    | consumingInputs inputs => exact hguarded (.consuming inputs) fun _ => rfl
    | outputHorizon horizon => exact hguarded (.aboveHorizon horizon) fun _ => rfl

/-- **One segment, whatever the admission**: its last claim on a block takes it, unless what holds
the block gives way to none of its entries there. -/
theorem Inv.lookup_register (hm : m.Inv) (seg : SegmentFile) (hseg : ∀ e ∈ seg.entries, EntryFits e)
    (a : Admission) :
    (seg.register a m).Inv ∧ ∀ x, (seg.register a m).lookupWithClaimant x =
      if (seg.claim x).isSome ∧ ∀ v ∈ m.lookupWithClaimant x, seg.Takes a x v then seg.claim x
      else m.lookupWithClaimant x := by
  obtain ⟨u, inputs, es⟩ := seg
  induction es using List.reverseRecOn with
  | nil => exact ⟨hm, fun x => rfl⟩
  | append_singleton es e ih =>
    obtain ⟨hinv, hlook⟩ := ih fun e' he' => hseg e' (mem_append_left _ he')
    have he := hseg e (mem_append_right _ (mem_singleton_self e))
    have hsnoc : SegmentFile.register ⟨u, inputs, es ++ [e]⟩ a m =
        ((SegmentFile.register ⟨u, inputs, es⟩ a m).registerEntryInner e u a).1 := by
      simp [SegmentFile.register]
    rw [hsnoc]
    refine ⟨(hinv.register_spec he u a).1, fun x => ?_⟩
    rw [hinv.lookup_registerEntryInner he, hlook x]
    simp only [SegmentFile.claim_snoc, SegmentFile.takes_snoc]
    by_cases hc : e.Claims x
    · simp only [hc, true_and, if_true, Option.isSome_some]
      by_cases htaken : (SegmentFile.claim ⟨u, inputs, es⟩ x).isSome ∧
          ∀ v ∈ m.lookupWithClaimant x, SegmentFile.Takes ⟨u, inputs, es⟩ a x v
      · -- an earlier entry of the segment is never in the way
        rw [if_pos htaken, if_pos, if_pos fun v hv => .inl (htaken.2 v hv)]
        intro v hv
        have hown := a.admits_own e.hash v
        rwa [SegmentFile.ulid_of_claim hv] at hown
      · rw [if_neg htaken]
        refine if_congr ⟨fun h v hv => .inr (h v hv), fun h v hv => ?_⟩ rfl rfl
        refine (h v hv).resolve_left fun htakes => htaken ⟨htakes.isSome_claim, fun v' hv' => ?_⟩
        rw [Option.mem_unique hv' hv]
        exact htakes
    · simp only [hc, false_and, if_false, or_false]

theorem Inv.lookup_register_unconditional (hm : m.Inv) (seg : SegmentFile)
    (hseg : ∀ e ∈ seg.entries, EntryFits e) : (seg.register .unconditional m).Inv ∧
      ∀ x, (seg.register .unconditional m).lookupWithClaimant x =
        (seg.claim x).or (m.lookupWithClaimant x) := by
  obtain ⟨hinv, hlook⟩ := hm.lookup_register seg hseg .unconditional
  refine ⟨hinv, fun x => (hlook x).trans ?_⟩
  split_ifs with hx
  · exact (Option.or_of_isSome hx.1).symm
  · have hnone : seg.claim x = none := by
      rw [← Option.not_isSome_iff_eq_none]
      intro hsome
      obtain ⟨e, he, hc⟩ := SegmentFile.isSome_claim_iff.mp hsome
      exact hx ⟨hsome, fun v _ => ⟨e, he, hc, rfl⟩⟩
    rw [hnone, Option.none_or]

/-- **One segment under the `Higher` rule**: its last claim on a block takes it, unless a higher
claimant holds it. -/
theorem Inv.lookup_foldl_registerIfNewer (hm : m.Inv) {es : List SegmentEntry}
    (hes : ∀ e ∈ es, EntryFits e) (u : Ulid) :
    (es.foldl (fun m e => (m.registerEntryIfNewer e u).1) m).Inv ∧
      ∀ x, (es.foldl (fun m e => (m.registerEntryIfNewer e u).1) m).lookupWithClaimant x =
        match lastClaim es x with
        | some e =>
          if ∀ v ∈ m.lookupWithClaimant x, v.2.2 ≤ u then some (e.valueAt u x)
          else m.lookupWithClaimant x
        | none => m.lookupWithClaimant x := by
  obtain ⟨hinv, hlook⟩ := hm.lookup_register ⟨u, [], es⟩ hes .ifNewer
  refine ⟨hinv, fun x => (hlook x).trans ?_⟩
  rw [SegmentFile.claim]
  cases hlast : lastClaim es x with
  | none => exact if_neg fun h => absurd h.1 (by simp)
  | some e =>
    have he := mem_reverse.mp (mem_of_find?_eq_some hlast)
    have hc : e.Claims x :=
      of_decide_eq_true (List.find?_some (p := fun e : SegmentEntry => decide (e.Claims x)) hlast)
    refine if_congr ?_ rfl rfl
    simp only [Option.map_some, Option.isSome_some, true_and]
    refine forall₂_congr fun v _ => ⟨fun ⟨_, _, _, h⟩ => ?_, fun h => ⟨e, he, hc, ?_⟩⟩
    · simpa [Admission.admits, blocks] using h
    · simpa [Admission.admits, blocks] using h

end LbaMap

/-! ## The flush tier -/

namespace LbaMapBuilder

/-- A flush-tier segment with claims that fit. -/
def Flush (seg : SegmentFile) : Prop := seg.inputs = [] ∧ ∀ e ∈ seg.entries, LbaMap.EntryFits e

theorem visit_of_flush (b : LbaMapBuilder) {seg : SegmentFile} (hseg : Flush seg) :
    b.visit seg = { b with
      ceiling := max b.ceiling (some seg.ulid)
      map := seg.entries.foldl (fun m entry => (m.registerEntryIfNewer entry seg.ulid).1) b.map } := by
  simp [visit, hseg.1]

/-- After any flush-tier visits, each block holds the newest of its claims. -/
theorem newest_foldl_visit (segs : List SegmentFile) (hsegs : ∀ seg ∈ segs, Flush seg) :
    (segs.foldl visit new).map.Inv ∧ (segs.foldl visit new).outputs = [] ∧
      ∀ x, SegmentFile.Newest segs x ((segs.foldl visit new).map.lookupWithClaimant x) := by
  induction segs using List.reverseRecOn with
  | nil => exact ⟨inv_new, rfl, fun x => .inl ⟨rfl, by simp⟩⟩
  | append_singleton segs seg ih =>
    obtain ⟨hinv, hout, hnew⟩ := ih fun s hs => hsegs s (mem_append_left _ hs)
    have hseg := hsegs seg (mem_append_right _ (mem_singleton_self seg))
    obtain ⟨hinv', hlook⟩ := hinv.lookup_foldl_registerIfNewer hseg.2 seg.ulid
    simp only [foldl_append, foldl_cons, foldl_nil, visit_of_flush _ hseg]
    refine ⟨hinv', hout, fun x => ?_⟩
    have hmem : ∀ {P : SegmentFile → Prop}, (∀ s ∈ segs, P s) → P seg → ∀ s ∈ segs ++ [seg], P s :=
      fun h1 h2 => forall_mem_append.mpr ⟨h1, forall_mem_singleton.mpr h2⟩
    have hin : ∀ s ∈ segs, s ∈ segs ++ [seg] := fun s hs => mem_append_left _ hs
    rw [hlook x]
    cases hlast : lastClaim seg.entries x with
    | none =>
      rcases hnew x with ⟨hr, hnone⟩ | ⟨s, hs, e, he, hr, hmax⟩
      · exact .inl ⟨hr, hmem hnone hlast⟩
      · exact .inr ⟨s, hin s hs, e, he, hr, hmem hmax (by simp [hlast])⟩
    | some e =>
      split_ifs with hle
      · -- the segment takes the block
        refine .inr ⟨seg, mem_append_right _ (mem_singleton_self seg), e, hlast, rfl,
          hmem (fun s hs hsome => ?_) fun _ => le_refl _⟩
        rcases hnew x with ⟨-, hnone⟩ | ⟨t, ht, e', he', hr, hmax⟩
        · simp [hnone s hs] at hsome
        · exact le_trans (hmax s hs hsome) (hle _ hr)
      · -- a higher claimant holds it
        rcases hnew x with ⟨hr, -⟩ | ⟨t, ht, e', he', hr, hmax⟩
        · exact absurd (by simp [hr]) hle
        · refine .inr ⟨t, hin t ht, e', he', hr, hmem hmax fun _ => ?_⟩
          by_contra hlt
          refine hle fun v hv => ?_
          rw [hr, Option.mem_some_iff] at hv
          subst hv
          exact (not_le.mp hlt).le

theorem build_of_no_outputs {segs : List SegmentFile} (h : (segs.foldl visit new).outputs = []) :
    build segs = (segs.foldl visit new).map := by
  simp [build, finish, endLayer, h]

theorem lookup_build_nil (x : ℕ) : (build []).lookup x = none := by
  rw [build_of_no_outputs rfl]
  rfl

theorem newest_build {segs : List SegmentFile} (hsegs : ∀ seg ∈ segs, Flush seg) :
    (build segs).Inv ∧ ∀ x, SegmentFile.Newest segs x ((build segs).lookupWithClaimant x) := by
  obtain ⟨hinv, hout, hnew⟩ := newest_foldl_visit segs hsegs
  rw [build_of_no_outputs hout]
  exact ⟨hinv, hnew⟩

/-- Segments above all the others answer first. -/
theorem lookup_build_append {old new : List SegmentFile} (hflush : ∀ seg ∈ old ++ new, Flush seg)
    (hdistinct : ∀ s ∈ old ++ new, ∀ t ∈ old ++ new, s.ulid = t.ulid → s = t)
    (hlt : ∀ s ∈ old, ∀ t ∈ new, s.ulid < t.ulid) (x : ℕ) :
    (build (old ++ new)).lookup x = ((build new).lookup x).or ((build old).lookup x) := by
  have hold : ∀ s ∈ old, s ∈ old ++ new := fun s hs => mem_append_left _ hs
  have hnew : ∀ s ∈ new, s ∈ old ++ new := fun s hs => mem_append_right _ hs
  suffices h : SegmentFile.Newest (old ++ new) x
      (((build new).lookupWithClaimant x).or ((build old).lookupWithClaimant x)) by
    rw [lookup_eq_map, ((newest_build hflush).2 x).unique hdistinct h, Option.map_or,
      lookup_eq_map, lookup_eq_map]
  rcases (newest_build fun s hs => hflush s (hnew s hs)).2 x with ⟨hr, hnone⟩ |
    ⟨s, hs, e, he, hr, hmax⟩
  · rw [hr]
    rcases (newest_build fun s hs => hflush s (hold s hs)).2 x with ⟨hr', hnone'⟩ |
      ⟨s, hs, e, he, hr', hmax⟩
    · refine .inl ⟨hr', fun t ht => ?_⟩
      exact (mem_append.mp ht).elim (hnone' t) (hnone t)
    · refine .inr ⟨s, hold s hs, e, he, hr', fun t ht hsome => ?_⟩
      rcases mem_append.mp ht with ht | ht
      · exact hmax t ht hsome
      · rw [hnone t ht] at hsome
        cases hsome
  · rw [hr]
    refine .inr ⟨s, hnew s hs, e, he, rfl, fun t ht hsome => ?_⟩
    rcases mem_append.mp ht with ht | ht
    · exact (hlt t ht s hs).le
    · exact hmax t ht hsome

theorem lookup_build_singleton {seg : SegmentFile} (hseg : Flush seg) (x : ℕ) :
    (build [seg]).lookup x = (lastClaim seg.entries x).map fun e => (e.hash, x - e.startLba) := by
  rw [lookup_eq_map]
  have hflush : ∀ s ∈ [seg], Flush s := fun s hs => mem_singleton.mp hs ▸ hseg
  rcases (newest_build hflush).2 x with ⟨hr, hnone⟩ | ⟨s, hs, e, he, hr, -⟩
  · rw [hr, hnone seg (mem_singleton_self seg)]
    rfl
  · obtain rfl := mem_singleton.mp hs
    rw [hr, he]
    rfl

/-- **Flush-tier rebuild is order independent and picks the newest write.** However often and in
whatever order the segments of a family are visited, each block holds the last claim of the
highest-ULID segment that covers it, so any two such walks agree. -/
theorem flush_rebuild_newest {segs : List SegmentFile} (hflush : ∀ seg ∈ segs, Flush seg)
    (hdistinct : ∀ s ∈ segs, ∀ t ∈ segs, s.ulid = t.ulid → s = t) :
    (∀ visits : List SegmentFile, (∀ seg, seg ∈ visits ↔ seg ∈ segs) → ∀ lba,
      SegmentFile.Newest segs lba ((build visits).lookupWithClaimant lba)) ∧
    (∀ visits visits' : List SegmentFile, (∀ seg, seg ∈ visits ↔ seg ∈ segs) →
      (∀ seg, seg ∈ visits' ↔ seg ∈ segs) → ∀ lba,
        (build visits).lookupWithClaimant lba = (build visits').lookupWithClaimant lba) := by
  have hnew : ∀ visits : List SegmentFile, (∀ seg, seg ∈ visits ↔ seg ∈ segs) → ∀ lba,
      SegmentFile.Newest segs lba ((build visits).lookupWithClaimant lba) := by
    intro visits hvisits lba
    obtain ⟨-, hnew⟩ := newest_build fun seg hseg => hflush seg ((hvisits seg).mp hseg)
    -- `Newest` asks only which segments there are
    rcases hnew lba with ⟨hr, hnone⟩ | ⟨s, hs, e, he, hr, hmax⟩
    · exact .inl ⟨hr, fun seg hseg => hnone seg ((hvisits seg).mpr hseg)⟩
    · exact .inr ⟨s, (hvisits s).mp hs, e, he, hr, fun seg hseg =>
        hmax seg ((hvisits seg).mpr hseg)⟩
  exact ⟨hnew, fun visits visits' h h' lba => (hnew visits h lba).unique hdistinct (hnew visits' h' lba)⟩

/-- The lower segment visited first, or last and twice. -/
theorem flush_rebuild_newest_revisited : let low : SegmentFile := ⟨3, [], [.newDedupRef 2 2 4]⟩
    let high : SegmentFile := ⟨5, [], [.newDedupRef 1 0 4]⟩
    ∀ lba, (build [low, high]).lookupWithClaimant lba =
      (build [high, low, low]).lookupWithClaimant lba := by
  intro low high
  have hflush : ∀ seg ∈ [low, high], Flush seg := by
    intro seg hseg
    simp only [mem_cons, not_mem_nil, or_false] at hseg
    rcases hseg with rfl | rfl
    · exact ⟨rfl, by simp only [low]; decide⟩
    · exact ⟨rfl, by simp only [high]; decide⟩
  have hdistinct : ∀ s ∈ [low, high], ∀ t ∈ [low, high], s.ulid = t.ulid → s = t := by decide
  exact (flush_rebuild_newest hflush hdistinct).2 [low, high] [high, low, low] (fun _ => Iff.rfl)
    fun seg => by simp only [mem_cons, not_mem_nil, or_false, or_self]; exact or_comm

end LbaMapBuilder

end Elide
