import Elide.ExtentIndex.Lookups

/-!
# What removals leave

`removeOwnerAt` takes a hash out of the maps in which a given segment owns it, and `removeInputOwned`
runs it over the hashes of one segment. `Disowns` says what such a loop leaves, over any list of pairs
of a hash and a segment: a location stays exactly if it is not on the list. The loop does not touch
the journal tier, the source records or the counts.
-/

namespace Elide

open List

namespace ExtentIndex

variable (x : ExtentIndex)

/-- `segment` owns `hash` in either map. -/
def ownerHere (x : ExtentIndex) (segment : Ulid) (hash : Hash) : Bool :=
  ((x.lookup hash).any fun loc => decide (loc.segmentId = segment)) ||
    (x.lookupDelta hash).any fun loc => decide (loc.segmentId = segment)

/-- The removal in closed form: each map loses the hash if the segment owns it there. -/
theorem removeOwnerAt_eq (hash : Hash) (segment : Ulid) : x.removeOwnerAt hash segment =
      ({ x with
          inner := if (x.lookup hash).any fun loc => decide (loc.segmentId = segment) then
              x.inner.erase hash else x.inner
          deltas := if (x.lookupDelta hash).any fun loc => decide (loc.segmentId = segment) then
              x.deltas.erase hash else x.deltas },
        x.ownerHere segment hash) := by
  simp only [removeOwnerAt, ownerHere, lookup, lookupDelta]
  by_cases h1 : ((x.inner.lookup hash).any fun loc => decide (loc.segmentId = segment)) = true <;>
    by_cases h2 : ((x.deltas.lookup hash).any fun loc => decide (loc.segmentId = segment)) = true <;>
    simp [h1, h2]

theorem lookup_eraseIf {β : Type*} (s : AList fun _ : Hash => β) (segment : β → Ulid) {hash h : Hash}
    {u : Ulid} {b : β} :
    (if (s.lookup hash).any fun b => decide (segment b = u) then s.erase hash else s).lookup h =
      some b ↔ s.lookup h = some b ∧ (h, segment b) ≠ (hash, u) := by
  by_cases hh : h = hash
  · subst hh
    cases hs : s.lookup h with
    | none => simp [hs]
    | some b' =>
      by_cases hu : segment b' = u
      · simp only [Option.any_some, hu, decide_true, if_true, AList.lookup_erase]
        constructor
        · exact nofun
        · rintro ⟨hb, hne⟩
          exact absurd (by rw [← Option.some.inj hb, hu]) hne
      · simp only [Option.any_some, hu, decide_false, Bool.false_eq_true, if_false, hs]
        exact ⟨fun hb => ⟨hb, fun heq => hu (by rw [Option.some.inj hb]; exact congrArg Prod.snd heq)⟩,
          And.left⟩
  · split_ifs <;> simp [hh]

theorem lookup_removeOwnerAt {hash h : Hash} {segment : Ulid} {loc : ExtentLocation} :
    (x.removeOwnerAt hash segment).1.lookup h = some loc ↔
      x.lookup h = some loc ∧ (h, loc.segmentId) ≠ (hash, segment) := by
  rw [removeOwnerAt_eq]
  exact lookup_eraseIf x.inner ExtentLocation.segmentId

theorem lookupDelta_removeOwnerAt {hash h : Hash} {segment : Ulid} {d : DeltaLocation} :
    (x.removeOwnerAt hash segment).1.lookupDelta h = some d ↔
      x.lookupDelta h = some d ∧ (h, d.segmentId) ≠ (hash, segment) := by
  rw [removeOwnerAt_eq]
  exact lookup_eraseIf x.deltas DeltaLocation.segmentId

section

variable {x : ExtentIndex} {h : Hash}

theorem ownerHere_of_lookup {loc : ExtentLocation} (hloc : x.lookup h = some loc) :
    x.ownerHere loc.segmentId h = true := by
  simp [ownerHere, hloc]

theorem ownerHere_of_lookupDelta {d : DeltaLocation} (hd : x.lookupDelta h = some d) :
    x.ownerHere d.segmentId h = true := by
  simp [ownerHere, hd]

theorem ownerHere_iff {u : Ulid} : x.ownerHere u h = true ↔
    (∃ loc, x.lookup h = some loc ∧ loc.segmentId = u) ∨
      ∃ d, x.lookupDelta h = some d ∧ d.segmentId = u := by
  simp [ownerHere, Option.any_eq_true]

end

/-! ## A list of removals -/

/-- What taking each hash of `owners` from the segment it comes with leaves of `x`. -/
structure Disowns (owners : List (Hash × Ulid)) (x y : ExtentIndex) (removed : Hash → Prop) :
    Prop where
  lookup : ∀ h loc, y.lookup h = some loc ↔ x.lookup h = some loc ∧ (h, loc.segmentId) ∉ owners
  lookupDelta : ∀ h d, y.lookupDelta h = some d ↔
    x.lookupDelta h = some d ∧ (h, d.segmentId) ∉ owners
  removed : ∀ h, removed h ↔ ∃ u, (h, u) ∈ owners ∧ x.ownerHere u h = true
  journal : y.journal = x.journal
  sources : y.deltaSources = x.deltaSources
  counts : y.deltaSourceCounts = x.deltaSourceCounts

namespace Disowns

variable {x y : ExtentIndex} {owners : List (Hash × Ulid)} {removed removed' : Hash → Prop}

theorem refl (x : ExtentIndex) (hremoved : ∀ h, ¬ removed h) : Disowns [] x x removed :=
  ⟨by simp, by simp, by simpa using hremoved, rfl, rfl, rfl⟩

theorem ownerHere_iff (h : Disowns owners x y removed) {k : Hash} {u : Ulid} :
    y.ownerHere u k = true ↔ x.ownerHere u k = true ∧ (k, u) ∉ owners := by
  simp only [ExtentIndex.ownerHere_iff, h.lookup, h.lookupDelta]
  constructor
  · rintro (⟨loc, ⟨hloc, hout⟩, rfl⟩ | ⟨d, ⟨hd, hout⟩, rfl⟩)
    · exact ⟨.inl ⟨loc, hloc, rfl⟩, hout⟩
    · exact ⟨.inr ⟨d, hd, rfl⟩, hout⟩
  · rintro ⟨⟨loc, hloc, rfl⟩ | ⟨d, hd, rfl⟩, hout⟩
    · exact .inl ⟨loc, ⟨hloc, hout⟩, rfl⟩
    · exact .inr ⟨d, ⟨hd, hout⟩, rfl⟩

/-- One more pair. -/
theorem snoc (h : Disowns owners x y removed) (k : Hash) (u : Ulid)
    (hremoved : ∀ j, removed' j ↔ removed j ∨ j = k ∧ (y.removeOwnerAt k u).2 = true) :
    Disowns (owners ++ [(k, u)]) x (y.removeOwnerAt k u).1 removed' where
  lookup j loc := by
    rw [lookup_removeOwnerAt, h.lookup, mem_append, mem_singleton, not_or, and_assoc]
  lookupDelta j d := by
    rw [lookupDelta_removeOwnerAt, h.lookupDelta, mem_append, mem_singleton, not_or, and_assoc]
  removed j := by
    rw [hremoved, h.removed, removeOwnerAt_eq, h.ownerHere_iff]
    constructor
    · rintro (⟨u', hmem, hown⟩ | ⟨rfl, hown, -⟩)
      · exact ⟨u', mem_append_left _ hmem, hown⟩
      · exact ⟨u, mem_append_right _ (mem_singleton_self _), hown⟩
    · rintro ⟨u', hmem, hown⟩
      by_cases hold : (j, u') ∈ owners
      · exact .inl ⟨u', hold, hown⟩
      · cases mem_singleton.mp ((mem_append.mp hmem).resolve_left hold)
        exact .inr ⟨rfl, hown, hold⟩
  journal := by rw [removeOwnerAt_eq]; exact h.journal
  sources := by rw [removeOwnerAt_eq]; exact h.sources
  counts := by rw [removeOwnerAt_eq]; exact h.counts

end Disowns

/-- **`removeInputOwned` removes what the input owns and `carried` does not keep.** -/
theorem disowns_removeInputOwned (input : Ulid) (owned : List Hash) (carried : Finset Hash) :
    Disowns ((owned.filter fun h => decide (h ∉ carried)).map fun h => (h, input)) x
      (x.removeInputOwned input owned carried).1
      (· ∈ (x.removeInputOwned input owned carried).2) := by
  induction owned using reverseRecOn with
  | nil => exact .refl x (by simp [removeInputOwned])
  | append_singleton owned k ih =>
    rw [removeInputOwned, foldl_append, ← removeInputOwned]
    by_cases hk : k ∈ carried
    · simpa [hk] using ih
    · simp only [hk, filter_append, map_append, filter_cons, filter_nil, foldl_cons, foldl_nil,
        not_false_eq_true, decide_true, if_true, if_false, map_cons, map_nil]
      refine ih.snoc k input fun j => ?_
      split_ifs with hgone <;> simp [hgone]

end ExtentIndex

end Elide
