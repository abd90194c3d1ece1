import Elide.LbaMap.Tiles

/-!
# Restamping claimants

`setClaimantIfMatches` and `setClaimantConsumingInput` walk a range and rewrite the claimant of
the entries that hold an expected hash. They move no extent and no hash: a lookup without its
claimant is unchanged everywhere, which is what lets a promote restamp the map readers are using.

The unit of a restamp is the entry, not the block. A predecessor that reaches one block into the
range is restamped as a whole, blocks outside the range included.

## Main results

* `LbaMap.Inv.restamp` — the invariant is kept
* `LbaMap.Inv.lookupWithClaimant_restamp` — which claims move
* `LbaMap.Inv.lookup_restamp` — no read moves
-/

namespace Elide

open OrdMap Option List

namespace LbaMap

variable {m : LbaMap} {s stop : ℕ} {c : Ulid}

/-- One restamp rewrites the claimant of one entry. -/
theorem get?_setClaimantAt (m : LbaMap) (c : Ulid) (k j : ℕ) : (setClaimantAt c m k).inner.get? j =
      (m.inner.get? j).map fun e => if j = k then { e with claimantUlid := c } else e := by
  rw [setClaimantAt]
  cases hk : m.inner.get? k with
  | none =>
    by_cases hj : j = k
    · subst hj; simp [hk]
    · simp [hj]
  | some e =>
    rw [get?_insert]
    by_cases hj : j = k
    · subst hj; simp [hk]
    · simp [hj]

/-- The claims counted are the same before and after. -/
theorem Counted.setClaimantAt (hm : m.Counted) (c : Ulid) (k : ℕ) :
    (setClaimantAt c m k).Counted := by
  rw [LbaMap.setClaimantAt]
  cases hk : m.inner.get? k with
  | none => exact hm
  | some e =>
    refine ⟨hm.exact.perm ?_, hm.asserts⟩
    have herased : (m.inner.erase k).get? k = none := by simp [get?_erase]
    have hsame : m.inner.insert k { e with claimantUlid := c } =
        (m.inner.erase k).insert k { e with claimantUlid := c } := by
      refine ext_get? fun j => ?_
      by_cases hj : j = k <;> simp [get?_insert, get?_erase, hj]
    have hold := (entries_erase_perm hk).map fun e => e.2.hash
    have hnew := (entries_insert_perm { e with claimantUlid := c } herased).map fun e => e.2.hash
    rw [← hsame] at hnew
    exact hold.trans hnew.symm

theorem get?_foldl_setClaimantAt (m : LbaMap) (c : Ulid) (ks : List ℕ) (j : ℕ) :
    (ks.foldl (setClaimantAt c) m).inner.get? j =
      (m.inner.get? j).map fun e => if j ∈ ks then { e with claimantUlid := c } else e := by
  induction ks generalizing m with
  | nil => cases hg : m.inner.get? j <;> simp [hg]
  | cons k ks ih =>
    rw [foldl_cons, ih, get?_setClaimantAt]
    cases m.inner.get? j with
    | none => rfl
    | some e =>
      by_cases hj : j = k
      · subst hj; by_cases hks : j ∈ ks <;> simp
      · by_cases hks : j ∈ ks <;> simp [hj]

theorem Counted.foldl_setClaimantAt (hm : m.Counted) (c : Ulid) (ks : List ℕ) :
    (ks.foldl (LbaMap.setClaimantAt c) m).Counted := by
  induction ks generalizing m with
  | nil => exact hm
  | cons k ks ih => exact ih (hm.setClaimantAt c k)

/-- The keys listed are those of the entries that meet the range, hold the hash and give way. -/
theorem Wf.mem_restampKeys_iff (hm : m.Wf) {expected : Hash}
    {promotes : Ulid → Bool} {k : ℕ} {e : MapEntry} (hget : m.inner.get? k = some e) :
    k ∈ m.restampKeys s stop expected promotes ↔
      (k < s → s < k + e.lbaLength) ∧ (s ≤ k → k < stop) ∧ e.hash = expected ∧
        promotes e.claimantUlid = true := by
  rw [restampKeys, mem_append, mem_filterMap]
  -- the keys of the range
  refine (or_congr_right (c := s ≤ k ∧ k < stop ∧ e.hash = expected ∧
    promotes e.claimantUlid = true) ⟨?_, ?_⟩).trans ⟨?_, ?_⟩
  · rintro ⟨⟨j, e'⟩, hmem, hj⟩
    obtain ⟨hg, h1, h2⟩ := mem_range_iff.mp hmem
    dsimp only at hj
    split_ifs at hj with hcond
    obtain rfl : j = k := some.inj hj
    obtain rfl : e = e' := mem_unique hget hg
    exact ⟨h1, h2, hcond⟩
  · rintro ⟨h1, h2, hcond⟩
    exact ⟨(k, e), mem_range_iff.mpr ⟨hget, h1, h2⟩, if_pos hcond⟩
  · rintro (hpred | ⟨h1, h2, hcond⟩)
    · cases hp : m.inner.pred? s with
      | none => simp [hp] at hpred
      | some p =>
        obtain ⟨j, e'⟩ := p
        obtain ⟨hg, hjs, -⟩ := pred?_eq_some_iff.mp hp
        simp only [hp] at hpred
        split_ifs at hpred with hcond
        · obtain rfl := mem_singleton.mp hpred
          obtain rfl : e = e' := mem_unique hget hg
          exact ⟨fun _ => hcond.1, fun h => by omega, hcond.2⟩
        · simp at hpred
    · exact ⟨fun h => by omega, fun _ => h2, hcond⟩
  · rintro ⟨hreach, hbelow, hcond⟩
    by_cases hks : s ≤ k
    · exact .inr ⟨hks, hbelow hks, hcond⟩
    · -- an entry from below that reaches past `s` is the predecessor
      have hreach := hreach (by omega)
      have hp := hm.pred?_of_reaches hget (not_le.mp hks) hreach
      left
      simp only [hp]
      rw [if_pos ⟨hreach, hcond⟩]
      exact mem_singleton_self k

variable {expected : Hash} {promotes : Ulid → Bool}

/-- An entry of the restamped map is an entry of the old one, up to its claimant. -/
theorem coveredBy_restamp_iff {x k : ℕ} {e' : MapEntry} :
    (m.restamp s stop expected c promotes).1.CoveredBy x k e' ↔
      ∃ e, m.CoveredBy x k e ∧ e' = if k ∈ m.restampKeys s stop expected promotes then
        { e with claimantUlid := c } else e := by
  simp only [CoveredBy, restamp, get?_foldl_setClaimantAt, map_eq_some_iff]
  constructor
  · rintro ⟨⟨e, hg, rfl⟩, h1, h2⟩
    refine ⟨e, ⟨hg, h1, ?_⟩, rfl⟩
    split_ifs at h2 <;> exact h2
  · rintro ⟨e, ⟨hg, h1, h2⟩, rfl⟩
    exact ⟨⟨e, hg, rfl⟩, h1, by split_ifs <;> exact h2⟩

theorem Wf.restamp (hm : m.Wf) : (m.restamp s stop expected c promotes).1.Wf := by
  have hlen : ∀ {k e'}, (m.restamp s stop expected c promotes).1.inner.get? k = some e' →
      ∃ e, m.inner.get? k = some e ∧ e'.lbaLength = e.lbaLength := by
    intro k e' hk
    rw [LbaMap.restamp, get?_foldl_setClaimantAt, map_eq_some_iff] at hk
    obtain ⟨e, hg, rfl⟩ := hk
    exact ⟨e, hg, by split_ifs <;> rfl⟩
  refine ⟨fun hk => ?_, fun hk hk' hlt => ?_⟩
  · obtain ⟨e, hg, hl⟩ := hlen hk
    rw [hl]
    exact hm.pos hg
  · obtain ⟨e, hg, hl⟩ := hlen hk
    obtain ⟨e', hg', -⟩ := hlen hk'
    rw [hl]
    exact hm.disjoint hg hg' hlt

theorem Inv.restamp (hm : m.Inv) : (m.restamp s stop expected c promotes).1.Inv :=
  ⟨hm.wf.restamp, hm.counted.foldl_setClaimantAt c _⟩

/-- **A restamp changes claimants only**, and those of the entries `restampKeys` lists. -/
theorem Wf.lookupWithClaimant_restamp (hm : m.Wf) {x k : ℕ} {e : MapEntry}
    (hc : m.CoveredBy x k e) :
    (m.restamp s stop expected c promotes).1.lookupWithClaimant x =
      some (e.hash, e.payloadBlockOffset + (x - k),
        if k ∈ m.restampKeys s stop expected promotes then c else e.claimantUlid) := by
  rw [hm.restamp.lookupWithClaimant_of_coveredBy (coveredBy_restamp_iff.mpr ⟨e, hc, rfl⟩)]
  split_ifs <;> rfl

theorem Wf.lookup_restamp (hm : m.Wf) (x : ℕ) :
    (m.restamp s stop expected c promotes).1.lookup x = m.lookup x := by
  rw [lookup_eq_map, lookup_eq_map]
  by_cases hx : ∃ k e, m.CoveredBy x k e
  · obtain ⟨k, e, hc⟩ := hx
    rw [hm.lookupWithClaimant_restamp hc, hm.lookupWithClaimant_of_coveredBy hc]
    rfl
  · have hold := hm.lookupWithClaimant_eq_none_iff.mpr fun k e hc => hx ⟨k, e, hc⟩
    have hnew : (m.restamp s stop expected c promotes).1.lookupWithClaimant x = none := by
      refine hm.restamp.lookupWithClaimant_eq_none_iff.mpr fun k e' hc => ?_
      obtain ⟨e, hc', -⟩ := coveredBy_restamp_iff.mp hc
      exact hx ⟨k, e, hc'⟩
    rw [hold, hnew]

end LbaMap

end Elide
