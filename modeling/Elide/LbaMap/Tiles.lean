import Elide.LbaMap.Basic
import Elide.Lib.Tiling

/-!
# The LBA map as a tiling

What an LBA map means: a line of blocks, each bare or holding the triple `lookupWithClaimant`
returns, cut into tiles by the keys of the map. `LbaMap.Wf` is the invariant that makes the
reading possible (extents are disjoint and non-empty), and `LbaMap.tiles` is the reading.

The two primitive updates are specified here: an entry added to free blocks adds its tile, and a
removed entry takes its tile away. Everything the map does is made of these two, so no later
proof looks at `get?` for more than the entry it is about to touch.

## Main results

* `LbaMap.lookupWithClaimant_eq_some_iff`, `lookupWithClaimant_eq_none_iff` — a lookup finds the
  entry that covers the block
* `LbaMap.addEntry_spec`, `removeEntry_spec` — the primitive updates
* `LbaMap.inner_eq_of_tiles_eq` — a map's entries can be recovered from its tiling
* `LbaMap.Inv` — the invariant of every reachable map, kept by both updates
-/

namespace Elide

open Option OrdMap

/-- The triple a lookup returns at block `x` of an entry keyed at `k`. -/
def MapEntry.valueAt (e : MapEntry) (k x : ℕ) : Hash × ℕ × Ulid :=
  (e.hash, e.payloadBlockOffset + (x - k), e.claimantUlid)

namespace LbaMap

/-- Extents are non-empty and pairwise disjoint. -/
structure Wf (m : LbaMap) : Prop where
  /-- No extent is empty. -/
  pos : ∀ {k e}, m.inner.get? k = some e → 0 < e.lbaLength
  /-- An extent ends before the next one starts. -/
  disjoint : ∀ {k e k' e'}, m.inner.get? k = some e → m.inner.get? k' = some e' → k < k' →
    k + e.lbaLength ≤ k'

/-- The claim counts are those of the entries, and no assertion has failed. -/
structure Counted (m : LbaMap) : Prop where
  /-- Each hash is counted once per entry that claims it. -/
  exact : Refcount.Exact m.claimCounts (m.inner.entries.map fun e => e.2.hash)
  /-- Every `debug_assert!` held. -/
  asserts : m.failedAsserts = 0

/-- The block `x` belongs to the entry `e` keyed at `k`. -/
def CoveredBy (m : LbaMap) (x k : ℕ) (e : MapEntry) : Prop :=
  m.inner.get? k = some e ∧ k ≤ x ∧ x < k + e.lbaLength

theorem wf_new : new.Wf where
  pos h := by simp [new] at h
  disjoint h := by simp [new] at h

theorem counted_new : new.Counted where
  exact := Refcount.exact_empty
  asserts := rfl

variable {k x : ℕ} {m : LbaMap} {e : MapEntry}

/-- A block belongs to at most one entry. -/
theorem Wf.coveredBy_unique (hm : m.Wf) {k' : ℕ} {e' : MapEntry} (h : m.CoveredBy x k e)
    (h' : m.CoveredBy x k' e') : k = k' ∧ e = e' := by
  obtain ⟨hg, hk, hx⟩ := h
  obtain ⟨hg', hk', hx'⟩ := h'
  have hkk : k = k' := by
    rcases lt_trichotomy k k' with hlt | heq | hgt
    · have := hm.disjoint hg hg' hlt; omega
    · exact heq
    · have := hm.disjoint hg' hg hgt; omega
  subst hkk
  exact ⟨rfl, mem_unique hg hg'⟩

/-- An entry that starts below `s` and reaches past it is the last one below `s`. -/
theorem Wf.pred?_of_reaches (hm : m.Wf) {s : ℕ} (hk : m.inner.get? k = some e) (hks : k < s)
    (hreach : s < k + e.lbaLength) : m.inner.pred? s = some (k, e) := by
  refine pred?_eq_some_iff.mpr ⟨hk, hks, fun i hi hki => ?_⟩
  refine eq_none_iff_forall_not_mem.mpr fun e' he' => ?_
  have := hm.disjoint hk he' hki
  omega

/-! ## Lookups -/

theorem Wf.lookupWithClaimant_of_coveredBy (hm : m.Wf) (h : m.CoveredBy x k e) :
    m.lookupWithClaimant x = some (e.valueAt k x) := by
  have hfloor : m.inner.floor? x = some (k, e) := by
    refine floor?_eq_some_iff.mpr ⟨h.1, h.2.1, fun i hi hki => ?_⟩
    refine eq_none_iff_forall_not_mem.mpr fun e' he' => ?_
    have := hm.disjoint h.1 he' hki
    have := h.2.2
    omega
  rw [lookupWithClaimant, hfloor]
  exact if_pos h.2.2

theorem Wf.lookupWithClaimant_eq_some_iff (hm : m.Wf) {v : Hash × ℕ × Ulid} :
    m.lookupWithClaimant x = some v ↔ ∃ k e, m.CoveredBy x k e ∧ v = e.valueAt k x := by
  constructor
  · intro h
    rw [lookupWithClaimant] at h
    cases hf : m.inner.floor? x with
    | none => simp [hf] at h
    | some p =>
      obtain ⟨k, e⟩ := p
      obtain ⟨hg, hk, -⟩ := floor?_eq_some_iff.mp hf
      rw [hf] at h
      by_cases hx : x < k + e.lbaLength
      · simp only [if_pos hx, some.injEq] at h
        exact ⟨k, e, ⟨hg, hk, hx⟩, h.symm⟩
      · simp [if_neg hx] at h
  · rintro ⟨k, e, h, rfl⟩
    exact hm.lookupWithClaimant_of_coveredBy h

theorem Wf.lookupWithClaimant_eq_none_iff (hm : m.Wf) :
    m.lookupWithClaimant x = none ↔ ∀ k e, ¬ m.CoveredBy x k e := by
  constructor
  · intro h k e hc
    rw [hm.lookupWithClaimant_of_coveredBy hc] at h
    simp at h
  · intro h
    refine eq_none_iff_forall_not_mem.mpr fun v hv => ?_
    obtain ⟨k, e, hc, -⟩ := hm.lookupWithClaimant_eq_some_iff.mp hv
    exact h k e hc

/-- `lookup` is `lookupWithClaimant` without the claimant. -/
theorem lookup_eq_map (m : LbaMap) (x : ℕ) :
    m.lookup x = (m.lookupWithClaimant x).map fun v => (v.1, v.2.1) := by
  rw [lookup, lookupWithClaimant]
  cases m.inner.floor? x with
  | none => rfl
  | some p => dsimp only; split_ifs <;> rfl

/-! ## The tiling -/

/-- The map as a line of blocks: what a lookup returns at each, and where the entries start. -/
def tiles (m : LbaMap) : Tiling (Hash × ℕ × Ulid) := fun x =>
  (m.lookupWithClaimant x).map fun v => (v, (m.inner.get? x).isSome)

theorem value_tiles (m : LbaMap) (x : ℕ) : m.tiles.value x = m.lookupWithClaimant x := by
  simp [Tiling.value, tiles, Function.comp_def]

theorem Wf.tiles_of_coveredBy (hm : m.Wf) (h : m.CoveredBy x k e) :
    m.tiles x = some (e.valueAt k x, decide (x = k)) := by
  have hstart : (m.inner.get? x).isSome = decide (x = k) := by
    by_cases hx : x = k
    · subst hx; simp [h.1]
    · have hnone : m.inner.get? x = none := by
        refine eq_none_iff_forall_not_mem.mpr fun e' he' => hx ?_
        exact (hm.coveredBy_unique ⟨he', le_refl x, by have := hm.pos he'; omega⟩ h).1
      simp [hnone, hx]
  rw [tiles, hm.lookupWithClaimant_of_coveredBy h, map_some, hstart]

theorem Wf.tiles_eq_none_iff (hm : m.Wf) : m.tiles x = none ↔ ∀ k e, ¬ m.CoveredBy x k e := by
  rw [tiles, map_eq_none_iff, hm.lookupWithClaimant_eq_none_iff]

/-- Every block is bare or belongs to an entry. -/
theorem Wf.tiles_cases (hm : m.Wf) (x : ℕ) : m.tiles x = none ∨ ∃ k e, m.CoveredBy x k e := by
  by_cases h : ∃ k e, m.CoveredBy x k e
  · exact .inr h
  · refine .inl (hm.tiles_eq_none_iff.mpr fun k e hc => h ⟨k, e, hc⟩)

theorem tiles_new : new.tiles = 1 := rfl

/-- Where an entry ends, either nothing follows or the next entry starts. -/
theorem Wf.tiles_end (hm : m.Wf) (hk : m.inner.get? k = some e) :
    m.tiles (k + e.lbaLength) = none ∨ ∃ v, m.tiles (k + e.lbaLength) = some (v, true) := by
  rcases hm.tiles_cases (k + e.lbaLength) with hnone | ⟨j, e', hj⟩
  · exact .inl hnone
  · refine .inr ⟨e'.valueAt j (k + e.lbaLength), ?_⟩
    rw [hm.tiles_of_coveredBy hj]
    obtain ⟨hgj, hle, hlt⟩ := hj
    have hstart : k + e.lbaLength = j := by
      rcases lt_trichotomy k j with hkj | rfl | hjk
      · have := hm.disjoint hk hgj hkj
        omega
      · obtain rfl := mem_unique hk hgj
        omega
      · have := hm.disjoint hgj hk hjk
        omega
    rw [decide_eq_true hstart]

/-- An entry is read off the tiling: the blocks it covers, one start mark, and an end. -/
theorem Wf.get?_of_tiles (hm : m.Wf) (hpos : 0 < e.lbaLength)
    (hin : ∀ x, k ≤ x → x < k + e.lbaLength → m.tiles x = some (e.valueAt k x, decide (x = k)))
    (hend : m.tiles (k + e.lbaLength) = none ∨
      ∃ v, m.tiles (k + e.lbaLength) = some (v, true)) : m.inner.get? k = some e := by
  have hstart := hin k (le_refl k) (by omega)
  rcases hm.tiles_cases k with hnone | ⟨j, e', hj⟩
  · rw [hnone] at hstart
    cases hstart
  · rw [hm.tiles_of_coveredBy hj] at hstart
    simp only [some.injEq, Prod.mk.injEq, decide_eq_decide, iff_true, MapEntry.valueAt] at hstart
    obtain ⟨⟨hh, ho, hc⟩, rfl⟩ := hstart
    have hpos' := hm.pos hj.1
    have hlen : e'.lbaLength = e.lbaLength := by
      rcases lt_trichotomy e'.lbaLength e.lbaLength with hlt | heq | hgt
      · -- the tiling runs through the end of a shorter `e'` without a start mark there
        have hmid := hin (k + e'.lbaLength) (by omega) (by omega)
        rcases hm.tiles_end hj.1 with hnone | ⟨v, hv⟩
        · rw [hnone] at hmid
          cases hmid
        · rw [hv] at hmid
          have hmark := congrArg Prod.snd (some.inj hmid)
          have := of_decide_eq_true hmark.symm
          omega
      · exact heq
      · -- a longer `e'` runs through the end of the tile
        have hcov : m.CoveredBy (k + e.lbaLength) k e' := ⟨hj.1, by omega, by omega⟩
        rw [hm.tiles_of_coveredBy hcov] at hend
        simp only [reduceCtorEq, some.injEq, Prod.mk.injEq, false_or, decide_eq_true_eq] at hend
        omega
    rw [hj.1]
    obtain ⟨l, h, o, c⟩ := e
    obtain ⟨l', h', o', c'⟩ := e'
    dsimp only at hh ho hc hlen
    rw [hh, hc, hlen, show o' = o by omega]

/-- A map with the same tiling has the same entries. -/
theorem inner_eq_of_tiles_eq {m' : LbaMap} (hm : m.Wf) (hm' : m'.Wf) (h : m.tiles = m'.tiles) :
    m.inner = m'.inner := by
  -- one inclusion, used in both directions
  have key : ∀ {a b : LbaMap}, a.Wf → b.Wf → a.tiles = b.tiles → ∀ {k e},
      a.inner.get? k = some e → b.inner.get? k = some e := by
    intro a b ha hb hab k e hk
    refine hb.get?_of_tiles (ha.pos hk) ?_ ?_
    · intro x h1 h2
      rw [← hab]
      exact ha.tiles_of_coveredBy ⟨hk, h1, h2⟩
    · rw [← hab]
      exact ha.tiles_end hk
  refine ext_get? fun k => ?_
  cases hk : m.inner.get? k with
  | some e => exact (key hm hm' h hk).symm
  | none =>
    refine (eq_none_iff_forall_not_mem.mpr fun e' hk' => ?_).symm
    rw [key hm' hm h.symm hk'] at hk
    cases hk

/-! ## The primitive updates -/

variable (m)

@[simp] theorem debugAssert_inner (b : Bool) : (m.debugAssert b).inner = m.inner := by
  cases b <;> rfl

@[simp] theorem debugAssert_claimCounts (b : Bool) :
    (m.debugAssert b).claimCounts = m.claimCounts := by
  cases b <;> rfl

@[simp] theorem addEntry_inner (k : ℕ) (e : MapEntry) :
    (m.addEntry k e).inner = m.inner.insert k e := by
  simp [addEntry, claimIncref]

@[simp] theorem claimDecref_inner (h : Hash) : (m.claimDecref h).inner = m.inner := by
  simp [claimDecref]

variable {m}

theorem removeEntry_of_get? (h : m.inner.get? k = some e) :
    m.removeEntry k = ({ m with inner := m.inner.erase k }.claimDecref e.hash, some e) := by
  rw [removeEntry, h]

theorem Counted.addEntry (hc : m.Counted) (e : MapEntry) (hfree : m.inner.get? k = none) :
    (m.addEntry k e).Counted where
  exact := by
    have hperm := (entries_insert_perm e hfree).map fun e => e.2.hash
    simpa [LbaMap.addEntry, claimIncref] using (hc.exact.incref e.hash).perm hperm.symm
  asserts := by simp [LbaMap.addEntry, claimIncref, debugAssert, hfree, hc.asserts]

/-- Dropping one claim of the hash at `k` and forgetting the entry keeps the counts exact. -/
theorem Counted.removeEntry (hc : m.Counted) (h : m.inner.get? k = some e) :
    (m.removeEntry k).1.Counted := by
  have hperm := (entries_erase_perm h).map fun e => e.2.hash
  have hexact := hc.exact.perm hperm
  have hsome : (m.claimCounts.lookup e.hash).isSome := by
    rw [hexact.isSome_iff]; simp
  rw [removeEntry_of_get? h]
  refine ⟨?_, ?_⟩
  · simpa [claimDecref] using hexact.decref
  · simp [claimDecref, debugAssert, hsome, hc.asserts]

/-- A block that the same entries cover reads the same. -/
theorem Wf.tiles_congr {m' : LbaMap} {x : ℕ} (hm : m.Wf) (hm' : m'.Wf)
    (h : ∀ j e, m'.CoveredBy x j e ↔ m.CoveredBy x j e) : m'.tiles x = m.tiles x := by
  rcases hm.tiles_cases x with hnone | ⟨j, e, hj⟩
  · rw [hnone, hm'.tiles_eq_none_iff]
    exact fun j e hj => hm.tiles_eq_none_iff.mp hnone j e ((h j e).mp hj)
  · rw [hm.tiles_of_coveredBy hj, hm'.tiles_of_coveredBy ((h j e).mpr hj)]

/-- Adding an entry on bare blocks adds its tile. -/
theorem addEntry_spec (hm : m.Wf) (hpos : 0 < e.lbaLength)
    (hfree : ∀ x, k ≤ x → x < k + e.lbaLength → m.tiles x = none) :
    m.inner.get? k = none ∧ (m.addEntry k e).Wf ∧ ∀ x, (m.addEntry k e).tiles x =
      if k ≤ x ∧ x < k + e.lbaLength then some (e.valueAt k x, decide (x = k)) else m.tiles x := by
  have hno : ∀ x, k ≤ x → x < k + e.lbaLength → ∀ j e', ¬ m.CoveredBy x j e' := fun x h1 h2 =>
    hm.tiles_eq_none_iff.mp (hfree x h1 h2)
  have hget : m.inner.get? k = none :=
    eq_none_iff_forall_not_mem.mpr fun e' he' =>
      hno k (le_refl k) (by omega) k e' ⟨he', le_refl k, by have := hm.pos he'; omega⟩
  -- an old entry ends before `k` or starts past the new one
  have hsep : ∀ {j e'}, m.inner.get? j = some e' → j + e'.lbaLength ≤ k ∨ k + e.lbaLength ≤ j := by
    intro j e' hj
    have hpos' := hm.pos hj
    by_contra hcon
    rcases le_or_gt j k with hjk | hjk
    · exact hno k (le_refl k) (by omega) j e' ⟨hj, hjk, by omega⟩
    · exact hno j (by omega) (by omega) j e' ⟨hj, le_refl j, by omega⟩
  have hg : ∀ j, (m.addEntry k e).inner.get? j = if j = k then some e else m.inner.get? j := by
    intro j; rw [addEntry_inner, get?_insert]
  have hwf : (m.addEntry k e).Wf := by
    refine ⟨fun {j e'} hj => ?_, fun {j e' j' e''} hj hj' hlt => ?_⟩
    · rw [hg] at hj
      split_ifs at hj with h
      · cases hj; exact hpos
      · exact hm.pos hj
    · rw [hg] at hj hj'
      split_ifs at hj hj' with h1 h2 h2
      · omega
      · cases hj; subst h1; have := hsep hj'; omega
      · cases hj'; subst h2; have := hsep hj; have := hm.pos hj; omega
      · exact hm.disjoint hj hj' hlt
  refine ⟨hget, hwf, fun x => ?_⟩
  split_ifs with hx
  · exact hwf.tiles_of_coveredBy ⟨by rw [hg, if_pos rfl], hx.1, hx.2⟩
  · refine hm.tiles_congr hwf fun j e' => ?_
    rw [CoveredBy, CoveredBy, hg]
    split_ifs with hjk
    · rw [hjk, hget]
      refine iff_of_false ?_ fun h => nomatch h.1
      rintro ⟨h, hjx⟩
      cases h
      exact hx hjx
    · rfl

/-- Removing an entry takes its tile away. -/
theorem removeEntry_spec (hm : m.Wf) (h : m.inner.get? k = some e) :
    (m.removeEntry k).1.Wf ∧ ∀ x, (m.removeEntry k).1.tiles x =
      if k ≤ x ∧ x < k + e.lbaLength then none else m.tiles x := by
  have hg : ∀ j, (m.removeEntry k).1.inner.get? j = if j = k then none else m.inner.get? j := by
    intro j; rw [removeEntry_of_get? h]; simp [get?_erase]
  have hwf : (m.removeEntry k).1.Wf := by
    refine ⟨fun {j e'} hj => ?_, fun {j e' j' e''} hj hj' hlt => ?_⟩
    · rw [hg] at hj; split_ifs at hj; exact hm.pos hj
    · rw [hg] at hj hj'; split_ifs at hj hj'; exact hm.disjoint hj hj' hlt
  refine ⟨hwf, fun x => ?_⟩
  split_ifs with hx
  · rw [hwf.tiles_eq_none_iff]
    rintro j e' ⟨hj, hjx⟩
    rw [hg] at hj
    split_ifs at hj with hjk
    exact hjk (hm.coveredBy_unique ⟨hj, hjx⟩ ⟨h, hx⟩).1
  · refine hm.tiles_congr hwf fun j e' => ?_
    rw [CoveredBy, CoveredBy, hg]
    split_ifs with hjk
    · rw [hjk, h]
      refine iff_of_false (fun h => nomatch h.1) ?_
      rintro ⟨h, hjx⟩
      cases h
      exact hx hjx
    · rfl

/-! ## The invariant -/

/-- The invariant of a reachable map. -/
structure Inv (m : LbaMap) : Prop where
  wf : m.Wf
  counted : m.Counted

theorem inv_new : new.Inv := ⟨wf_new, counted_new⟩

theorem Inv.addEntry (hm : m.Inv) (hpos : 0 < e.lbaLength)
    (hfree : ∀ x, k ≤ x → x < k + e.lbaLength → m.tiles x = none) : (m.addEntry k e).Inv := by
  obtain ⟨hget, hwf, -⟩ := addEntry_spec hm.wf hpos hfree
  exact ⟨hwf, hm.counted.addEntry e hget⟩

theorem Inv.removeEntry (hm : m.Inv) (h : m.inner.get? k = some e) : (m.removeEntry k).1.Inv :=
  ⟨(removeEntry_spec hm.wf h).1, hm.counted.removeEntry h⟩

end LbaMap

end Elide
