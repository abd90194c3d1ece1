import Elide.LbaMap.Tiles

/-!
# Unconditional insertion

`insertInner` removes every entry it overlaps, puts back the parts that stick out on either side
and adds the new entry. On the tiling this is one product: the new tile laid over the old map.

The proof follows the code. `Inv.trimPredecessor` is step 1, the entry that starts before the
range; `Inv.foldl_removeOverlapping` is step 2, the entries that start inside it. Each leaves the
map with the range punched out as far as the entries it handled go, and once both are done the
whole range is bare and the new entry can be added.

## Main results

* `LbaMap.Inv.insertInner`, `LbaMap.Inv.tiles_insertInner` — the invariant is kept and the tiling
  is the product
* `LbaMap.Inv.lookupWithClaimant_insertInner` — the same, block by block
-/

namespace Elide

open List Tiling LbaMap OrdMap Prod

/-- What an entry has past `stop` reads as it did before the cut. -/
theorem MapEntry.valueAt_tail (e : MapEntry) {k stop x : ℕ} (len : ℕ) (hk : k ≤ stop)
    (hx : stop ≤ x) :
    MapEntry.valueAt
        { e with lbaLength := len, payloadBlockOffset := e.payloadBlockOffset + (stop - k) } stop x
      = e.valueAt k x := by
  simp only [MapEntry.valueAt, Prod.mk.injEq, and_true, true_and]
  omega

namespace LbaMap

variable {m : LbaMap} {s stop : ℕ}

/-! ## Step 1: the predecessor -/

variable {k : ℕ} {e : MapEntry}

/-- Cutting one entry out of the map: the state after its removal, with the part before `s` and
the part from `stop` on put back, is the map with the entry's own blocks punched. -/
theorem punch_of_entry (hm : m.Wf) (h : m.inner.get? k = some e) {x : ℕ}
    (hx : k ≤ x ∧ x < k + e.lbaLength) :
    m.tiles.punch s stop x = if s ≤ x ∧ x < stop then none
      else some (e.valueAt k x, decide (x = k) || decide (x = stop)) := by
  rw [punch, hm.tiles_of_coveredBy ⟨h, hx⟩]
  rfl

/-- Putting back what an entry at `k` has from `stop` on: nothing where it ends before. -/
theorem Inv.addTail (hm : m.Inv) (stop : ℕ) (hk : k ≤ stop)
    (hbare : ∀ x, stop ≤ x → x < k + e.lbaLength → m.tiles x = none) :
    let m' := if stop < k + e.lbaLength then
        m.addEntry stop
          { e with
            lbaLength := k + e.lbaLength - stop
            payloadBlockOffset := e.payloadBlockOffset + (stop - k) }
      else m
    m'.Inv ∧ (∀ j, j ≠ stop → m'.inner.get? j = m.inner.get? j) ∧ ∀ x, m'.tiles x =
      if stop ≤ x ∧ x < k + e.lbaLength then some (e.valueAt k x, decide (x = stop))
      else m.tiles x := by
  intro m'
  by_cases hend : stop < k + e.lbaLength
  · set tail : MapEntry :=
      { e with
        lbaLength := k + e.lbaLength - stop
        payloadBlockOffset := e.payloadBlockOffset + (stop - k) } with htail_def
    have hm' : m' = m.addEntry stop tail := if_pos hend
    have hlen : tail.lbaLength = k + e.lbaLength - stop := rfl
    have hpos : 0 < tail.lbaLength := by omega
    have htail : ∀ x, stop ≤ x → x < stop + tail.lbaLength → m.tiles x = none :=
      fun x h1 h2 => hbare x h1 (by omega)
    rw [hm']
    refine ⟨hm.addEntry hpos htail, fun j hj => ?_, fun x => ?_⟩
    · rw [addEntry_inner, get?_insert, if_neg hj]
    · obtain ⟨-, -, htiles⟩ := addEntry_spec hm.wf hpos htail
      rw [htiles]
      by_cases hx : stop ≤ x ∧ x < k + e.lbaLength
      · rw [if_pos hx, if_pos (by omega), e.valueAt_tail _ hk hx.1]
      · rw [if_neg hx, if_neg (by omega)]
  · have hm' : m' = m := if_neg hend
    rw [hm']
    exact ⟨hm, fun j _ => rfl, fun x => (if_neg (by omega)).symm⟩

theorem Inv.trimPredecessor_of_reaches (hm : m.Inv) (hlt : s < stop)
    (hpred : m.inner.pred? s = some (k, e)) (hreach : s < k + e.lbaLength) :
    (m.trimPredecessor s stop).Inv ∧ ∀ x, (m.trimPredecessor s stop).tiles x =
      if k ≤ x ∧ x < k + e.lbaLength then m.tiles.punch s stop x else m.tiles x := by
  obtain ⟨hget, hks, -⟩ := pred?_eq_some_iff.mp hpred
  obtain ⟨-, hrem⟩ := removeEntry_spec hm.wf hget
  have hinv := hm.removeEntry hget
  -- put the head back
  set head : MapEntry := { e with lbaLength := s - k } with hhead_def
  have hlen : head.lbaLength = s - k := rfl
  have hhead : ∀ x, k ≤ x → x < k + head.lbaLength → (m.removeEntry k).1.tiles x = none := by
    intro x h1 h2
    rw [hrem, if_pos (by omega)]
  have hinv₁ := hinv.addEntry (e := head) (by omega) hhead
  obtain ⟨-, -, htiles₁⟩ := addEntry_spec hinv.wf (e := head) (by omega) hhead
  -- and the tail, where the range is a hole inside the entry
  obtain ⟨hinv₂, -, htiles₂⟩ := hinv₁.addTail stop (e := e) (k := k) (by omega) (by
    intro x h1 h2
    rw [htiles₁, if_neg (by omega), hrem, if_pos (by omega)])
  have htrim : m.trimPredecessor s stop = if stop < k + e.lbaLength then
        ((m.removeEntry k).1.addEntry k head).addEntry stop
          { e with
            lbaLength := k + e.lbaLength - stop
            payloadBlockOffset := e.payloadBlockOffset + (stop - k) }
      else (m.removeEntry k).1.addEntry k head := by
    simp [trimPredecessor, hpred, if_pos hreach, hhead_def]
  rw [htrim]
  refine ⟨hinv₂, fun x => ?_⟩
  rw [htiles₂, htiles₁, hrem]
  by_cases hx : k ≤ x ∧ x < k + e.lbaLength
  · rw [if_pos hx, punch_of_entry hm.wf hget hx, if_pos hx]
    by_cases h1 : stop ≤ x
    · rw [if_pos ⟨h1, hx.2⟩, if_neg (by omega)]
      simp [show x ≠ k by omega]
    · rw [if_neg (fun h => h1 h.1)]
      by_cases h2 : x < s
      · rw [if_pos (by omega), if_neg (by omega)]
        simp [show x ≠ stop by omega, hhead_def, MapEntry.valueAt]
      · rw [if_neg (by omega), if_pos (by omega)]
  · rw [if_neg hx, if_neg hx, if_neg (by omega), if_neg (by omega)]

/-- After step 1 no entry reaches into the range from below, and only blocks that an insert would
take out anyway have changed. -/
theorem Inv.trimPredecessor (hm : m.Inv) (hlt : s < stop) : (m.trimPredecessor s stop).Inv ∧
      (∀ k e, (m.trimPredecessor s stop).inner.get? k = some e → k < s → k + e.lbaLength ≤ s) ∧
      ∀ x, (m.trimPredecessor s stop).tiles.punch s stop x = m.tiles.punch s stop x := by
  by_cases hreach : ∃ k e, m.inner.pred? s = some (k, e) ∧ s < k + e.lbaLength
  · obtain ⟨k, e, hpred, hreach⟩ := hreach
    obtain ⟨hget, hks, hlast⟩ := pred?_eq_some_iff.mp hpred
    obtain ⟨hinv, htiles⟩ := hm.trimPredecessor_of_reaches hlt hpred hreach
    refine ⟨hinv, fun j e' hj hjs => ?_, fun x => ?_⟩
    · -- block `s` belonged to the predecessor and is bare now
      by_contra hcon
      have hbare : (m.trimPredecessor s stop).tiles s = none := by
        rw [htiles, if_pos (by omega), punch_of_entry hm.wf hget (by omega), if_pos (by omega)]
      exact hinv.wf.tiles_eq_none_iff.mp hbare j e' ⟨hj, by omega, by omega⟩
    · by_cases hx : k ≤ x ∧ x < k + e.lbaLength
      · rw [punch, htiles, punch]
        split_ifs
        · rfl
        · cases m.tiles x <;> simp
      · rw [punch, htiles, if_neg hx, punch]
  · have hsame : m.trimPredecessor s stop = m := by
      rw [LbaMap.trimPredecessor]
      cases hp : m.inner.pred? s with
      | none => rfl
      | some p => exact if_neg fun h => hreach ⟨p.1, p.2, hp, h⟩
    rw [hsame]
    refine ⟨hm, fun k e hk hks => ?_, fun x => rfl⟩
    by_contra hcon
    have hpast : s < k + e.lbaLength := not_le.mp hcon
    exact hreach ⟨k, e, hm.wf.pred?_of_reaches hk hks hpast, hpast⟩

/-! ## Step 2: the entries inside the range -/

theorem Inv.removeOverlapping (hm : m.Inv) (hget : m.inner.get? k = some e) (hsk : s ≤ k)
    (hk : k < stop) :
    (removeOverlapping stop m k).Inv ∧
      (∀ j, j ≠ k → j ≠ stop → (removeOverlapping stop m k).inner.get? j = m.inner.get? j) ∧
      ∀ x, (removeOverlapping stop m k).tiles x =
        if k ≤ x ∧ x < k + e.lbaLength then m.tiles.punch s stop x else m.tiles x := by
  obtain ⟨-, hrem⟩ := removeEntry_spec hm.wf hget
  have hg : ∀ j, j ≠ k → (m.removeEntry k).1.inner.get? j = m.inner.get? j := by
    intro j hj
    rw [removeEntry_of_get? hget]
    simp [get?_erase, hj]
  obtain ⟨hinv, hget', htiles⟩ := (hm.removeEntry hget).addTail stop (e := e) (k := k)
    hk.le (by
      intro x h1 h2
      rw [hrem, if_pos (by omega)])
  have hstep : LbaMap.removeOverlapping stop m k = if stop < k + e.lbaLength then
        (m.removeEntry k).1.addEntry stop
          { e with
            lbaLength := k + e.lbaLength - stop
            payloadBlockOffset := e.payloadBlockOffset + (stop - k) }
      else (m.removeEntry k).1 := by
    rw [LbaMap.removeOverlapping, removeEntry_of_get? hget]
  rw [hstep]
  refine ⟨hinv, fun j hj hjs => (hget' j hjs).trans (hg j hj), fun x => ?_⟩
  rw [htiles, hrem]
  by_cases hx : k ≤ x ∧ x < k + e.lbaLength
  · rw [if_pos hx, punch_of_entry hm.wf hget hx, if_pos hx]
    by_cases h1 : stop ≤ x
    · rw [if_pos ⟨h1, hx.2⟩, if_neg (by omega)]
      simp [show x ≠ k by omega]
    · rw [if_neg (fun h => h1 h.1), if_pos (by omega)]
  · rw [if_neg hx, if_neg hx, if_neg (by omega)]

/-- Step 2 over a list of keys: the blocks of the listed entries are punched, one entry after the
other, and the other blocks stay. -/
theorem Inv.foldl_removeOverlapping {ks : List ℕ} (hm : m.Inv) (hnodup : ks.Nodup)
    (hks : ∀ k ∈ ks, s ≤ k ∧ k < stop ∧ ∃ e, m.inner.get? k = some e) :
    (ks.foldl (LbaMap.removeOverlapping stop) m).Inv ∧ (∀ k ∈ ks, ∀ x e, m.CoveredBy x k e →
        (ks.foldl (LbaMap.removeOverlapping stop) m).tiles x = m.tiles.punch s stop x) ∧
      ∀ x, (∀ k ∈ ks, ∀ e, ¬ m.CoveredBy x k e) →
        (ks.foldl (LbaMap.removeOverlapping stop) m).tiles x = m.tiles x := by
  induction ks generalizing m with
  | nil => exact ⟨hm, by simp, fun x _ => rfl⟩
  | cons k ks ih =>
    obtain ⟨hnot, hnodup⟩ := nodup_cons.mp hnodup
    obtain ⟨hsk, hk, e, hget⟩ := hks k mem_cons_self
    obtain ⟨hinv, hframe, htiles⟩ := hm.removeOverlapping hget hsk hk
    -- the entries still to come are untouched
    have hsame : ∀ j ∈ ks, ∀ x e',
        (LbaMap.removeOverlapping stop m k).CoveredBy x j e' ↔ m.CoveredBy x j e' := by
      intro j hj x e'
      have hlt := (hks j (mem_cons_of_mem _ hj)).2.1
      rw [CoveredBy, CoveredBy, hframe j (fun h => hnot (h ▸ hj)) (by omega)]
    obtain ⟨hinv', hin, hout⟩ := ih hinv hnodup fun j hj => by
      obtain ⟨h1, h2, e', h3⟩ := hks j (mem_cons_of_mem _ hj)
      exact ⟨h1, h2, e', by rwa [hframe j (fun h => hnot (h ▸ hj)) (by omega)]⟩
    refine ⟨hinv', fun j hj x e' hc => ?_, fun x hx => ?_⟩
    · rcases mem_cons.mp hj with rfl | hj
      · have he : e' = e := Option.mem_unique hc.1 hget
        subst he
        rw [foldl_cons, hout x, htiles, if_pos hc.2]
        intro i hi e'' hci
        exact hnot ((hm.wf.coveredBy_unique hc ((hsame i hi x e'').mp hci)).1 ▸ hi)
      · have hxk : ¬ (k ≤ x ∧ x < k + e.lbaLength) := fun h =>
          hnot ((hm.wf.coveredBy_unique hc ⟨hget, h⟩).1 ▸ hj)
        rw [foldl_cons, hin j hj x e' ((hsame j hj x e').mpr hc), punch, htiles, if_neg hxk, punch]
    · have hxk : ¬ (k ≤ x ∧ x < k + e.lbaLength) := fun h => hx k mem_cons_self e ⟨hget, h⟩
      rw [foldl_cons, hout x, htiles, if_neg hxk]
      intro j hj e' hc
      exact hx j (mem_cons_of_mem _ hj) e' ((hsame j hj x e').mp hc)

/-! ## The whole insert -/

/-- Steps 1 and 2 together take exactly the blocks of the range out of the map. -/
theorem Inv.clearRange (hm : m.Inv) (hlt : s < stop) : let m₁ := m.trimPredecessor s stop
    let m₂ := ((m₁.inner.range s stop).map fst).foldl (LbaMap.removeOverlapping stop) m₁
    m₂.Inv ∧ ∀ x, m₂.tiles x = m.tiles.punch s stop x := by
  intro m₁ m₂
  obtain ⟨hinv₁, hbelow, hpunch⟩ := hm.trimPredecessor hlt
  have hnodup : ((m₁.inner.range s stop).map fst).Nodup :=
    (pairwise_map.mpr (m₁.inner.range_sorted s stop)).imp ne_of_lt
  have hkeys : ∀ k ∈ (m₁.inner.range s stop).map fst,
      s ≤ k ∧ k < stop ∧ ∃ e, m₁.inner.get? k = some e := by
    intro k hk
    obtain ⟨e, he, rfl⟩ := mem_map.mp hk
    obtain ⟨h1, h2, h3⟩ := mem_range_iff.mp he
    exact ⟨h2, h3, e.2, h1⟩
  obtain ⟨hinv₂, hin, hout⟩ := hinv₁.foldl_removeOverlapping hnodup hkeys
  refine ⟨hinv₂, fun x => ?_⟩
  rw [← hpunch]
  by_cases hx : ∃ k ∈ (m₁.inner.range s stop).map fst, ∃ e, m₁.CoveredBy x k e
  · obtain ⟨k, hk, e, hc⟩ := hx
    exact hin k hk x e hc
  · refine (hout x fun k hk e hc => hx ⟨k, hk, e, hc⟩).trans ?_
    -- a block of no removed entry is bare in the range, and starts an entry at its end
    have hcover : ∀ k e, m₁.CoveredBy x k e → s ≤ x → stop ≤ k := by
      intro k e hc hsx
      by_contra hk
      have hsk : s ≤ k := by
        by_contra hks
        have := hbelow k e hc.1 (by omega)
        have := hc.2.2
        omega
      refine hx ⟨k, mem_map.mpr ⟨(k, e), mem_range_iff.mpr ?_, rfl⟩, e, hc⟩
      exact ⟨hc.1, hsk, by simpa using hk⟩
    rw [punch]
    rcases hinv₁.wf.tiles_cases x with hnone | ⟨k, e, hc⟩
    · rw [hnone]; simp
    · rw [hinv₁.wf.tiles_of_coveredBy hc]
      have hkx := hc.2.1
      by_cases hin : s ≤ x ∧ x < stop
      · have := hcover k e hc hin.1
        omega
      · rw [if_neg hin]
        by_cases hstop : x = stop
        · have := hcover k e hc (by omega)
          simp [show x = k by omega]
        · simp [hstop]

theorem insertInner_eq (m : LbaMap) (s len pbo : ℕ) (h : Hash) (c : Ulid) :
    m.insertInner s len pbo h c =
      ((((m.trimPredecessor s (s + len)).inner.range s (s + len)).map fst).foldl
        (removeOverlapping (s + len)) (m.trimPredecessor s (s + len))).addEntry s
          ⟨len, h, pbo, c⟩ := rfl

/-- The tile an insert lays: block `i` of the range reads block `pbo + i` of the payload. -/
def claimTile (s len pbo : ℕ) (h : Hash) (c : Ulid) : Tiling (Hash × ℕ × Ulid) :=
  Tiling.tile s len fun i => (h, pbo + i, c)

variable {len : ℕ}

section

variable (hm : m.Inv) (hlen : 0 < len) (pbo : ℕ) (h : Hash) (c : Ulid)
include hm hlen pbo h c

theorem Inv.insertInner : (m.insertInner s len pbo h c).Inv := by
  obtain ⟨hinv, htiles⟩ := hm.clearRange (show s < s + len by omega)
  exact hinv.addEntry hlen fun x h1 h2 => by rw [htiles, punch, if_pos ⟨h1, h2⟩]

/-- **An insert lays its tile over the map.** -/
theorem Inv.tiles_insertInner :
    (m.insertInner s len pbo h c).tiles = m.tiles * claimTile s len pbo h c := by
  obtain ⟨hinv, htiles⟩ := hm.clearRange (show s < s + len by omega)
  obtain ⟨-, -, hadd⟩ := addEntry_spec (e := ⟨len, h, pbo, c⟩) hinv.wf hlen fun x h1 h2 => by
    rw [htiles, punch, if_pos ⟨h1, h2⟩]
  ext1 x
  rw [insertInner_eq, hadd, claimTile, mul_tile_apply _ hlen, htiles]
  rfl

/-- An insert sets the blocks of its range and leaves every other block alone. -/
theorem Inv.lookupWithClaimant_insertInner (x : ℕ) :
    (m.insertInner s len pbo h c).lookupWithClaimant x =
      if s ≤ x ∧ x < s + len then some (h, pbo + (x - s), c) else m.lookupWithClaimant x := by
  rw [← value_tiles, hm.tiles_insertInner hlen, value_mul, value_tiles]
  by_cases hx : s ≤ x ∧ x < s + len
  · simp [claimTile, tile, value, hx]
  · simp [claimTile, tile, value, if_neg hx]

end

end LbaMap

end Elide
