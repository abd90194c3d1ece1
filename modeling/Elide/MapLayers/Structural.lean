import Elide.MapLayers.Lookups
import Elide.MapLayers.Reads

/-!
# Structural changes of the layers

Applies other than a promote's replace `base`, with or without some of the frozen layers, while
guest writes go on into `delta`. This module has the operations of `MapLayers` they use, and what
the layers as a whole say about a block and a body: `claimAt` is the claim a read of a block finds,
`locates` says that some layer holds a body, `findsBody` that a read under a claimant finds one.

`fold_below` and `swap_below` work on the frozen layers below a ULID; the source's name for those
layers folded into `base` is `below`, here `belowUlid`.
-/

namespace Elide

open List LbaMap Maps

/-- Every hash some LBA claims, one per hash. -/
def LbaMap.claimHashes (m : LbaMap) : List Hash := m.claimCounts.keys

theorem LbaMap.mem_claimHashes {m : LbaMap} {h : Hash} :
    h ∈ m.claimHashes ↔ m.isReferenced h = true := by
  rw [isReferenced, AList.lookup_isSome]
  rfl

namespace MapLayers

/-! ## Operations -/

variable (l : MapLayers)

/-- Install a fold of `base`. -/
def swapBase (newBase : Maps) : MapLayers := { l with base := newBase }

/-- `below`: `base` with every frozen layer below `ulid` replayed in, oldest first. -/
def belowUlid (ulid : Ulid) : Maps :=
  (l.frozen.filter fun layer => decide (layer.walUlid < ulid)).foldl
    (fun maps layer => maps.fold layer.maps) l.base

/-- Install a fold over `belowUlid` as `base` and retire the layers it replayed. -/
def swapBelow (newBase : Maps) (ulid : Ulid) : MapLayers :=
  { l with base := newBase, frozen := l.frozen.filter fun layer => decide (ulid ≤ layer.walUlid) }

/-- The layers above `ulid` over another `base`. -/
def above (ulid : Ulid) (base : Maps) : MapLayers :=
  { l with base, frozen := l.frozen.filter fun layer => decide (ulid ≤ layer.walUlid) }

/-- The first hash in `hashes` that a claim in `delta` names. -/
def deltaClaimsAny (hashes : Finset Hash) : Option Hash :=
  l.delta.lbamap.claimHashes.find? fun h => decide (h ∈ hashes)

variable {l : MapLayers}

theorem deltaClaimsAny_eq_none_iff {hashes : Finset Hash} : l.deltaClaimsAny hashes = none ↔
      ∀ h ∈ hashes, l.delta.lbamap.isReferenced h = false := by
  rw [deltaClaimsAny, find?_eq_none]
  constructor
  · intro hno h hh
    rw [← Bool.not_eq_true, ← mem_claimHashes]
    exact fun hmem => hno h hmem (decide_eq_true hh)
  · intro hno h hmem hh
    have hfree := hno h (of_decide_eq_true hh)
    rw [mem_claimHashes, hfree] at hmem
    cases hmem

/-! ## Claims -/

/-- The claim a read of `x` finds. -/
def claimAt (l : MapLayers) (x : ℕ) : Option (Hash × ℕ × Ulid) :=
  layeredLookup (l.all.map lbamap) x

/-- The claim under the open epoch. -/
def claimBelow (l : MapLayers) (x : ℕ) : Option (Hash × ℕ × Ulid) :=
  layeredLookup ((l.frozen.reverse.map FrozenLayer.maps ++ [l.base]).map lbamap) x

theorem claimAt_eq (l : MapLayers) (x : ℕ) :
    l.claimAt x = (l.delta.lbamap.lookupWithClaimant x).or (l.claimBelow x) := by
  rw [claimAt, all, map_cons, layeredLookup, findSome?_cons]
  cases l.delta.lbamap.lookupWithClaimant x <;> rfl

/-- The map with every layer folded in has the claims of the layers. -/
theorem Inv.lookupWithClaimant_materialised (hl : l.Inv) (x : ℕ) :
    l.materialised.lbamap.lookupWithClaimant x = l.claimAt x := by
  rw [← LbaMap.value_tiles, hl.materialised.2, value_tiles]
  rfl

/-- A hash is referenced in the folded map exactly when a read of some block finds it. -/
theorem Inv.isReferenced_materialised (hl : l.Inv) (h : Hash) :
    l.materialised.lbamap.isReferenced h = true ↔ ∃ x off c, l.claimAt x = some (h, off, c) := by
  rw [hl.materialised.1.isReferenced_iff]
  constructor
  · rintro ⟨x, off, hx⟩
    rw [lookup_eq_map, hl.lookupWithClaimant_materialised] at hx
    obtain ⟨⟨h', off', c⟩, hclaim, hv⟩ := Option.map_eq_some_iff.mp hx
    obtain ⟨rfl, rfl⟩ : h' = h ∧ off' = off := by simpa using hv
    exact ⟨x, off', c, hclaim⟩
  · rintro ⟨x, off, c, hx⟩
    refine ⟨x, off, ?_⟩
    rw [lookup_eq_map, hl.lookupWithClaimant_materialised, hx]
    rfl

/-! ## Bodies -/

/-- Some layer holds a body of `h`. -/
def locates (l : MapLayers) (h : Hash) : Bool := (l.lookupExtent h).isSome

/-- A layer over `base`, other than the one tagged `wal`, holds a body of `h`. -/
def locatesAbove (l : MapLayers) (wal : Ulid) (h : Hash) : Bool :=
  (l.delta.extentIndex.lookup h).isSome ||
    (l.frozen.filter fun layer => decide (layer.walUlid ≠ wal)).any fun layer =>
      (layer.maps.extentIndex.lookup h).isSome

/-- What a promote of `wal` is applied to: `base` with its layer replayed into it. -/
def promoteBase (l : MapLayers) (wal : Ulid) : Maps :=
  match l.frozen.find? fun layer => decide (layer.walUlid = wal) with
  | some layer => l.base.fold layer.maps
  | none => l.base

theorem foldPromote_eq {ε : Type*} (l : MapLayers) (wal : Ulid) (apply : Maps → Except ε Maps) :
    l.foldPromote wal apply = apply (l.promoteBase wal) := by
  rw [foldPromote, promoteBase]
  cases l.frozen.find? fun layer => decide (layer.walUlid = wal) <;> rfl

variable {h : Hash}

theorem locates_iff : l.locates h = true ↔ (l.delta.extentIndex.lookup h).isSome = true ∨
      (∃ layer ∈ l.frozen, (layer.maps.extentIndex.lookup h).isSome = true) ∨
      (l.base.extentIndex.lookup h).isSome = true := by
  rw [locates, lookupExtent]
  simp [all]

variable {wal : Ulid}

theorem locatesAbove_iff : l.locatesAbove wal h = true ↔
    (l.delta.extentIndex.lookup h).isSome = true ∨ ∃ layer ∈ l.frozen, layer.walUlid ≠ wal ∧
        (layer.maps.extentIndex.lookup h).isSome = true := by
  simp [locatesAbove]

/-- A body is in the layer a promote retires, in `base`, or in a layer that stays. -/
theorem locates_iff_promoteBase (hl : (l.frozen.map FrozenLayer.walUlid).Nodup) (wal : Ulid)
    (h : Hash) : l.locates h = true ↔
      l.locatesAbove wal h = true ∨ ((l.promoteBase wal).extentIndex.lookup h).isSome = true := by
  have hbase : ((l.promoteBase wal).extentIndex.lookup h).isSome = true ↔
      (∃ layer ∈ l.frozen, layer.walUlid = wal ∧ (layer.maps.extentIndex.lookup h).isSome = true) ∨
      (l.base.extentIndex.lookup h).isSome = true := by
    rw [promoteBase]
    cases hfind : l.frozen.find? fun layer => decide (layer.walUlid = wal) with
    | none =>
      refine ⟨.inr, ?_⟩
      rintro (⟨layer, hmem, htag, -⟩ | hb)
      · exact absurd (find?_eq_none.mp hfind layer hmem) (by simp [htag])
      · exact hb
    | some found =>
      have hmem := mem_of_find?_eq_some hfind
      have htag : found.walUlid = wal := by simpa using find?_some hfind
      rw [lookupExtent_fold, Option.isSome_or, Bool.or_eq_true, or_comm]
      refine or_congr_left ⟨fun hf => ⟨found, hmem, htag, hf⟩, ?_⟩
      rintro ⟨layer, hlayer, htag', hf⟩
      -- tags are distinct, so this is the layer found
      rwa [inj_on_of_nodup_map hl hmem hlayer (htag.trans htag'.symm)]
  rw [locates_iff, locatesAbove_iff, hbase]
  constructor
  · rintro (hd | ⟨layer, hmem, hf⟩ | hb)
    · exact .inl (.inl hd)
    · by_cases htag : layer.walUlid = wal
      · exact .inr (.inl ⟨layer, hmem, htag, hf⟩)
      · exact .inl (.inr ⟨layer, hmem, htag, hf⟩)
    · exact .inr (.inr hb)
  · rintro ((hd | ⟨layer, hmem, -, hf⟩) | ⟨layer, hmem, -, hf⟩ | hb)
    · exact .inl hd
    · exact .inr (.inl ⟨layer, hmem, hf⟩)
    · exact .inr (.inl ⟨layer, hmem, hf⟩)
    · exact .inr (.inr hb)

theorem locates_swapPromote {newBase : Maps} :
    (l.swapPromote newBase wal).locates h = true ↔
      l.locatesAbove wal h = true ∨ (newBase.extentIndex.lookup h).isSome = true := by
  rw [locates_iff, locatesAbove_iff, ← or_assoc]
  simp [swapPromote, and_assoc]

/-- Freezing the epoch moves its bodies, it drops none. -/
theorem locates_freeze : (l.freeze wal).locates h = l.locates h := by
  rw [Bool.eq_iff_iff, locates_iff, locates_iff, freeze]
  split_ifs
  · exact Iff.rfl
  · have hempty : (empty.extentIndex.lookup h).isSome = false := rfl
    simp only [hempty, mem_append, mem_singleton, or_and_right, exists_or,
      exists_eq_left, Bool.false_eq_true]
    rw [false_or, or_assoc, or_left_comm]

/-- A read of `h` under claimant `c` finds a body: the claimant's journal body, a DATA location, or
one of a source of the recipe. -/
def findsBody (l : MapLayers) (c : Ulid) (h : Hash) : Bool :=
  (l.lookupJournal c h).isSome || l.locates h ||
    (l.lookupDelta h).any fun d => d.options.any fun o => l.locates o.sourceHash

/-- Every claim finds its body; zeros need none. -/
def ClaimsResolve (l : MapLayers) : Prop :=
  ∀ x h off c, l.claimAt x = some (h, off, c) → h = ZERO_HASH ∨ l.findsBody c h = true

end MapLayers

end Elide
