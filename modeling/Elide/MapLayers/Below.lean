import Elide.MapLayers.PromoteOrder
import Elide.Volume.GuestTraffic

/-!
# The layers under a ULID

A structural apply at `ulid` works on `base` and the frozen layers below `ulid`, folded into one map.
The layers above it and the open epoch stay as they are. With the frozen layers in the order their
WALs were minted, putting that map in the place of `base` changes no read
(`MapLayers.Inv.claimAt_below`); what a different map changes is what it answers where the layers
above have nothing (`MapLayers.claimAt_above`).

## Main results

* `MapLayers.swapBelow_keeps_newer`: whatever a structural apply makes of the layers under its ULID,
  what is above keeps its reads, and the promote of a layer it has retired moves none.
-/

namespace Elide

open List Option LbaMap FrozenLayer Maps

namespace MapLayers

variable {l : MapLayers} {ulid : Ulid} {post : Maps}

variable (l)

/-- The frozen layers are in the order their WALs were minted. -/
def Minted : Prop := (l.frozen.map walUlid).Pairwise (· < ·)

/-- The layers `belowUlid` folds. -/
def under (ulid : Ulid) : MapLayers where
  base := l.base
  frozen := l.frozen.filter fun layer => decide (layer.walUlid < ulid)
  delta := .empty

theorem belowUlid_eq (ulid : Ulid) : l.belowUlid ulid = (l.under ulid).materialised := by
  rw [materialised_eq]
  rfl

variable {l}

theorem Inv.under (hl : l.Inv) (ulid : Ulid) : (l.under ulid).Inv :=
  ⟨hl.base, fun layer hlayer => hl.frozen layer (mem_filter.mp hlayer).1, inv_new⟩

/-! ## Claims -/

/-- The claim of the layers above `ulid`. -/
def claimOver (l : MapLayers) (ulid : Ulid) (x : ℕ) : Option (Hash × ℕ × Ulid) :=
  (l.delta.lbamap.lookupWithClaimant x).or
    (layeredLookup (((l.frozen.filter fun layer => decide (ulid ≤ layer.walUlid)).reverse.map
      maps).map lbamap) x)

theorem layeredLookup_append (ms ms' : List LbaMap) (x : ℕ) :
    layeredLookup (ms ++ ms') x = (layeredLookup ms x).or (layeredLookup ms' x) := by
  rw [layeredLookup, List.findSome?_append]
  rfl

theorem layeredLookup_singleton (m : LbaMap) (x : ℕ) :
    layeredLookup [m] x = m.lookupWithClaimant x := by
  rw [layeredLookup, List.findSome?_cons]
  cases m.lookupWithClaimant x <;> rfl

theorem claimAt_above (x : ℕ) : (l.above ulid post).claimAt x =
    (l.claimOver ulid x).or (post.lbamap.lookupWithClaimant x) := by
  rw [claimAt_eq, claimBelow, claimOver, Option.or_assoc, map_append, layeredLookup_append]
  exact congrArg (Option.or _) (congrArg (Option.or _) (layeredLookup_singleton _ x))

theorem Minted.frozen_eq (h : l.Minted) (ulid : Ulid) : l.frozen =
    (l.frozen.filter fun layer => decide (layer.walUlid < ulid)) ++
      l.frozen.filter fun layer => decide (ulid ≤ layer.walUlid) := by
  rw [Minted] at h
  generalize l.frozen = frozen at h
  induction frozen with
  | nil => rfl
  | cons layer frozen ih =>
    rw [map_cons, pairwise_cons] at h
    obtain ⟨hfirst, hrest⟩ := h
    by_cases hlt : layer.walUlid < ulid
    · rw [filter_cons_of_pos (by simpa using hlt),
        filter_cons_of_neg (by simpa using hlt), cons_append, ← ih hrest]
    · -- every later layer is above `ulid` as well
      have hnone : (layer :: frozen).filter (fun layer => decide (layer.walUlid < ulid)) = [] := by
        rw [filter_eq_nil_iff]
        intro layer' hlayer'
        rcases mem_cons.mp hlayer' with rfl | hlayer'
        · simpa using hlt
        · have := hfirst _ (mem_map_of_mem hlayer')
          simp only [decide_eq_true_eq]
          exact fun hcon => hlt (lt_trans this hcon)
      have hall : (layer :: frozen).filter (fun layer => decide (ulid ≤ layer.walUlid)) =
          layer :: frozen := by
        rw [filter_eq_self]
        intro layer' hlayer'
        have := filter_eq_nil_iff.mp hnone layer' hlayer'
        simpa using this
      rw [hnone, hall]
      rfl

/-- **Folding the layers below changes no read.** -/
theorem Inv.claimAt_below (hl : l.Inv) (hminted : l.Minted) (ulid : Ulid) (x : ℕ) :
    l.claimAt x = (l.claimOver ulid x).or ((l.belowUlid ulid).lbamap.lookupWithClaimant x) := by
  rw [belowUlid_eq, (hl.under ulid).lookupWithClaimant_materialised, claimAt_eq, claimAt_eq,
    claimOver, Option.or_assoc]
  have hdelta : (l.under ulid).delta.lbamap.lookupWithClaimant x = none := by
    rw [← LbaMap.value_tiles]
    simp [MapLayers.under, empty, tiles_new]
  rw [hdelta, none_or, claimBelow, claimBelow, ← layeredLookup_append]
  conv_lhs => rw [hminted.frozen_eq ulid]
  simp only [reverse_append, map_append, append_assoc]
  rfl

/-! ## Bodies -/

theorem lookup_belowUlid (l : MapLayers) (ulid : Ulid) (h : Hash) :
    (l.belowUlid ulid).extentIndex.lookup h = (l.base.extentIndex.lookup h).or
      (((l.frozen.filter fun layer => decide (layer.walUlid < ulid)).map
        maps).findSome? fun m => m.extentIndex.lookup h) :=
  lookup_foldl_fold l.base _ h

variable {h : Hash}

theorem isSome_lookup_belowUlid_iff :
    ((l.belowUlid ulid).extentIndex.lookup h).isSome = true ↔
      (l.base.extentIndex.lookup h).isSome = true ∨ ∃ layer ∈ l.frozen, layer.walUlid < ulid ∧
        (layer.maps.extentIndex.lookup h).isSome = true := by
  rw [lookup_belowUlid]
  simp [and_assoc]

/-! ## The swap of a fold below a ULID -/

/-- A layer above `ulid` covers the block. -/
def CoversOver (l : MapLayers) (ulid : Ulid) (x : ℕ) : Prop :=
  (l.delta.lbamap.lookupWithClaimant x).isSome = true ∨ ∃ layer ∈ l.frozen,
    ulid ≤ layer.walUlid ∧ (layer.maps.lbamap.lookupWithClaimant x).isSome = true

theorem isSome_claimOver_iff {x : ℕ} :
    (l.claimOver ulid x).isSome = true ↔ l.CoversOver ulid x := by
  rw [claimOver, layeredLookup, CoversOver]
  simp [and_assoc]

/-- A promote whose layer is gone moves no read. -/
theorem read_swapPromote_of_retired (hl : l.Inv) {wal : Ulid}
    (hgone : ∀ layer ∈ l.frozen, layer.walUlid ≠ wal) (calls : List RestampCall) (x : ℕ) :
    (l.swapPromote (restampAll calls (l.promoteBase wal)) wal).read x = l.read x := by
  have hbase : l.promoteBase wal = l.base := by
    rw [promoteBase, List.find?_eq_none.mpr fun layer hlayer => by simpa using hgone layer hlayer]
  have hfrozen : l.frozen.filter (fun layer => decide (layer.walUlid ≠ wal)) = l.frozen :=
    filter_eq_self.mpr fun layer hlayer => decide_eq_true (hgone layer hlayer)
  rw [read_eq, read_eq, swapPromote, hfrozen, hbase]
  exact congrArg (Option.or _) (congrArg (Option.or _) ((Promotes.restampAll_spec hl.base calls).2 x))

/-- **A fold below a ULID keeps every newer write on top.** Let `apply` be run on the layers below
`ulid` and its result be swapped in under whatever `delta` the guest has written by then. What a
frozen layer above `ulid` or `delta` covers reads as it did right before the swap, everything else
as `apply` left it; and a promote of a retired layer, in any later state without a layer of its tag,
moves no read. -/
theorem swapBelow_keeps_newer (hl : l.Inv) (hminted : l.Minted) (ulid : Ulid) (apply : Maps → Maps)
    {delta : Maps} (hdelta : delta.lbamap.Inv) :
    let now : MapLayers := { l with delta }
    let newBase := apply (l.belowUlid ulid)
    let after := now.swapBelow newBase ulid
    (∀ x, after.claimAt x = (now.above ulid newBase).claimAt x ∧
      (now.CoversOver ulid x → after.claimAt x = now.claimAt x) ∧
      (¬ now.CoversOver ulid x → after.claimAt x = newBase.lbamap.lookupWithClaimant x)) ∧
    ∀ later : MapLayers, later.Inv → ∀ layer ∈ l.frozen, layer.walUlid < ulid →
      (∀ kept ∈ later.frozen, kept.walUlid ≠ layer.walUlid) →
      ∀ (calls : List RestampCall) (base : Maps), later.foldPromote layer.walUlid
          (fun m => .ok (restampAll calls m)) = (.ok base : Except RegisterError Maps) →
        ∀ x, (later.swapPromote base layer.walUlid).read x = later.read x := by
  intro now newBase after
  have hnow : now.Inv := ⟨hl.base, hl.frozen, hdelta⟩
  have hafter : ∀ x, after.claimAt x = (now.claimOver ulid x).or
      (newBase.lbamap.lookupWithClaimant x) := claimAt_above
  refine ⟨fun x => ⟨rfl, fun hcov => ?_, fun hcov => ?_⟩, ?_⟩
  · obtain ⟨c, hc⟩ := isSome_iff_exists.mp (isSome_claimOver_iff.mpr hcov)
    rw [hafter, hnow.claimAt_below hminted ulid, hc]
    rfl
  · rw [← isSome_claimOver_iff, Bool.not_eq_true, isSome_eq_false_iff, isNone_iff_eq_none] at hcov
    rw [hafter, hcov, none_or]
  · intro later hlater layer _ _ hretired calls base hfold x
    rw [foldPromote_eq] at hfold
    rw [← Except.ok.inj hfold]
    exact read_swapPromote_of_retired hlater hretired calls x

/-- Two frozen layers around the ULID, and a write of the guest between fold and swap. -/
theorem swapBelow_keeps_newer_between :
    let claim (x : ℕ) (h : Hash) (c : Ulid) : Maps := ⟨LbaMap.new.insert x 1 h c, .new⟩
    let l : MapLayers := ⟨.empty, [⟨5, claim 0 1 5⟩, ⟨9, claim 1 2 9⟩], .empty⟩
    l.Inv ∧ l.Minted ∧ (({ l with delta := claim 2 3 11 } : MapLayers).swapBelow
      (l.belowUlid 7) 7).claimAt 0 = (l.belowUlid 7).lbamap.lookupWithClaimant 0 := by
  intro claim l
  have hclaim : ∀ x h c, (claim x h c).lbamap.Inv := fun x h c =>
    LbaMap.inv_new.insertInner Nat.one_pos 0 h c
  have hl : l.Inv := ⟨inv_new, by simp [l, hclaim], inv_new⟩
  have hminted : l.Minted := by simp [Minted, l]
  have h := (swapBelow_keeps_newer hl hminted 7 id (hclaim 2 3 11)).1 0
  exact ⟨hl, hminted, h.2.2 (by rw [← isSome_claimOver_iff]; decide +kernel)⟩

end MapLayers

end Elide
