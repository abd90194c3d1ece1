import Elide.ExtentIndex.Lookups

/-!
# Lookups through the layers

A lookup asks `delta`, then the frozen layers newest first, then `base`. A fold keeps the older
location where two layers hold one, so the map with every layer folded in answers in the opposite
order. The two agree on whether there is an answer, and on the answer where one layer holds it.

A promote takes the epoch in three moves: it freezes `delta`, folds that layer into `base`, and
retires it. `foldPromote_freeze` and `swapPromote_freeze` put them together.
-/

namespace Elide

open List FrozenLayer Maps

namespace Maps

variable {base layer : Maps}

/-- Nothing is looked up in an empty layer. -/
theorem lookups_of_isEmpty (h : layer.isEmpty = true) :
    (∀ k, layer.extentIndex.lookup k = none) ∧ (∀ k, layer.extentIndex.lookupDelta k = none) ∧
      ∀ s k, layer.extentIndex.lookupJournal s k = none := by
  simp only [isEmpty, ExtentIndex.isEmpty, ExtentIndex.journalIsEmpty, Bool.and_eq_true,
    List.isEmpty_iff] at h
  obtain ⟨⟨-, hinner, hdeltas⟩, hjournal⟩ := h
  refine ⟨fun k => ?_, fun k => ?_, fun s k => ?_⟩
  · rw [ExtentIndex.lookup, AList.lookup, hinner, dlookup_nil]
  · rw [ExtentIndex.lookupDelta, AList.lookup, hdeltas, dlookup_nil]
  · rw [ExtentIndex.lookupJournal, AList.lookup, hjournal, dlookup_nil, Option.bind_none]

/-- An empty layer folds away. -/
theorem fold_of_isEmpty (h : layer.isEmpty = true) : base.fold layer = base := by
  simp only [isEmpty, LbaMap.isEmpty, ExtentIndex.isEmpty, ExtentIndex.journalIsEmpty,
    Bool.and_eq_true, List.isEmpty_iff] at h
  obtain ⟨⟨hlba, hinner, -⟩, hjournal⟩ := h
  rw [fold, LbaMap.iterEntriesWithClaimant, hlba, hinner, hjournal]
  rfl

end Maps

namespace MapLayers

variable (l : MapLayers)

/-- The layers under the open epoch. -/
def below : MapLayers := { l with delta := .empty }

theorem findSome?_all {α : Type*} (g : Maps → Option α) : l.all.findSome? g = (g l.delta).or
      (((l.frozen.reverse.map maps).findSome? g).or (g l.base)) := by
  rw [all, findSome?_cons, findSome?_append]
  have hbase : List.findSome? g [l.base] = g l.base := by
    rw [findSome?_cons]
    cases g l.base <;> rfl
  rw [hbase]
  cases g l.delta <;> rfl

theorem lookupExtent_eq (h : Hash) :
    l.lookupExtent h = (l.delta.extentIndex.lookup h).or (l.below.lookupExtent h) := by
  rw [lookupExtent, lookupExtent, findSome?_all, findSome?_all]
  rfl

theorem lookup_foldl_fold (base : Maps) (frozen : List FrozenLayer) (h : Hash) :
    (frozen.foldl (fun maps layer => maps.fold layer.maps) base).extentIndex.lookup h =
      (base.extentIndex.lookup h).or
        ((frozen.map maps).findSome? fun m => m.extentIndex.lookup h) := by
  induction frozen generalizing base with
  | nil => simp
  | cons layer frozen ih =>
    rw [foldl_cons, ih, lookupExtent_fold, map_cons, findSome?_cons, Option.or_assoc]
    cases layer.maps.extentIndex.lookup h <;> rfl

theorem materialised_eq : l.materialised =
    (l.frozen.foldl (fun maps layer => maps.fold layer.maps) l.base).fold l.delta := by
  rw [materialised]
  by_cases hd : l.delta.isEmpty = true
  · rw [fold_of_isEmpty hd]
    split_ifs with hf
    · rw [Bool.and_eq_true, List.isEmpty_iff] at hf
      rw [hf.1]
      rfl
    · rfl
  · rw [if_neg (fun h => hd (Bool.and_eq_true _ _ ▸ h).2), if_neg hd]

/-- **One map for all layers.** The oldest location of a hash wins. -/
theorem lookup_materialised (h : Hash) : l.materialised.extentIndex.lookup h =
    (l.base.extentIndex.lookup h).or
      (((l.frozen.map maps).findSome? fun m => m.extentIndex.lookup h).or
        (l.delta.extentIndex.lookup h)) := by
  rw [materialised_eq, lookupExtent_fold, lookup_foldl_fold, Option.or_assoc]

/-- What is at a segment in `base` is at it in the map with every layer folded in. -/
theorem lookup_materialised_of_base {l : MapLayers} {h : Hash} {loc : ExtentLocation}
    (hloc : l.base.extentIndex.lookup h = some loc) :
    l.materialised.extentIndex.lookup h = some loc := by
  rw [lookup_materialised, hloc, Option.some_or]

theorem lookupDelta_materialised (l : MapLayers) (h : Hash) :
    l.materialised.extentIndex.lookupDelta h = l.base.extentIndex.lookupDelta h := by
  rw [materialised_eq, lookupDelta_fold]
  generalize l.base = base
  induction l.frozen generalizing base with
  | nil => rfl
  | cons layer frozen ih => rw [foldl_cons, ih, lookupDelta_fold]

/-- With no recipe in the layers over it, `base` answers. -/
theorem lookupDelta_eq_base {h : Hash} (hdelta : l.delta.extentIndex.lookupDelta h = none)
    (hfrozen : ∀ layer ∈ l.frozen, layer.maps.extentIndex.lookupDelta h = none) :
    l.lookupDelta h = l.base.extentIndex.lookupDelta h := by
  have hnone : (l.frozen.reverse.map maps).findSome?
      (fun m => m.extentIndex.lookupDelta h) = none := by
    rw [findSome?_eq_none_iff]
    intro m hm
    obtain ⟨layer, hlayer, rfl⟩ := mem_map.mp hm
    exact hfrozen layer (mem_reverse.mp hlayer)
  rw [lookupDelta, findSome?_all, hdelta, hnone, Option.none_or, Option.none_or]

/-- Which layer comes first plays no part in whether one answers. -/
theorem isSome_below_iff (h : Hash) : (l.below.lookupExtent h).isSome = true ↔
    (l.base.extentIndex.lookup h).isSome = true ∨
      ((l.frozen.map maps).findSome? fun m => m.extentIndex.lookup h).isSome = true := by
  rw [lookupExtent, findSome?_all, map_reverse]
  show ((none : Option ExtentLocation).or _).isSome = true ↔ _
  rw [Option.none_or, Option.isSome_or, Bool.or_eq_true, or_comm, findSome?_isSome_iff,
    findSome?_isSome_iff]
  simp only [mem_reverse]
  rfl

/-! ## Taking an epoch -/

variable {l} {wal : Ulid}

theorem materialised_freeze : (l.freeze wal).materialised = l.materialised := by
  rw [materialised_eq, materialised_eq, freeze]
  split_ifs with hd
  · rfl
  · rw [foldl_append]
    rfl

/-- Frozen and folded at once: the epoch lands on `base`. -/
theorem foldPromote_freeze {ε : Type*} (hwal : ∀ layer ∈ l.frozen, layer.walUlid ≠ wal)
    (apply : Maps → Except ε Maps) :
    (l.freeze wal).foldPromote wal apply = apply (l.base.fold l.delta) := by
  have hnone : (l.frozen.find? fun layer => decide (layer.walUlid = wal)) = none := by
    rw [find?_eq_none]
    intro layer hlayer
    simpa using hwal layer hlayer
  rw [foldPromote, freeze]
  split_ifs with hd
  · rw [hnone, fold_of_isEmpty hd]
  · rw [find?_append, hnone, find?_singleton, decide_eq_true rfl]
    rfl

/-- Retired, the epoch leaves the older layers as they were and an empty `delta`. -/
theorem swapPromote_freeze (hwal : ∀ layer ∈ l.frozen, layer.walUlid ≠ wal) (newBase : Maps) :
    ∃ delta, (l.freeze wal).swapPromote newBase wal = ⟨newBase, l.frozen, delta⟩ ∧
      delta.isEmpty = true := by
  have hkeep : l.frozen.filter (fun layer => decide (layer.walUlid ≠ wal)) = l.frozen := by
    rw [filter_eq_self]
    intro layer hlayer
    simpa using hwal layer hlayer
  rw [swapPromote, freeze]
  split_ifs with hd
  · exact ⟨l.delta, by rw [hkeep], hd⟩
  · refine ⟨.empty, ?_, rfl⟩
    rw [filter_append, hkeep]
    simp

end MapLayers

end Elide
