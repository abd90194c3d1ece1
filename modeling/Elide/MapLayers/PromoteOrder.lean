import Elide.Lib.Run
import Elide.MapLayers.Reads

/-!
# The order in which promotes complete

Guest writes enter `delta`, a freeze turns `delta` into a frozen layer, and a promote folds one
frozen layer into `base` and retires it. The fold runs with the volume mutex released, so writes
and freezes may come between a fold and its swap. A failed promote is stashed and retried, so the
promotes of different epochs may complete in any order.

The layers are read in epoch order, but the fold puts its layer under every layer still frozen.
When an older epoch is still there, its claims come to mask the newer ones just folded. A swap
leaves reads alone exactly when no block shows such a mask (`Promotes.SwapKeepsOrder`), and a run
reads the last write in every state exactly when every swap does.

## Main results

* `Promotes.reads_last_write_iff` — the exact condition, over every run
* `Promotes.swapKeepsOrder_of_oldest` — promoting the oldest frozen epoch always meets it
-/

namespace Elide

open List MapLayers Maps

/-! ## Reads without claimants -/

/-- Hash and payload offset at `x` in the first layer that covers it. -/
def layeredRead (layers : List LbaMap) (x : ℕ) : Option (Hash × ℕ) :=
  layers.findSome? fun m => m.lookup x

theorem layeredRead_append (as bs : List LbaMap) (x : ℕ) :
    layeredRead (as ++ bs) x = (layeredRead as x).or (layeredRead bs x) := by
  rw [layeredRead, findSome?_append]
  rfl

theorem layeredRead_cons (m : LbaMap) (ms : List LbaMap) (x : ℕ) :
    layeredRead (m :: ms) x = (m.lookup x).or (layeredRead ms x) := by
  rw [layeredRead, findSome?_cons]
  cases m.lookup x <;> rfl

theorem layeredRead_eq_map (layers : List LbaMap) (x : ℕ) :
    layeredRead layers x = (layeredLookup layers x).map fun v => (v.1, v.2.1) := by
  induction layers with
  | nil => rfl
  | cons m ms ih =>
    rw [layeredRead_cons, ih, LbaMap.lookup_eq_map, layeredLookup, layeredLookup, findSome?_cons]
    cases m.lookupWithClaimant x <;> rfl

theorem Maps.lookup_fold {base layer : Maps} (hb : base.lbamap.Inv) (hl : layer.lbamap.Inv)
    (x : ℕ) : (base.fold layer).lbamap.lookup x =
      (layer.lbamap.lookup x).or (base.lbamap.lookup x) := by
  rw [LbaMap.lookup_eq_map, LbaMap.lookup_eq_map, LbaMap.lookup_eq_map, ← LbaMap.value_tiles,
    (tiles_fold hb hl).2, Tiling.value_mul, LbaMap.value_tiles, LbaMap.value_tiles]
  cases layer.lbamap.lookupWithClaimant x <;> rfl

namespace MapLayers

/-- Hash and payload offset the layers hold at `x`. -/
def read (l : MapLayers) (x : ℕ) : Option (Hash × ℕ) := layeredRead (l.all.map lbamap) x

/-- The frozen layers as LBA maps, newest first. -/
def newestFirst (fs : List FrozenLayer) : List LbaMap := fs.reverse.map fun f => f.maps.lbamap

theorem read_eq (l : MapLayers) (x : ℕ) : l.read x = (l.delta.lbamap.lookup x).or
      ((layeredRead (newestFirst l.frozen) x).or (l.base.lbamap.lookup x)) := by
  rw [read, all, map_cons, layeredRead_cons, map_append, map_map, layeredRead_append]
  simp only [map_cons, map_nil, layeredRead_cons]
  rw [show layeredRead [] x = none from rfl, Option.or_none]
  rfl

/-- Whatever range is read, `extentsInRange` yields `read` at each of its blocks. -/
theorem Inv.readAt_extentsInRange {l : MapLayers} (hl : l.Inv) {start stop x : ℕ}
    (h1 : start ≤ x) (h2 : x < stop) :
    (ExtentRead.readAt (l.extentsInRange start stop) x).map (fun v => (v.1, v.2.1)) = l.read x := by
  rw [(hl.reads (by omega : start ≤ stop)).readAt_eq x h1 h2, l.value_tiles, read,
    layeredRead_eq_map]

theorem Inv.read_deltaInsert {l : MapLayers} (hl : l.Inv) {start len : ℕ} (hlen : 0 < len)
    (hash : Hash) (claimant : Ulid) (x : ℕ) : (l.deltaInsert start len hash claimant).read x =
      if start ≤ x ∧ x < start + len then some (hash, x - start) else l.read x := by
  have hdelta : (l.delta.lbamap.insert start len hash claimant).lookup x =
      if start ≤ x ∧ x < start + len then some (hash, x - start)
      else l.delta.lbamap.lookup x := by
    rw [LbaMap.lookup_eq_map, LbaMap.insert,
      hl.delta.lookupWithClaimant_insertInner hlen, LbaMap.lookup_eq_map]
    split_ifs <;> simp
  rw [read_eq, read_eq, deltaInsert]
  simp only [hdelta]
  split_ifs <;> rfl

end MapLayers

/-! ## Runs -/

/-- One `set_claimant_if_matches` call of a promote's apply. -/
structure RestampCall where
  startLba : ℕ
  lbaLength : ℕ
  expectedHash : Hash
  newClaimant : Ulid

/-- An apply that only restamps claimants. -/
def restampAll (calls : List RestampCall) (m : Maps) : Maps :=
  { m with lbamap := calls.foldl (fun m c =>
      (m.setClaimantIfMatches c.startLba c.lbaLength c.expectedHash c.newClaimant).1) m.lbamap }

/-- The layers with the promotes under way. -/
structure Promotes where
  layers : MapLayers
  /-- The last WAL ULID frozen. -/
  lastWal : Option Ulid
  /-- Frozen epochs whose promote has not completed. -/
  pending : List Ulid
  /-- A fold that waits for its swap. -/
  folded : Option (Ulid × Maps)
  /-- Every guest write so far, newest first. -/
  history : List GuestWrite

namespace Promotes

/-- What happens to the layers. -/
inductive Action where
  | insert (startLba lbaLength : ℕ) (hash : Hash) (claimant : Ulid)
  | freeze (walUlid : Ulid)
  | foldPromote (walUlid : Ulid) (calls : List RestampCall)
  | swapPromote

/-- A volume with nothing in it. -/
def init : Promotes := ⟨new .empty, none, [], none, []⟩

variable (s : Promotes)

/-- One action. -/
def step : Action → Promotes
  | .insert start len hash claimant =>
    { s with
      layers := s.layers.deltaInsert start len hash claimant
      history := ⟨start, len, hash⟩ :: s.history }
  | .freeze wal =>
    { s with layers := s.layers.freeze wal, lastWal := some wal, pending := s.pending ++ [wal] }
  | .foldPromote wal calls =>
    match s.layers.foldPromote wal fun m => (.ok (restampAll calls m) : Except Unit Maps) with
    | .ok newBase => { s with folded := some (wal, newBase) }
    | .error _ => s
  | .swapPromote =>
    match s.folded with
    | none => s
    | some (wal, newBase) =>
      { s with
        layers := s.layers.swapPromote newBase wal
        pending := s.pending.filter fun w => decide (w ≠ wal)
        folded := none }

/-- WAL ULIDs ascend, each pending epoch is promoted once and under segment ULIDs above its WAL's,
one fold at a time. -/
def Legal : Action → Prop
  | .insert start len _ _ => LbaMap.Fits start len 0
  | .freeze wal => ∀ w ∈ s.lastWal, w < wal
  | .foldPromote wal calls =>
    s.folded = none ∧ wal ∈ s.pending ∧ ∀ c ∈ calls, wal < c.newClaimant
  | .swapPromote => s.folded.isSome = true

/-- At every block of every range, `extentsInRange` yields the hash and payload offset of the last
write that covers it, and nothing where no write does. -/
def ReadsLastWrite : Prop :=
  ∀ start stop x, start ≤ x → x < stop →
    (ExtentRead.readAt (s.layers.extentsInRange start stop) x).map (fun v => (v.1, v.2.1)) =
      lastWrite s.history x

/-- The frozen layer of an epoch at `x`. -/
def epochRead (wal : Ulid) (x : ℕ) : Option (Hash × ℕ) :=
  (s.layers.frozen.find? fun f => decide (f.walUlid = wal)).bind fun f => f.maps.lbamap.lookup x

/-- The frozen layers of the epochs after `wal`. -/
def newer (wal : Ulid) : List FrozenLayer :=
  s.layers.frozen.filter fun f => decide (wal < f.walUlid)

/-- The frozen layers of the epochs before `wal`. -/
def older (wal : Ulid) : List FrozenLayer :=
  s.layers.frozen.filter fun f => decide (f.walUlid < wal)

/-- Where the folded epoch's claim is the one read, no older epoch still frozen claims the block
for anything else. -/
def SwapKeepsOrder : Action → Prop
  | .swapPromote => ∀ wal newBase, s.folded = some (wal, newBase) → ∀ x v, s.epochRead wal x = some v →
      s.layers.delta.lbamap.lookup x = none →
      layeredRead (newestFirst (s.newer wal)) x = none →
      ∀ u, layeredRead (newestFirst (s.older wal)) x = some u → u = v
  | _ => True

/-! ## The invariant of a run -/

/-- `wal` has been frozen, or is below one that has. -/
def Below (wal : Ulid) : Prop := ∃ z ∈ s.lastWal, wal ≤ z

/-- What holds in every state, whether or not reads are right. -/
structure Ok (s : Promotes) : Prop where
  layers : s.layers.Inv
  /-- Frozen layers are in epoch order. -/
  sorted : s.layers.frozen.Pairwise fun f g => f.walUlid < g.walUlid
  frozen : ∀ f ∈ s.layers.frozen, s.Below f.walUlid
  pending : ∀ w ∈ s.pending, s.Below w
  /-- A fold holds its epoch over `base`. -/
  folded : ∀ wal newBase, s.folded = some (wal, newBase) → s.Below wal ∧ newBase.lbamap.Inv ∧
    ∀ x, newBase.lbamap.lookup x = (s.epochRead wal x).or (s.layers.base.lbamap.lookup x)

theorem ok_init : init.Ok where
  layers := ⟨LbaMap.inv_new, by simp [init, new], LbaMap.inv_new⟩
  sorted := List.Pairwise.nil
  frozen := by simp [init, new]
  pending := by simp [init]
  folded := by simp [init]

theorem restampAll_spec {m : Maps} (hm : m.lbamap.Inv) (calls : List RestampCall) :
    (restampAll calls m).lbamap.Inv ∧
      ∀ x, (restampAll calls m).lbamap.lookup x = m.lbamap.lookup x := by
  simp only [restampAll]
  generalize m.lbamap = l at hm
  induction calls generalizing l with
  | nil => exact ⟨hm, fun x => rfl⟩
  | cons c calls ih =>
    obtain ⟨hinv, hlook⟩ := ih _ (hm.restamp : (l.setClaimantIfMatches c.startLba c.lbaLength
      c.expectedHash c.newClaimant).1.Inv)
    exact ⟨hinv, fun x => (hlook x).trans (hm.wf.lookup_restamp x)⟩

variable {s : Promotes}

/-- A fold that succeeds is the epoch's layer over `base`, as far as reads go. -/
theorem foldPromote_spec (hl : s.layers.Inv) (wal : Ulid) (calls : List RestampCall) :
    ∃ newBase, s.step (.foldPromote wal calls) = { s with folded := some (wal, newBase) } ∧
      newBase.lbamap.Inv ∧
      ∀ x, newBase.lbamap.lookup x = (s.epochRead wal x).or (s.layers.base.lbamap.lookup x) := by
  simp only [step, foldPromote, epochRead]
  cases hfind : s.layers.frozen.find? fun f => decide (f.walUlid = wal) with
  | none =>
    obtain ⟨hinv, hlook⟩ := restampAll_spec hl.base calls
    exact ⟨_, rfl, hinv, hlook⟩
  | some f =>
    have hf := hl.frozen f (mem_of_find?_eq_some hfind)
    obtain ⟨hinv, hlook⟩ := restampAll_spec (tiles_fold hl.base hf).1 calls
    exact ⟨_, rfl, hinv, fun x => (hlook x).trans (lookup_fold hl.base hf x)⟩

theorem deltaInsert_inv {l : MapLayers} (hl : l.Inv) {start len : ℕ} (hfit : LbaMap.Fits start len 0)
    (hash : Hash) (claimant : Ulid) : (l.deltaInsert start len hash claimant).Inv :=
  ⟨hl.base, hl.frozen, hl.delta.insertInner hfit.1 0 hash claimant⟩

theorem freeze_inv {l : MapLayers} (hl : l.Inv) (wal : Ulid) : (l.freeze wal).Inv := by
  rw [freeze]
  split_ifs
  · exact hl
  · exact ⟨hl.base, forall_mem_append.mpr ⟨hl.frozen, forall_mem_singleton.mpr hl.delta⟩,
      LbaMap.inv_new⟩

theorem freeze_base (l : MapLayers) (wal : Ulid) : (l.freeze wal).base = l.base := by
  rw [freeze]
  split_ifs <;> rfl

/-- A freeze of a later WAL hides no epoch from the fold that waits. -/
theorem epochRead_freeze {wal w : Ulid} (hne : wal ≠ w) (x : ℕ) :
    (s.step (.freeze wal)).epochRead w x = s.epochRead w x := by
  simp only [epochRead, step]
  rcases s.layers.frozen_freeze wal with h | h
  · rw [h]
  · rw [h]
    simp [if_neg hne]

theorem Ok.step (hs : s.Ok) {a : Action} (ha : s.Legal a) : (s.step a).Ok := by
  cases a with
  | insert start len hash claimant =>
    exact ⟨deltaInsert_inv hs.layers ha hash claimant, hs.sorted, hs.frozen, hs.pending, hs.folded⟩
  | freeze wal =>
    have hbelow : ∀ w, s.Below w → w < wal := fun w ⟨z, hz, hle⟩ => lt_of_le_of_lt hle (ha z hz)
    have hkeep : ∀ w, s.Below w → (s.step (.freeze wal)).Below w := fun w hw =>
      ⟨wal, rfl, (hbelow w hw).le⟩
    refine ⟨freeze_inv hs.layers wal, ?_, forall_mem_freeze _ (fun f hf => hkeep _ (hs.frozen f hf))
      ⟨wal, rfl, le_rfl⟩, forall_mem_append.mpr ⟨fun w hw => hkeep w (hs.pending w hw),
      forall_mem_singleton.mpr ⟨wal, rfl, le_rfl⟩⟩, fun w newBase hfold => ?_⟩
    · show (s.layers.freeze wal).frozen.Pairwise _
      rcases s.layers.frozen_freeze wal with h | h
      · rw [h]; exact hs.sorted
      · rw [h, pairwise_append]
        refine ⟨hs.sorted, pairwise_singleton _ _, fun f hf g hg => ?_⟩
        obtain rfl := mem_singleton.mp hg
        exact hbelow _ (hs.frozen f hf)
    · obtain ⟨hw, hinv, hlook⟩ := hs.folded w newBase hfold
      refine ⟨hkeep w hw, hinv, fun x => ?_⟩
      rw [epochRead_freeze (hbelow w hw).ne', hlook x]
      show _ = (s.epochRead w x).or ((s.layers.freeze wal).base.lbamap.lookup x)
      rw [freeze_base]
  | foldPromote wal calls =>
    obtain ⟨newBase, heq, hinv, hlook⟩ := foldPromote_spec hs.layers wal calls
    rw [heq]
    refine ⟨hs.layers, hs.sorted, hs.frozen, hs.pending, fun w nb hw => ?_⟩
    cases hw
    exact ⟨hs.pending wal ha.2.1, hinv, hlook⟩
  | swapPromote =>
    cases hfold : s.folded with
    | none => simp [Legal, hfold] at ha
    | some p =>
      obtain ⟨wal, newBase⟩ := p
      obtain ⟨-, hinv, -⟩ := hs.folded wal newBase hfold
      simp only [Promotes.step, hfold]
      refine ⟨⟨hinv, fun f hf => hs.layers.frozen f (mem_of_mem_filter hf), hs.layers.delta⟩,
        hs.sorted.filter _, fun f hf => hs.frozen f (mem_of_mem_filter hf),
        fun w hw => hs.pending w (mem_of_mem_filter hw), by simp⟩

/-! ## What each step does to reads -/

theorem readsLastWrite_iff (hl : s.layers.Inv) :
    s.ReadsLastWrite ↔ ∀ x, s.layers.read x = lastWrite s.history x := by
  constructor
  · intro h x
    rw [← h x (x + 1) x (le_refl x) (by omega), hl.readAt_extentsInRange (le_refl x) (by omega)]
  · intro h start stop x h1 h2
    rw [hl.readAt_extentsInRange h1 h2, h x]

theorem read_insert (hl : s.layers.Inv) {start len : ℕ} (hfit : LbaMap.Fits start len 0)
    (hash : Hash) (claimant : Ulid) (x : ℕ) :
    (s.step (.insert start len hash claimant)).layers.read x =
      if start ≤ x ∧ x < start + len then some (hash, x - start) else s.layers.read x :=
  hl.read_deltaInsert hfit.1 hash claimant x

theorem read_freeze (wal : Ulid) (x : ℕ) :
    (s.step (.freeze wal)).layers.read x = s.layers.read x := by
  rw [read_eq, read_eq, step, freeze]
  split_ifs
  · rfl
  · have hempty : empty.lbamap.lookup x = none := rfl
    simp only [newestFirst, reverse_append, reverse_singleton,
      singleton_append, map_cons, layeredRead_cons, hempty, Option.none_or]
    rw [Option.or_assoc]

/-- Layers in epoch order, split at one epoch. -/
theorem frozen_split {fs : List FrozenLayer} (hs : fs.Pairwise fun f g => f.walUlid < g.walUlid)
    (wal : Ulid) :
    fs = fs.filter (fun f => decide (f.walUlid < wal)) ++
        ((fs.find? fun f => decide (f.walUlid = wal)).toList ++
          fs.filter fun f => decide (wal < f.walUlid)) ∧
      fs.filter (fun f => decide (f.walUlid ≠ wal)) =
        fs.filter (fun f => decide (f.walUlid < wal)) ++
          fs.filter fun f => decide (wal < f.walUlid) := by
  induction fs with
  | nil => exact ⟨rfl, rfl⟩
  | cons f fs ih =>
    obtain ⟨hlt, hs⟩ := pairwise_cons.mp hs
    obtain ⟨ih₁, ih₂⟩ := ih hs
    by_cases hf : f.walUlid < wal
    · have h1 : ¬ f.walUlid = wal := ne_of_lt hf
      have h2 : ¬ wal < f.walUlid := hf.not_gt
      simp only [filter_cons, find?_cons, hf, h1, h2, ne_eq, not_false_eq_true,
        decide_true, if_true]
      exact ⟨congrArg _ ih₁, congrArg _ ih₂⟩
    · -- every later layer is above `wal`
      have hall : ∀ g ∈ fs, wal < g.walUlid := fun g hg =>
        lt_of_le_of_lt (not_lt.mp hf) (hlt g hg)
      have hnone : fs.filter (fun g => decide (g.walUlid < wal)) = [] :=
        filter_eq_nil_iff.mpr fun g hg => by simpa using (hall g hg).le
      have hsame : fs.filter (fun g => decide (wal < g.walUlid)) = fs :=
        filter_eq_self.mpr fun g hg => by simpa using hall g hg
      have hne : ∀ g ∈ fs, ¬ g.walUlid = wal := fun g hg => (hall g hg).ne'
      by_cases heq : f.walUlid = wal
      · simpa [heq, hnone, hsame] using hne
      · have hgt : wal < f.walUlid := lt_of_le_of_ne (not_lt.mp hf) (Ne.symm heq)
        simpa [hf, heq, hgt, hnone, hsame] using hne

/-- The frozen layers, newest first, around one epoch. -/
theorem Ok.layeredRead_frozen (hs : s.Ok) (wal : Ulid) (x : ℕ) :
    layeredRead (newestFirst s.layers.frozen) x = (layeredRead (newestFirst (s.newer wal)) x).or
        ((s.epochRead wal x).or (layeredRead (newestFirst (s.older wal)) x)) := by
  have hepoch : layeredRead (newestFirst
      (s.layers.frozen.find? fun f => decide (f.walUlid = wal)).toList) x = s.epochRead wal x := by
    rw [epochRead]
    cases s.layers.frozen.find? fun f => decide (f.walUlid = wal) with
    | none => rfl
    | some f =>
      simp only [Option.toList_some, newestFirst, reverse_singleton, map_cons, layeredRead_cons]
      exact Option.or_none
  have happend : ∀ as bs : List FrozenLayer, layeredRead (newestFirst (as ++ bs)) x =
      (layeredRead (newestFirst bs) x).or (layeredRead (newestFirst as) x) := by
    intro as bs
    rw [newestFirst, reverse_append, map_append, layeredRead_append]
    rfl
  conv_lhs => rw [(frozen_split hs.sorted wal).1]
  rw [happend, happend, hepoch, Option.or_assoc]
  rfl

theorem Ok.layeredRead_retired (hs : s.Ok) (wal : Ulid) (x : ℕ) : layeredRead (newestFirst
      (s.layers.frozen.filter fun f => decide (f.walUlid ≠ wal))) x =
      (layeredRead (newestFirst (s.newer wal)) x).or
        (layeredRead (newestFirst (s.older wal)) x) := by
  rw [(frozen_split hs.sorted wal).2, newestFirst, reverse_append, map_append, layeredRead_append]
  rfl

/-- **What a swap does to a read.** It is unchanged unless the folded epoch's claim was the one
read and an older frozen epoch claims the block for something else. -/
theorem Ok.read_swap_iff (hs : s.Ok) {wal : Ulid} {newBase : Maps}
    (hfold : s.folded = some (wal, newBase)) (x : ℕ) :
    (s.step .swapPromote).layers.read x = s.layers.read x ↔
      (∀ v, s.epochRead wal x = some v → s.layers.delta.lbamap.lookup x = none →
        layeredRead (newestFirst (s.newer wal)) x = none →
        ∀ u, layeredRead (newestFirst (s.older wal)) x = some u → u = v) := by
  obtain ⟨-, -, hlook⟩ := hs.folded wal newBase hfold
  rw [read_eq, read_eq, hs.layeredRead_frozen wal x]
  simp only [Promotes.step, hfold, swapPromote, hs.layeredRead_retired wal x, hlook x]
  cases s.layers.delta.lbamap.lookup x with
  | some d => simp
  | none =>
    cases layeredRead (newestFirst (s.newer wal)) x with
    | some n => simp
    | none =>
      cases s.epochRead wal x with
      | none => simp
      | some v => cases layeredRead (newestFirst (s.older wal)) x <;> simp

/-- One step keeps reads right exactly under its condition. -/
theorem Ok.readsLastWrite_step_iff (hs : s.Ok) {a : Action} (ha : s.Legal a) (hr : s.ReadsLastWrite) :
    (s.step a).ReadsLastWrite ↔ s.SwapKeepsOrder a := by
  have hs' := hs.step ha
  rw [readsLastWrite_iff hs'.layers]
  rw [readsLastWrite_iff hs.layers] at hr
  cases a with
  | insert start len hash claimant =>
    refine iff_of_true (fun x => ?_) trivial
    rw [read_insert hs.layers ha, hr x]
    simp only [Promotes.step, lastWrite]
    by_cases hx : start ≤ x ∧ x < start + len <;> simp [hx]
  | freeze wal => exact iff_of_true (fun x => (read_freeze wal x).trans (hr x)) trivial
  | foldPromote wal calls =>
    refine iff_of_true (fun x => ?_) trivial
    obtain ⟨newBase, heq, -⟩ := foldPromote_spec hs.layers wal calls
    rw [heq]
    exact hr x
  | swapPromote =>
    obtain ⟨⟨wal, newBase⟩, hfold⟩ := Option.isSome_iff_exists.mp ha
    have hhist : (s.step .swapPromote).history = s.history := by simp [Promotes.step, hfold]
    rw [hhist]
    constructor
    · intro h wal' newBase' hfold'
      rw [hfold] at hfold'
      obtain ⟨rfl, rfl⟩ := hfold'
      exact fun x => (hs.read_swap_iff hfold x).mp ((h x).trans (hr x).symm)
    · intro h x
      exact ((hs.read_swap_iff hfold x).mpr (h wal newBase hfold x)).trans (hr x)

theorem readsLastWrite_init : init.ReadsLastWrite :=
  (readsLastWrite_iff ok_init.layers).mpr fun _ => rfl

/-- **Promote order, exactly when.** In a run of guest writes, freezes and promotes that complete
in any order, every read of every state yields the last write if and only if no swap puts a claim
under an older epoch that is still frozen and claims the block for something else. -/
theorem reads_last_write_iff {as : List Action} (hlegal : Run.Each step Legal init as) :
    Run.Always step ReadsLastWrite init as ↔ Run.Each step SwapKeepsOrder init as :=
  Run.always_iff_each (I := Ok) (fun _ _ hs ha => hs.step ha)
    (fun _ _ hs ha hr => hs.readsLastWrite_step_iff ha hr) ok_init readsLastWrite_init hlegal

/-- The promote of the oldest frozen epoch leaves every read alone, whatever is frozen above. -/
theorem swapKeepsOrder_of_oldest
    (hold : ∀ wal newBase, s.folded = some (wal, newBase) → s.older wal = []) :
    s.SwapKeepsOrder .swapPromote := by
  intro wal newBase hfold x v _ _ _ u hu
  rw [hold wal newBase hfold] at hu
  simp [newestFirst, layeredRead] at hu

/-- Two epochs that write the same block, promoted in order: the second write is read throughout,
the two states between a fold and its swap included. -/
theorem reads_last_write_in_order : Run.Always step ReadsLastWrite init
      [.insert 0 1 1 10, .freeze 10, .insert 0 1 2 20, .freeze 20, .foldPromote 10 [⟨0, 1, 1, 11⟩],
        .swapPromote, .foldPromote 20 [⟨0, 1, 2, 21⟩], .swapPromote] := by
  have hfit : LbaMap.Fits 0 1 0 := by decide
  refine (reads_last_write_iff ?_).mpr ⟨trivial, trivial, trivial, trivial, trivial,
    swapKeepsOrder_of_oldest fun wal newBase hfold => ?_, trivial,
    swapKeepsOrder_of_oldest fun wal newBase hfold => ?_, trivial⟩
  · exact ⟨hfit, by simp [Legal, step, init], hfit, by simp [Legal, step],
      ⟨rfl, by simp [step], by simp⟩, rfl, ⟨rfl, mem_singleton_self 20, by simp⟩, rfl, trivial⟩
  · cases hfold; rfl
  · cases hfold; rfl

/-- The same two epochs with the newer one promoted first: its claim goes under the frozen older
epoch, and the block reads the first write. -/
theorem newer_epoch_promoted_first :
    let run : List Action :=
      [.insert 0 1 1 10, .freeze 10, .insert 0 1 2 20, .freeze 20, .foldPromote 20 [⟨0, 1, 2, 21⟩],
        .swapPromote]
    Run.Each step Legal init run ∧
      (ExtentRead.readAt ((run.foldl step init).layers.extentsInRange 0 1) 0).map
        (fun v => (v.1, v.2.1)) = some (1, 0) ∧
      lastWrite (run.foldl step init).history 0 = some (2, 0) ∧
      ¬ Run.Always step ReadsLastWrite init run := by
  intro run
  have hfit : LbaMap.Fits 0 1 0 := by decide
  have hread : (ExtentRead.readAt ((run.foldl step init).layers.extentsInRange 0 1) 0).map
      (fun v => (v.1, v.2.1)) = some (1, 0) := by decide
  refine ⟨⟨hfit, by simp [Legal, step, init], hfit, by simp [Legal, step],
    ⟨rfl, by simp [step], by simp⟩, rfl, trivial⟩, hread, by decide, fun h => ?_⟩
  have hlast := h.last 0 1 0 (by decide) (by decide)
  exact absurd hlast (by decide)

end Promotes

end Elide
