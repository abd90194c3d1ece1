import Elide.LbaMap.Refinement
import Elide.MapLayers.Basic

/-!
# Layered reads equal one map

Three read paths go through the layers: `extentsInRange` overlays them at read time,
`materialised` folds them into a copy of `base`, and `absorb` folds them into `base` itself. All
three agree, and agree with the one map the writes of all layers would have made.

The overlay is a matter of values. `Reads exts lo hi f` says that a list of extents reads `f` on
`[lo, hi)`; such lists concatenate, and the gap-filling loop is that concatenation. The folds are a
matter of tilings: replaying a layer's entries multiplies by the layer's tiling, which is the
product of the tiles of the writes that made the layer, so the replay equals the writes.

## Main results

* `Elide.reads_overlay` — the overlay reads the topmost layer that covers a block
* `Elide.Maps.tiles_fold` — a replay is a product of tilings
* `Elide.MapLayers.layered_reads_eq_single_map` — the three paths and the single map agree
-/

namespace Elide

open List LbaMap Tiling OrdMap Maps

open LbaMap (Inv Wf claimTile)

/-! ## Reading a list of extents -/

namespace ExtentRead

variable (e : ExtentRead)

/-- The block is in the extent. -/
def Covers (lba : ℕ) : Prop := e.rangeStart ≤ lba ∧ lba < e.rangeEnd

instance (lba : ℕ) : Decidable (e.Covers lba) :=
  inferInstanceAs (Decidable (_ ∧ _))

/-- What the extent yields at `lba`: hash, payload block offset and claimant. -/
def valueAt (lba : ℕ) : Hash × ℕ × Ulid :=
  (e.hash, e.payloadBlockOffset + (lba - e.rangeStart), e.claimantUlid)

/-- What a list of extents yields at `lba`. -/
def readAt (es : List ExtentRead) (lba : ℕ) : Option (Hash × ℕ × Ulid) :=
  (es.find? fun e => decide (e.Covers lba)).map fun e => e.valueAt lba

theorem readAt_append (es es' : List ExtentRead) (x : ℕ) :
    readAt (es ++ es') x = (readAt es x).or (readAt es' x) := by
  rw [readAt, readAt, readAt, find?_append]
  cases es.find? fun e => decide (e.Covers x) <;> simp

theorem readAt_singleton (e : ExtentRead) (x : ℕ) :
    readAt [e] x = if e.Covers x then some (e.valueAt x) else none := by
  by_cases hx : e.Covers x <;> simp [readAt]

/-- Extents in LBA order and disjoint, from `lo` on and up to `hi`. -/
def InOrder (hi : ℕ) : ℕ → List ExtentRead → Prop
  | lo, [] => lo ≤ hi
  | lo, e :: es => lo ≤ e.rangeStart ∧ e.rangeStart ≤ e.rangeEnd ∧ InOrder hi e.rangeEnd es

variable {es : List ExtentRead} {hi lo : ℕ}

theorem InOrder.le (h : InOrder hi lo es) : lo ≤ hi := by
  induction es generalizing lo with
  | nil => exact h
  | cons e es ih =>
    obtain ⟨h1, h2, h3⟩ := h
    have := ih h3
    omega

theorem InOrder.bounds (h : InOrder hi lo es) :
    ∀ e ∈ es, lo ≤ e.rangeStart ∧ e.rangeStart ≤ e.rangeEnd ∧ e.rangeEnd ≤ hi := by
  induction es generalizing lo with
  | nil => simp
  | cons e es ih =>
    obtain ⟨h1, h2, h3⟩ := h
    have hle := h3.le
    intro e' he'
    rcases mem_cons.mp he' with rfl | he'
    · exact ⟨h1, h2, hle⟩
    · have := ih h3 e' he'
      omega

theorem InOrder.pairwise (h : InOrder hi lo es) :
    es.Pairwise fun a b => a.rangeEnd ≤ b.rangeStart := by
  induction es generalizing lo with
  | nil => exact List.Pairwise.nil
  | cons e es ih =>
    exact pairwise_cons.mpr ⟨fun e' he' => (h.2.2.bounds e' he').1, ih h.2.2⟩

theorem InOrder.append {hi mid lo : ℕ} {es' : List ExtentRead} (h : InOrder mid lo es)
    (h' : InOrder hi mid es') : InOrder hi lo (es ++ es') := by
  induction es generalizing lo with
  | nil =>
    -- only the lower bound of the second list moves down
    cases es' with
    | nil => exact le_trans h h'
    | cons e es' => exact ⟨le_trans h h'.1, h'.2⟩
  | cons e es ih => exact ⟨h.1, h.2.1, ih h.2.2⟩

theorem InOrder.readAt_eq_none {hi lo x : ℕ} (h : InOrder hi lo es) (hx : ¬ (lo ≤ x ∧ x < hi)) :
    readAt es x = none := by
  rw [readAt, Option.map_eq_none_iff, find?_eq_none]
  intro e he hc
  have := h.bounds e he
  have hc := of_decide_eq_true hc
  simp only [Covers] at hc
  omega

end ExtentRead

open ExtentRead

/-- The extents are in order inside `[lo, hi)` and yield `f` at each of its blocks. -/
structure Reads (es : List ExtentRead) (lo hi : ℕ) (f : ℕ → Option (Hash × ℕ × Ulid)) : Prop where
  inOrder : InOrder hi lo es
  readAt_eq : ∀ x, lo ≤ x → x < hi → readAt es x = f x

variable {f g r : ℕ → Option (Hash × ℕ × Ulid)} {lo mid hi : ℕ} {es es' : List ExtentRead}

theorem Reads.append (h : Reads es lo mid f) (h' : Reads es' mid hi f) :
    Reads (es ++ es') lo hi f := by
  refine ⟨h.inOrder.append h'.inOrder, fun x h1 h2 => ?_⟩
  rw [readAt_append]
  by_cases hx : x < mid
  · rw [h.readAt_eq x h1 hx, h'.inOrder.readAt_eq_none (by omega), Option.or_none]
  · rw [h.inOrder.readAt_eq_none (by omega), h'.readAt_eq x (by omega) h2, Option.none_or]

theorem reads_singleton {e : ExtentRead} (hle : e.rangeStart ≤ e.rangeEnd)
    (hf : ∀ x, e.Covers x → f x = some (e.valueAt x)) : Reads [e] e.rangeStart e.rangeEnd f := by
  refine ⟨⟨le_refl _, hle, le_refl _⟩, fun x h1 h2 => ?_⟩
  rw [readAt_singleton, if_pos ⟨h1, h2⟩, hf x ⟨h1, h2⟩]

/-- A list that reads `f` starts with a gap, an extent and a list that reads `f` from there. -/
theorem Reads.cons_inv {e : ExtentRead} (h : Reads (e :: es) lo hi f) :
    lo ≤ e.rangeStart ∧ e.rangeStart ≤ e.rangeEnd ∧ (∀ x, lo ≤ x → x < e.rangeStart → f x = none) ∧
      (∀ x, e.Covers x → f x = some (e.valueAt x)) ∧ Reads es e.rangeEnd hi f := by
  obtain ⟨h1, h2, h3⟩ := h.inOrder
  have hle := h3.le
  have hsplit : ∀ x, readAt (e :: es) x = (readAt [e] x).or (readAt es x) := fun x =>
    readAt_append [e] es x
  refine ⟨h1, h2, fun x hx1 hx2 => ?_, fun x hx => ?_, ⟨h3, fun x hx1 hx2 => ?_⟩⟩
  · rw [← h.readAt_eq x hx1 (by omega), hsplit, readAt_singleton,
      if_neg (by simp only [Covers]; omega), h3.readAt_eq_none (by omega), Option.or_none]
  · have := hx.1
    have := hx.2
    rw [← h.readAt_eq x (by omega) (by omega), hsplit, readAt_singleton, if_pos hx]
    rfl
  · rw [← h.readAt_eq x (by omega) hx2, hsplit, readAt_singleton,
      if_neg (by simp only [Covers]; omega), Option.none_or]

theorem Reads.eq_some_of_mem (h : Reads es lo hi f) {e : ExtentRead} (he : e ∈ es) {x : ℕ}
    (hx : e.Covers x) : f x = some (e.valueAt x) := by
  induction es generalizing lo with
  | nil => simp at he
  | cons e' es ih =>
    obtain ⟨-, -, -, hval, hrest⟩ := h.cons_inv
    rcases mem_cons.mp he with rfl | he
    · exact hval x hx
    · exact ih hrest he

theorem Reads.exists_of_eq_some (h : Reads es lo hi f) {x : ℕ} (h1 : lo ≤ x) (h2 : x < hi)
    {v : Hash × ℕ × Ulid} (hv : f x = some v) : ∃ e ∈ es, e.Covers x ∧ e.valueAt x = v := by
  rw [← h.readAt_eq x h1 h2, readAt, Option.map_eq_some_iff] at hv
  obtain ⟨e, he, hval⟩ := hv
  refine ⟨e, mem_of_find?_eq_some he, ?_, hval⟩
  have hcov := find?_some he
  exact of_decide_eq_true hcov

/-! ## One layer -/

variable {m : LbaMap}

/-- A clipped piece of an entry yields what the entry does. -/
theorem LbaMap.Wf.reads_clip (hm : m.Wf) {k : ℕ} {e : MapEntry} (hk : m.inner.get? k = some e)
    {a b : ℕ} (hka : k ≤ a) (hab : a ≤ b) (hb : b ≤ k + e.lbaLength) :
    Reads [⟨e.hash, a, b, e.payloadBlockOffset + (a - k), e.claimantUlid⟩] a b
      m.lookupWithClaimant := by
  refine reads_singleton hab fun x hx => ?_
  obtain ⟨h1, h2⟩ : a ≤ x ∧ x < b := hx
  rw [hm.lookupWithClaimant_of_coveredBy ⟨hk, by omega, by omega⟩]
  simp only [MapEntry.valueAt, valueAt, Option.some.injEq, Prod.mk.injEq, true_and, and_true]
  omega

/-- Blocks no entry covers read as nothing. -/
theorem LbaMap.Wf.reads_nil (hm : m.Wf) (hle : lo ≤ hi)
    (hbare : lo < hi → ∀ k e, m.inner.get? k = some e → k + e.lbaLength ≤ lo ∨ hi ≤ k) :
    Reads [] lo hi m.lookupWithClaimant := by
  refine ⟨hle, fun x h1 h2 => ?_⟩
  refine (hm.lookupWithClaimant_eq_none_iff.mpr fun k e hc => ?_).symm
  have := hbare (by omega) k e hc.1
  have := hc.2
  omega

/-- The entries keyed inside a range, clipped to it, read the map from a point no entry below
reaches past. -/
theorem LbaMap.Wf.reads_range (hm : m.Wf) {ps : List (ℕ × MapEntry)} (hle : lo ≤ hi)
    (hps : ∀ p ∈ ps, m.inner.get? p.1 = some p.2 ∧ lo ≤ p.1 ∧ p.1 < hi)
    (hsorted : ps.Pairwise fun p q => p.1 < q.1)
    (hall : lo < hi → ∀ k e, m.inner.get? k = some e → lo < k + e.lbaLength → k < hi →
      (k, e) ∈ ps) :
    Reads (ps.map fun (key, e) => (⟨e.hash, key, min (key + e.lbaLength) hi, e.payloadBlockOffset,
      e.claimantUlid⟩ : ExtentRead)) lo hi m.lookupWithClaimant := by
  induction ps generalizing lo with
  | nil =>
    refine hm.reads_nil hle fun hlt k e hk => ?_
    by_contra hcon
    exact absurd (hall hlt k e hk (by omega) (by omega)) (by simp)
  | cons p ps ih =>
    obtain ⟨k, e⟩ := p
    obtain ⟨hk, h1, h2⟩ := hps (k, e) mem_cons_self
    dsimp only at hk h1 h2
    obtain ⟨hlt, hsorted⟩ := pairwise_cons.mp hsorted
    have hgap : Reads [] lo k m.lookupWithClaimant := by
      refine hm.reads_nil h1 fun hgt j e' hj => ?_
      by_contra hcon
      -- an entry met before the first one listed would be listed
      rcases mem_cons.mp (hall (by omega) j e' hj (by omega) (by omega)) with heq | hmem
      · cases heq; omega
      · have := hlt _ hmem; dsimp only at this; omega
    have hhead := hm.reads_clip hk (le_refl k) (b := min (k + e.lbaLength) hi) (by omega) (by omega)
    rw [Nat.sub_self] at hhead
    have htail := ih (show min (k + e.lbaLength) hi ≤ hi by omega) (fun q hq => ?_) hsorted
      (fun hlt' j e' hj hj1 hj2 => ?_)
    · exact hgap.append (hhead.append htail)
    · obtain ⟨hq1, hq2, hq3⟩ := hps q (mem_cons_of_mem _ hq)
      have := hm.disjoint hk hq1 (hlt q hq)
      exact ⟨hq1, by omega, hq3⟩
    · rcases mem_cons.mp (hall (by omega) j e' hj (by omega) hj2) with heq | hmem
      · cases heq; omega
      · exact hmem

/-- `extentsInRange` of one map reads the map. -/
theorem LbaMap.Wf.reads_extentsInRange (hm : m.Wf) (hle : lo ≤ hi) :
    Reads (m.extentsInRange lo hi) lo hi m.lookupWithClaimant := by
  have hrange : ∀ p ∈ m.inner.range lo hi, m.inner.get? p.1 = some p.2 ∧ lo ≤ p.1 ∧ p.1 < hi :=
    fun p hp => mem_range_iff.mp hp
  by_cases hreach : ∃ k e, m.inner.pred? lo = some (k, e) ∧ lo < k + e.lbaLength
  · obtain ⟨k, e, hp, hlt⟩ := hreach
    obtain ⟨hk, hks, hlast⟩ := pred?_eq_some_iff.mp hp
    have hhead := hm.reads_clip hk hks.le (b := min (k + e.lbaLength) hi) (by omega) (by omega)
    have htail := hm.reads_range (show min (k + e.lbaLength) hi ≤ hi by omega) (fun p hp => ?_)
      (m.inner.range_sorted lo hi) (fun hlt' j e' hj h1 h2 => ?_)
    · simp only [extentsInRange, hp, if_pos hlt]
      exact hhead.append htail
    · obtain ⟨h1, h2, h3⟩ := hrange p hp
      have := hm.disjoint hk h1 (by omega)
      exact ⟨h1, by omega, h3⟩
    · refine mem_range_iff.mpr ⟨hj, ?_, h2⟩
      rcases lt_trichotomy j k with hlt' | rfl | hgt
      · have := hm.disjoint hj hk hlt'; omega
      · rw [hk, Option.some.injEq] at hj; subst hj; omega
      · by_contra hcon
        have := hlast j (by omega) hgt
        simp [this] at hj
  · have hread := hm.reads_range hle hrange (m.inner.range_sorted lo hi)
      fun _ j e' hj h1 h2 => ?_
    · rw [extentsInRange]
      cases hp : m.inner.pred? lo with
      | none => exact hread
      | some p =>
        dsimp only
        rw [if_neg fun h => hreach ⟨p.1, p.2, hp, h⟩]
        exact hread
    · refine mem_range_iff.mpr ⟨hj, ?_, h2⟩
      by_contra hcon
      exact hreach ⟨j, e', hm.pred?_of_reaches hj (not_le.mp hcon) h1, h1⟩

/-- A run of a map that is not asked for an empty range is not empty. -/
theorem LbaMap.Wf.lt_of_mem_extentsInRange {m : LbaMap} (hm : m.Wf) {lo hi : ℕ} (hlt : lo < hi)
    {r : ExtentRead} (hr : r ∈ m.extentsInRange lo hi) : r.rangeStart < r.rangeEnd := by
  rcases mem_append.mp hr with hr | hr
  · split at hr
    · cases hr
    · dsimp only at hr
      split_ifs at hr with hreach
      · rw [mem_singleton.mp hr]
        exact Nat.lt_min.mpr ⟨hreach, hlt⟩
      · cases hr
  · obtain ⟨⟨k, e⟩, hp, rfl⟩ := mem_map.mp hr
    obtain ⟨hget, -, hk⟩ := OrdMap.mem_range_iff.mp hp
    have := hm.pos hget
    dsimp only at hk this ⊢
    omega

/-! ## The overlay -/

/-- The claim of the topmost layer that covers `x`, newest layer first. -/
def layeredLookup (layers : List LbaMap) (x : ℕ) : Option (Hash × ℕ × Ulid) :=
  layers.findSome? fun m => m.lookupWithClaimant x

/-- The gap-filling loop: over a list that reads the top layer `g`, with every gap filled from a
source that reads `r`, the output reads `g` over `r`. -/
theorem reads_overlay_loop (fill : ℕ → ℕ → List ExtentRead)
    (hfill : ∀ a b, a ≤ b → Reads (fill a b) a b r) (hf : ∀ x, f x = (g x).or (r x))
    (st : OverlayState) (hes : Reads es st.cursor hi g) (hst : Reads st.out lo st.cursor f) :
    let s := es.foldl (fun (s : OverlayState) extent =>
      (⟨(if s.cursor < extent.rangeStart then s.out ++ fill s.cursor extent.rangeStart
        else s.out) ++ [extent], extent.rangeEnd⟩ : OverlayState)) st
    Reads (if s.cursor < hi then s.out ++ fill s.cursor hi else s.out) lo hi f := by
  -- a gap of the top layer reads as the rest does
  have hgap : ∀ (out : List ExtentRead) (a b : ℕ), Reads out lo a f → a ≤ b →
      (∀ x, a ≤ x → x < b → g x = none) →
      Reads (if a < b then out ++ fill a b else out) lo b f := by
    intro out a b hout hab hnone
    split_ifs with hlt
    · refine hout.append ⟨(hfill a b hab).inOrder, fun x h1 h2 => ?_⟩
      rw [(hfill a b hab).readAt_eq x h1 h2, hf, hnone x h1 h2, Option.none_or]
    · obtain rfl : a = b := by omega
      exact hout
  induction es generalizing st with
  | nil =>
    refine hgap st.out st.cursor hi hst hes.inOrder.le fun x h1 h2 => ?_
    rw [← hes.readAt_eq x h1 h2]
    rfl
  | cons e es ih =>
    obtain ⟨h1, h2, hnone, hval, hrest⟩ := hes.cons_inv
    refine ih _ hrest ((hgap st.out st.cursor e.rangeStart hst h1 hnone).append ?_)
    refine reads_singleton h2 fun x hx => ?_
    rw [hf, hval x hx]
    rfl

/-- **The overlay reads the topmost layer.** -/
theorem reads_overlay {layers : List LbaMap} (hwf : ∀ m ∈ layers, m.Wf) (hle : lo ≤ hi) :
    Reads (overlay layers lo hi) lo hi (layeredLookup layers) := by
  induction layers generalizing lo hi with
  | nil => exact ⟨hle, fun x _ _ => rfl⟩
  | cons top rest ih =>
    have htop := hwf top mem_cons_self
    have hrest : ∀ m ∈ rest, m.Wf := fun m hm => hwf m (mem_cons_of_mem _ hm)
    refine reads_overlay_loop (g := top.lookupWithClaimant) (r := layeredLookup rest)
      (fun a b => overlay rest a b) (fun a b hab => ih hrest hab) (fun x => ?_) ⟨[], lo⟩
      (htop.reads_extentsInRange hle) ⟨le_refl lo, fun x h1 h2 => absurd h1 (not_le.mpr h2)⟩
    rw [layeredLookup, findSome?_cons]
    cases top.lookupWithClaimant x <;> rfl

/-! ## Replaying a layer -/

/-- One write of an upper layer. -/
structure Write where
  startLba : ℕ
  lbaLength : ℕ
  payloadBlockOffset : ℕ
  hash : Hash
  claimant : Ulid

namespace Write

/-- Its range and its offset are in bounds. -/
def Fits (w : Write) : Prop := LbaMap.Fits w.startLba w.lbaLength w.payloadBlockOffset

/-- The tile the write lays. -/
def tile (w : Write) : Tiling (Hash × ℕ × Ulid) :=
  claimTile w.startLba w.lbaLength w.payloadBlockOffset w.hash w.claimant

end Write

namespace LbaMap

/-- Insert the write. -/
def write (m : LbaMap) (w : Write) : LbaMap :=
  m.insertWithOffset w.startLba w.lbaLength w.payloadBlockOffset w.hash w.claimant

variable {m : LbaMap}

/-- A list of writes multiplies by their tiles. -/
theorem Inv.writes (hm : m.Inv) (ws : List Write) (hws : ∀ w ∈ ws, 0 < w.lbaLength) :
    (ws.foldl write m).Inv ∧ (ws.foldl write m).tiles = m.tiles * (ws.map Write.tile).prod := by
  induction ws generalizing m with
  | nil => exact ⟨hm, (mul_one _).symm⟩
  | cons w ws ih =>
    have hlen := hws w mem_cons_self
    have hinv : (m.write w).Inv := hm.insertInner hlen _ _ _
    have htiles : (m.write w).tiles = m.tiles * w.tile := hm.tiles_insertInner hlen _ _ _
    obtain ⟨hinv', htiles'⟩ := ih hinv fun w' hw' => hws w' (mem_cons_of_mem _ hw')
    rw [foldl_cons]
    refine ⟨hinv', ?_⟩
    rw [htiles', htiles, map_cons, prod_cons, mul_assoc]

/-- The entries of a map as writes, in key order. -/
def entryWrites (m : LbaMap) : List Write :=
  m.inner.entries.map fun p =>
    ⟨p.1, p.2.lbaLength, p.2.payloadBlockOffset, p.2.hash, p.2.claimantUlid⟩

/-- The tiles of disjoint entries in ascending order, laid one after the other, cut nothing. -/
theorem prod_entry_tiles {ps : List (ℕ × MapEntry)} (lo : ℕ)
    (hps : ∀ p ∈ ps, lo ≤ p.1 ∧ 0 < p.2.lbaLength)
    (hdisj : ps.Pairwise fun p q => p.1 + p.2.lbaLength ≤ q.1) (x : ℕ) :
    (ps.map fun p => claimTile p.1 p.2.lbaLength p.2.payloadBlockOffset p.2.hash
        p.2.claimantUlid).prod x =
      (ps.find? fun p => decide (p.1 ≤ x ∧ x < p.1 + p.2.lbaLength)).map fun p =>
        (p.2.valueAt p.1 x, decide (x = p.1)) := by
  induction ps generalizing lo x with
  | nil => rfl
  | cons p ps ih =>
    obtain ⟨hafter, hdisj⟩ := pairwise_cons.mp hdisj
    have hps' : ∀ q ∈ ps, p.1 + p.2.lbaLength ≤ q.1 ∧ 0 < q.2.lbaLength := fun q hq =>
      ⟨hafter q hq, (hps q (mem_cons_of_mem _ hq)).2⟩
    have hnone : ∀ y, y < p.1 + p.2.lbaLength →
        ps.find? (fun q => decide (q.1 ≤ y ∧ y < q.1 + q.2.lbaLength)) = none := by
      intro y hy
      rw [find?_eq_none]
      intro q hq hc
      have := hps' q hq
      have := of_decide_eq_true hc
      omega
    have htop : ∀ y, p.1 + p.2.lbaLength ≤ y → claimTile p.1 p.2.lbaLength p.2.payloadBlockOffset
        p.2.hash p.2.claimantUlid y = none := fun y hy => if_neg (by omega)
    have hrest : ∀ y < p.1 + p.2.lbaLength, (ps.map fun p => claimTile p.1 p.2.lbaLength
        p.2.payloadBlockOffset p.2.hash p.2.claimantUlid).prod y = none := fun y hy => by
      rw [ih _ hps' hdisj, hnone y hy]
      rfl
    rw [map_cons, prod_cons, mul_apply_of_lt htop hrest, find?_cons]
    by_cases hx : x < p.1 + p.2.lbaLength
    · rw [if_pos hx, hnone x hx]
      by_cases hx' : p.1 ≤ x
      · simp only [claimTile, tile, hx, hx']
        rfl
      · have hout : ¬ (p.1 ≤ x ∧ x < p.1 + p.2.lbaLength) := by omega
        simp only [claimTile, tile, hout]
        rfl
    · have hout : ¬ (p.1 ≤ x ∧ x < p.1 + p.2.lbaLength) := by omega
      rw [if_neg hx, ih _ hps' hdisj]
      simp [hout]

/-- A map's tiling is the product of its entries' tiles. -/
theorem Wf.tiles_eq_prod (hm : m.Wf) : m.tiles = (m.entryWrites.map Write.tile).prod := by
  have hdisj : m.inner.entries.Pairwise fun p q => p.1 + p.2.lbaLength ≤ q.1 :=
    m.inner.sorted.imp_of_mem fun hp hq hpq =>
      hm.disjoint (mem_entries_iff.mp hp) (mem_entries_iff.mp hq) hpq
  ext1 x
  have hprod := prod_entry_tiles 0 (fun p hp =>
    ⟨Nat.zero_le _, hm.pos (mem_entries_iff.mp hp)⟩) hdisj x
  rw [entryWrites, map_map]
  refine Eq.trans ?_ hprod.symm
  rcases hm.tiles_cases x with hnone | ⟨k, e, hc⟩
  · rw [hnone, find?_eq_none.mpr fun p hp hcov => ?_]
    · rfl
    · exact hm.tiles_eq_none_iff.mp hnone p.1 p.2 ⟨mem_entries_iff.mp hp, of_decide_eq_true hcov⟩
  · have hmem : (k, e) ∈ m.inner.entries := mem_entries_iff.mpr hc.1
    cases hfind : m.inner.entries.find? fun p => decide (p.1 ≤ x ∧ x < p.1 + p.2.lbaLength) with
    | none => exact absurd (decide_eq_true hc.2) (find?_eq_none.mp hfind _ hmem)
    | some p =>
      have hcov := find?_some hfind
      have hcp : m.CoveredBy x p.1 p.2 :=
        ⟨mem_entries_iff.mp (mem_of_find?_eq_some hfind), of_decide_eq_true hcov⟩
      obtain ⟨rfl, rfl⟩ := hm.coveredBy_unique hc hcp
      exact hm.tiles_of_coveredBy hc

theorem Wf.tiles_of_isEmpty (hm : m.Wf) (h : m.isEmpty = true) : m.tiles = 1 := by
  have hnil : m.inner.entries = [] := by simpa [isEmpty] using h
  rw [hm.tiles_eq_prod, entryWrites, hnil]
  rfl

theorem claimRefcount_eq_of_tiles_eq {m' : LbaMap} (hm : m.Inv) (hm' : m'.Inv)
    (h : m.tiles = m'.tiles) (k : Hash) : m.claimRefcount k = m'.claimRefcount k := by
  rw [claimRefcount, claimRefcount, hm.counted.exact.getD, hm'.counted.exact.getD,
    inner_eq_of_tiles_eq hm.wf hm'.wf h]

end LbaMap

/-- **A replay is a product of tilings.** -/
theorem Maps.tiles_fold {base layer : Maps} (hb : base.lbamap.Inv) (hl : layer.lbamap.Inv) :
    (base.fold layer).lbamap.Inv ∧
      (base.fold layer).lbamap.tiles = base.lbamap.tiles * layer.lbamap.tiles := by
  have hfold : (base.fold layer).lbamap = layer.lbamap.entryWrites.foldl write base.lbamap := by
    rw [fold, iterEntriesWithClaimant, entryWrites, foldl_map, foldl_map]
    rfl
  rw [hfold, hl.wf.tiles_eq_prod]
  refine hb.writes _ fun w hw => ?_
  obtain ⟨p, hp, rfl⟩ := mem_map.mp hw
  exact hl.wf.pos (mem_entries_iff.mp hp)

/-- A replay keeps the layer's extents whole. -/
theorem Maps.get?_fold {base layer : Maps} (hb : base.lbamap.Inv) (hl : layer.lbamap.Inv) {k : ℕ}
    {e : MapEntry} (hk : layer.lbamap.inner.get? k = some e) :
    (base.fold layer).lbamap.inner.get? k = some e := by
  obtain ⟨hinv, htiles⟩ := tiles_fold hb hl
  have hpos := hl.wf.pos hk
  have hin : ∀ x, k ≤ x → x < k + e.lbaLength →
      layer.lbamap.tiles x = some (e.valueAt k x, decide (x = k)) := fun x h1 h2 =>
    hl.wf.tiles_of_coveredBy ⟨hk, h1, h2⟩
  refine hinv.wf.get?_of_tiles hpos (fun x h1 h2 => ?_) ?_
  · rw [htiles]
    exact lay_apply_of_some (hin x h1 h2)
  · rw [htiles]
    rcases hl.wf.tiles_end hk with hnone | ⟨u, hu⟩
    · -- what shows past the end of the extent has just been cut there
      have hcut : layer.lbamap.tiles.coveredBefore (k + e.lbaLength) = true := by
        have hlast := hin (k + e.lbaLength - 1) (by omega) (by omega)
        obtain ⟨n, hn⟩ := Nat.exists_eq_add_of_lt hpos
        rw [show k + e.lbaLength - 1 = k + n by omega] at hlast
        rw [show k + e.lbaLength = k + n + 1 by omega]
        show (layer.lbamap.tiles (k + n)).isSome = true
        rw [hlast]
        rfl
      show lay _ _ _ = none ∨ ∃ v, lay _ _ _ = some (v, true)
      rw [lay_apply_of_none hnone, hcut]
      cases base.lbamap.tiles (k + e.lbaLength) with
      | none => exact .inl rfl
      | some c => exact .inr ⟨c.1, by rw [Option.map_some, Bool.or_true]⟩
    · exact .inr ⟨u, lay_apply_of_some hu⟩

namespace MapLayers

/-- Every layer satisfies the invariant of an LBA map. -/
structure Inv (l : MapLayers) : Prop where
  base : l.base.lbamap.Inv
  frozen : ∀ f ∈ l.frozen, f.maps.lbamap.Inv
  delta : l.delta.lbamap.Inv

/-- The layers as one tiling, `delta` on top. -/
def tiles (l : MapLayers) : Tiling (Hash × ℕ × Ulid) :=
  l.base.lbamap.tiles * (l.frozen.map fun f => f.maps.lbamap.tiles).prod * l.delta.lbamap.tiles

variable {l : MapLayers}

theorem value_tiles (l : MapLayers) (x : ℕ) :
    l.tiles.value x = layeredLookup (l.all.map lbamap) x := by
  rw [tiles, value_mul, value_mul, value_prod, LbaMap.value_tiles,
    LbaMap.value_tiles, layeredLookup, all, map_cons, findSome?_cons, map_append, findSome?_append,
    map_map, ← map_reverse, findSome?_map, findSome?_map]
  simp only [Function.comp_def, LbaMap.value_tiles]
  cases l.delta.lbamap.lookupWithClaimant x <;> simp

theorem Inv.foldl_frozen {fs : List FrozenLayer} {base : Maps} (hb : base.lbamap.Inv)
    (hfs : ∀ f ∈ fs, f.maps.lbamap.Inv) :
    (fs.foldl (fun base layer => base.fold layer.maps) base).lbamap.Inv ∧
      (fs.foldl (fun base layer => base.fold layer.maps) base).lbamap.tiles =
        base.lbamap.tiles * (fs.map fun f => f.maps.lbamap.tiles).prod := by
  induction fs generalizing base with
  | nil => exact ⟨hb, (mul_one _).symm⟩
  | cons f fs ih =>
    obtain ⟨hinv, htiles⟩ := tiles_fold hb (hfs f mem_cons_self)
    obtain ⟨hinv', htiles'⟩ := ih hinv fun g hg => hfs g (mem_cons_of_mem _ hg)
    rw [foldl_cons]
    refine ⟨hinv', ?_⟩
    rw [htiles', htiles, map_cons, prod_cons, mul_assoc]

theorem Inv.tiles_of_delta_isEmpty (hl : l.Inv) (h : l.delta.isEmpty = true) :
    l.delta.lbamap.tiles = 1 := by
  simp only [Maps.isEmpty, Bool.and_eq_true] at h
  exact hl.delta.wf.tiles_of_isEmpty h.1.1

/-- `absorb` leaves one map, whose tiling is that of the layers. -/
theorem Inv.absorb (hl : l.Inv) :
    l.absorb.base.lbamap.Inv ∧ l.absorb.base.lbamap.tiles = l.tiles ∧ l.absorb.frozen = [] ∧
      l.absorb.delta.isEmpty = true := by
  obtain ⟨hinv, htiles⟩ := Inv.foldl_frozen hl.base hl.frozen
  rw [MapLayers.absorb]
  by_cases hd : l.delta.isEmpty = true
  · simp only [if_pos hd]
    exact ⟨hinv, by rw [htiles, tiles, hl.tiles_of_delta_isEmpty hd, mul_one], trivial, hd⟩
  · simp only [if_neg hd]
    obtain ⟨hinv', htiles'⟩ := tiles_fold hinv hl.delta
    exact ⟨hinv', by rw [htiles', htiles, tiles], trivial, rfl⟩

theorem Inv.materialised (hl : l.Inv) :
    l.materialised.lbamap.Inv ∧ l.materialised.lbamap.tiles = l.tiles := by
  obtain ⟨hinv, htiles⟩ := Inv.foldl_frozen hl.base hl.frozen
  rw [MapLayers.materialised]
  split_ifs with hempty hd
  · obtain ⟨hf, hd⟩ : l.frozen.isEmpty = true ∧ l.delta.isEmpty = true := by simpa using hempty
    refine ⟨hl.base, ?_⟩
    rw [tiles, isEmpty_iff.mp hf, hl.tiles_of_delta_isEmpty hd]
    simp
  · exact ⟨hinv, by rw [htiles, tiles, hl.tiles_of_delta_isEmpty hd, mul_one]⟩
  · obtain ⟨hinv', htiles'⟩ := tiles_fold hinv hl.delta
    exact ⟨hinv', by rw [htiles', htiles, tiles]⟩

/-- The overlay reads the tiling of the layers. -/
theorem Inv.reads (hl : l.Inv) {start stop : ℕ} (hle : start ≤ stop) :
    Reads (l.extentsInRange start stop) start stop l.tiles.value := by
  have hwf : ∀ m ∈ l.all.map lbamap, m.Wf := by
    intro m hm
    simp only [all, map_cons, map_append, map_map, mem_cons, mem_append,
      mem_map, mem_reverse, map_nil, not_mem_nil, or_false] at hm
    rcases hm with rfl | ⟨f, hf, rfl⟩ | rfl
    · exact hl.delta.wf
    · exact (hl.frozen f hf).wf
    · exact hl.base.wf
  have hval : l.tiles.value = layeredLookup (l.all.map lbamap) := funext l.value_tiles
  rw [hval]
  exact reads_overlay hwf hle

/-- Each upper layer is made of the given writes, over any reachable `base`. -/
structure MadeOf (l : MapLayers) (fs : List (List Write)) (ds : List Write) : Prop where
  base : l.base.lbamap.Reachable
  frozen : (l.frozen.map fun f => f.maps.lbamap) = fs.map fun ws => ws.foldl write .new
  delta : l.delta.lbamap = ds.foldl write .new
  fits : ∀ w ∈ fs.flatten ++ ds, w.Fits

theorem tiles_of_writes {ws : List Write} (hws : ∀ w ∈ ws, w.Fits) : (ws.foldl write .new).Inv ∧
      (ws.foldl write .new).tiles = (ws.map Write.tile).prod := by
  obtain ⟨hinv, htiles⟩ := inv_new.writes ws fun w hw => (hws w hw).1
  rw [tiles_new, one_mul] at htiles
  exact ⟨hinv, htiles⟩

variable {fs : List (List Write)} {ds : List Write}

theorem MadeOf.inv (h : l.MadeOf fs ds) : l.Inv := by
  refine ⟨h.base.inv, fun f hf => ?_, ?_⟩
  · have hmem : f.maps.lbamap ∈ fs.map fun ws => ws.foldl write .new := by
      rw [← h.frozen]
      exact mem_map_of_mem hf
    obtain ⟨ws, hws, heq⟩ := mem_map.mp hmem
    rw [← heq]
    exact (tiles_of_writes fun w hw =>
      h.fits w (mem_append_left _ (mem_flatten.mpr ⟨ws, hws, hw⟩))).1
  · rw [h.delta]
    exact (tiles_of_writes fun w hw => h.fits w (mem_append_right _ hw)).1

/-- The layers' tiling is that of all the writes applied to one map. -/
theorem MadeOf.tiles_eq (h : l.MadeOf fs ds) : ((fs.flatten ++ ds).foldl write l.base.lbamap).Inv ∧
      ((fs.flatten ++ ds).foldl write l.base.lbamap).tiles = l.tiles := by
  obtain ⟨hinv, htiles⟩ := h.base.inv.writes (fs.flatten ++ ds) fun w hw => (h.fits w hw).1
  refine ⟨hinv, ?_⟩
  have hfrozen : (l.frozen.map fun f => f.maps.lbamap.tiles) =
      fs.map fun ws => (ws.map Write.tile).prod := by
    have hmap := congrArg (List.map LbaMap.tiles) h.frozen
    rw [map_map, map_map] at hmap
    refine hmap.trans (map_congr_left fun ws hws => ?_)
    exact (tiles_of_writes fun w hw =>
      h.fits w (mem_append_left _ (mem_flatten.mpr ⟨ws, hws, hw⟩))).2
  rw [htiles, tiles, hfrozen, h.delta,
    (tiles_of_writes fun w hw => h.fits w (mem_append_right _ hw)).2, map_append,
    prod_append, map_flatten, prod_flatten, map_map, mul_assoc]
  rfl

/-- **Layered reads equal one map.** The overlay's extents are in LBA order, disjoint and inside
the range, and at every block the overlay, `materialised` and `absorb` yield the claim of the
single map the writes of all layers make; after `absorb` that map is all there is, with its claim
refcounts. -/
theorem layered_reads_eq_single_map (h : l.MadeOf fs ds) {start stop : ℕ} (hle : start ≤ stop) :
    let single := (fs.flatten ++ ds).foldl write l.base.lbamap
    let extents := l.extentsInRange start stop
    extents.Pairwise (fun a b => a.rangeEnd ≤ b.rangeStart) ∧
      (∀ e ∈ extents, start ≤ e.rangeStart ∧ e.rangeStart ≤ e.rangeEnd ∧ e.rangeEnd ≤ stop) ∧
      (∀ lba, start ≤ lba → lba < stop → readAt extents lba = single.lookupWithClaimant lba ∧
        l.materialised.lbamap.lookupWithClaimant lba = single.lookupWithClaimant lba ∧
        l.absorb.base.lbamap.lookupWithClaimant lba = single.lookupWithClaimant lba) ∧
      l.absorb.frozen = [] ∧ l.absorb.delta.isEmpty = true ∧
      ∀ hash, l.absorb.base.lbamap.claimRefcount hash = single.claimRefcount hash := by
  have hinv := h.inv
  have hreads := hinv.reads hle
  obtain ⟨hsinv, hstiles⟩ := h.tiles_eq
  obtain ⟨hainv, hatiles, hfrozen, hdelta⟩ := hinv.absorb
  obtain ⟨hminv, hmtiles⟩ := hinv.materialised
  refine ⟨hreads.inOrder.pairwise, hreads.inOrder.bounds, fun lba h1 h2 => ⟨?_, ?_, ?_⟩, hfrozen,
    hdelta, LbaMap.claimRefcount_eq_of_tiles_eq hainv hsinv (hatiles.trans hstiles.symm)⟩
  · rw [hreads.readAt_eq lba h1 h2, ← LbaMap.value_tiles, hstiles]
  · rw [← LbaMap.value_tiles, ← LbaMap.value_tiles, hmtiles, hstiles]
  · rw [← LbaMap.value_tiles, ← LbaMap.value_tiles, hatiles, hstiles]

/-- Three layers, each covering part of the one under it: block 6 is read from `base` past the
frozen write, with its offset into `base`'s payload. -/
theorem layered_reads_past_frozen_write : readAt (MapLayers.extentsInRange
      ⟨⟨LbaMap.new.insert 0 8 1 1, .new⟩, [⟨5, ⟨LbaMap.new.insert 2 4 2 5, .new⟩⟩],
        ⟨LbaMap.new.insert 3 1 3 7, .new⟩⟩ 0 8) 6 = some (1, 6, 1) := by
  have hmade : MadeOf ⟨⟨LbaMap.new.insert 0 8 1 1, .new⟩,
      [⟨5, ⟨LbaMap.new.insert 2 4 2 5, .new⟩⟩], ⟨LbaMap.new.insert 3 1 3 7, .new⟩⟩
      [[⟨2, 4, 0, 2, 5⟩]] [⟨3, 1, 0, 3, 7⟩] := by
    refine ⟨.step (u := .op (.insert 0 8 1 1)) .new ⟨by decide, by decide, by decide⟩, rfl, rfl,
      fun w hw => ?_⟩
    simp only [flatten_cons, flatten_nil, singleton_append, mem_cons, not_mem_nil, or_false] at hw
    rcases hw with rfl | rfl <;> exact ⟨by decide, by decide, by decide⟩
  exact ((layered_reads_eq_single_map hmade (Nat.zero_le 8)).2.2.1 6 (by decide)
    (by decide)).1.trans (by decide)

end MapLayers

end Elide
