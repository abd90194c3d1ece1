import Elide.LbaMap.Rebuild
import Elide.Lib.Duel

/-!
# Who a rebuild gives a block to

Flush-tier segments come first, in the order of the walk, then the compaction outputs by ULID. Seen
from one block this is a succession of duels: whoever holds the block keeps it unless the next
segment that claims it is admitted over it. Admission by horizon is not transitive, so a rebuild
has no greatest segment to find. `Outranks` decides each pair, and between two segments nothing else
counts (`outranks_or`).

## Main results

* `build_eq_of_outranks`: a segment that outranks all others on a block gets the block.
* `build_eq_iff_outranks`: exactly such a segment gets it in a rebuild of any part it is in.
-/

namespace Elide

open List SegmentFile Option Duel

namespace SegmentFile

/-- The admission a rebuild registers the segment under. -/
def admission (seg : SegmentFile) : Admission :=
  match seg.inputs.max? with
  | some horizon => .outputHorizon horizon
  | none => .ifNewer

/-- Whether the segment is a compaction's output. -/
def isOutput (seg : SegmentFile) : Bool := seg.inputs.max?.isSome

/-- In a rebuild, `seg` takes block `x` from `other`. -/
def Overrides (seg other : SegmentFile) (x : ℕ) : Prop :=
  ∀ v ∈ other.claim x, seg.Takes seg.admission x v

instance (seg other : SegmentFile) (x : ℕ) : Decidable (seg.Overrides other x) :=
  inferInstanceAs (Decidable (∀ v ∈ other.claim x, seg.Takes seg.admission x v))

/-- A rebuild registers `seg` before `other`, or the order of the two does not matter. -/
def Before (seg other : SegmentFile) : Prop :=
  seg.isOutput = other.isOutput ∧ seg.ulid < other.ulid ∨
    seg.isOutput = false ∧ other.isOutput = true

instance (seg other : SegmentFile) : Decidable (seg.Before other) :=
  inferInstanceAs (Decidable (_ ∧ _ ∨ _ ∧ _))

/-- Of the two, a rebuild gives block `x` to `seg`. -/
def Outranks (seg other : SegmentFile) (x : ℕ) : Prop :=
  if other.Before seg then seg.Overrides other x else ¬ other.Overrides seg x

instance (seg other : SegmentFile) (x : ℕ) : Decidable (seg.Outranks other x) :=
  inferInstanceAs (Decidable (if other.Before seg then _ else _))

variable {seg other : SegmentFile}

theorem before_or (hne : seg.ulid ≠ other.ulid) :
    seg.Before other ↔ ¬ other.Before seg := by
  have hulid : seg.ulid < other.ulid ↔ ¬ other.ulid < seg.ulid :=
    ⟨fun h => h.asymm, fun h => lt_of_le_of_ne (not_lt.mp h) hne⟩
  unfold Before
  cases seg.isOutput <;> cases other.isOutput <;> simp [hulid]

/-- **A duel has one winner.** -/
theorem outranks_or (hne : seg.ulid ≠ other.ulid) (x : ℕ) :
    other.Outranks seg x ↔ ¬ seg.Outranks other x := by
  unfold Outranks
  by_cases h : other.Before seg
  · rw [if_pos h, if_neg fun h' => (before_or hne).mp h' h]
  · rw [if_neg h, if_pos ((before_or hne).mpr h), not_not]

/-- A flush-tier segment takes a block from any claimant that is not above it. -/
theorem overrides_of_flush (hseg : seg.isOutput = false) {x : ℕ}
    (hx : (seg.claim x).isSome = true) (hother : (other.claim x).isSome = true) :
    seg.Overrides other x ↔ other.ulid ≤ seg.ulid := by
  have hadm : seg.admission = .ifNewer := by
    rw [isOutput, isSome_eq_false_iff, isNone_iff_eq_none] at hseg
    rw [admission, hseg]
  obtain ⟨v, hv⟩ := isSome_iff_exists.mp hother
  obtain ⟨e, he, hc⟩ := isSome_claim_iff.mp hx
  rw [Overrides, hv, hadm, ← ulid_of_claim hv]
  constructor
  · intro h
    obtain ⟨_, _, _, hadmits⟩ := h v rfl
    simpa [Admission.admits, Blocking.blocks] using hadmits
  · intro hle v' hv'
    obtain rfl := some.inj hv'
    exact ⟨e, he, hc, by simpa [Admission.admits, Blocking.blocks] using hle⟩

theorem overrides_self {seg : SegmentFile} {x : ℕ} : seg.Overrides seg x := by
  intro v hv
  obtain ⟨e, he, hc⟩ := isSome_claim_iff.mp (isSome_of_mem hv)
  have hown := seg.admission.admits_own e.hash v
  rw [ulid_of_claim hv] at hown
  exact ⟨e, he, hc, hown⟩

section Order

variable {w seg : SegmentFile} {x : ℕ} (hw : (w.claim x).isSome = true)
  (hseg : (seg.claim x).isSome = true)

include hw hseg

/-- The higher ranked of two takes the block if it comes later, -/
theorem Outranks.overrides (h : w.Outranks seg x) (hne : seg.ulid ≠ w.ulid)
    (horder : seg.isOutput = true → w.isOutput = true ∧ seg.ulid ≤ w.ulid) : w.Overrides seg x := by
  rw [Outranks] at h
  split_ifs at h with hbefore
  · exact h
  · cases hs : seg.isOutput with
    | true =>
      obtain ⟨hout, hle⟩ := horder hs
      exact absurd (lt_of_le_of_ne hle hne) (by simpa [Before, hs, hout] using hbefore)
    | false =>
      cases hout : w.isOutput with
      | true => exact absurd (by simp [Before, hs, hout]) hbefore
      | false =>
        rw [overrides_of_flush hs hseg hw] at h
        rw [overrides_of_flush hout hw hseg]
        exact (not_le.mp h).le

/-- and keeps it if it comes earlier. -/
theorem Outranks.not_overrides (h : w.Outranks seg x)
    (horder : w.isOutput = true → seg.isOutput = true ∧ w.ulid ≤ seg.ulid) :
    ¬ seg.Overrides w x := by
  rw [Outranks] at h
  split_ifs at h with hbefore
  · cases hout : w.isOutput with
    | true =>
      obtain ⟨hs, hle⟩ := horder hout
      exact absurd hle (not_le.mpr (by simpa [Before, hs, hout] using hbefore))
    | false =>
      cases hs : seg.isOutput with
      | true => exact absurd hbefore (by simp [Before, hs, hout])
      | false =>
        rw [overrides_of_flush hs hseg hw]
        simpa [Before, hs, hout] using hbefore
  · exact h

end Order

end SegmentFile

namespace LbaMapBuilder

variable (segs : List SegmentFile)

/-- The segments in the order a rebuild registers them. -/
def order : List SegmentFile :=
  segs.filter (fun seg => !seg.isOutput) ++
    (segs.filter isOutput).mergeSort fun a b => decide (a.ulid ≤ b.ulid)

theorem mem_order {segs : List SegmentFile} {seg : SegmentFile} : seg ∈ order segs ↔ seg ∈ segs := by
  rw [order, mem_append, mem_mergeSort, mem_filter, mem_filter]
  cases seg.isOutput <;> simp

/-- Without outputs the walk's order is kept. -/
theorem order_of_flush {segs : List SegmentFile} (h : ∀ seg ∈ segs, seg.isOutput = false) :
    order segs = segs := by
  rw [order, filter_eq_self.mpr fun seg hseg => by rw [h seg hseg]; rfl,
    filter_eq_nil_iff.mpr fun seg hseg => by rw [h seg hseg]; exact Bool.false_ne_true,
    mergeSort_nil, append_nil]

/-- A walk in ULID order is only split into its tiers. -/
theorem order_of_pairwise {segs : List SegmentFile} (h : segs.Pairwise fun a b => a.ulid ≤ b.ulid) :
    order segs = segs.filter (fun seg => !seg.isOutput) ++ segs.filter isOutput := by
  rw [order, mergeSort_of_pairwise]
  exact (h.filter _).imp fun hle => decide_eq_true hle

/-- After an output come only outputs that are not below it. -/
theorem pairwise_order :
    (order segs).Pairwise fun a b => a.isOutput = true → b.isOutput = true ∧ a.ulid ≤ b.ulid := by
  have hflush : ∀ a ∈ segs.filter fun seg => !seg.isOutput, a.isOutput = false := by
    simp
  refine pairwise_append.mpr ⟨?_, ?_, fun a ha b _ hout => ?_⟩
  · refine pairwise_of_forall_mem_list fun a ha b _ hout => ?_
    exact absurd hout (by simp [hflush a ha])
  · refine (pairwise_mergeSort ?_ ?_ _).imp_of_mem fun {a b} _ hb hle _ =>
      ⟨?_, of_decide_eq_true hle⟩
    · intro a b c hab hbc
      exact decide_eq_true ((of_decide_eq_true hab).trans (of_decide_eq_true hbc))
    · intro a b
      simpa using le_total a.ulid b.ulid
    · exact (mem_filter.mp (mem_mergeSort.mp hb)).2
  · exact absurd hout (by simp [hflush a ha])

/-- What the visits of a layer register and what they leave waiting. -/
theorem foldl_visit (b : LbaMapBuilder) :
    (segs.foldl visit b).map = (segs.filter fun seg => !seg.isOutput).foldl
        (fun m seg => seg.register seg.admission m) b.map ∧
      (segs.foldl visit b).outputs = b.outputs ++ (segs.filter isOutput).map
        fun seg => (seg.ulid, seg.inputs.max?.getD 0, seg.entries) := by
  induction segs generalizing b with
  | nil => exact ⟨rfl, (append_nil _).symm⟩
  | cons seg segs ih =>
    obtain ⟨hmap, hout⟩ := ih (b.visit seg)
    rw [foldl_cons, hmap, hout]
    cases hmax : seg.inputs.max? with
    | some horizon =>
      have hseg : seg.isOutput = true := by rw [isOutput, hmax]; rfl
      rw [filter_cons_of_neg (by simp [hseg]), filter_cons_of_pos hseg]
      simp [visit, hmax]
    | none =>
      have hseg : seg.isOutput = false := by rw [isOutput, hmax]; rfl
      rw [filter_cons_of_pos (by simp [hseg]), filter_cons_of_neg (by simp [hseg])]
      simp only [visit, hmax, foldl_cons, admission]
      exact ⟨rfl, trivial⟩

/-- The two phases of a layer are one succession. -/
theorem map_endLayer {b : LbaMapBuilder} (hb : b.outputs = []) : (segs.foldl visit b).endLayer.map =
      (order segs).foldl (fun m seg => seg.register seg.admission m) b.map := by
  obtain ⟨hmap, hout⟩ := foldl_visit segs b
  rw [endLayer, hmap, hout, order, foldl_append, hb]
  dsimp only [nil_append]
  rw [← map_mergeSort (r := fun a b => decide (a.ulid ≤ b.ulid)) fun _ _ _ _ => rfl, foldl_map]
  refine foldl_ext _ _ _ fun m seg hseg => ?_
  obtain ⟨horizon, hmax⟩ := isSome_iff_exists.mp (mem_filter.mp (mem_mergeSort.mp hseg)).2
  rw [admission, hmax]
  rfl

theorem build_eq_foldl :
    build segs = (order segs).foldl (fun m seg => seg.register seg.admission m) LbaMap.new :=
  map_endLayer segs rfl

variable (layers : List (List SegmentFile))

/-- A walk over the layers of a fork chain, oldest first. -/
def buildLayers : LbaMap :=
  ((layers.foldl (fun b layer => (layer.foldl visit b).endLayer) new).finish).1

theorem buildLayers_eq_foldl : buildLayers layers =
      (layers.flatMap order).foldl (fun m seg => seg.register seg.admission m) LbaMap.new := by
  have hloop : ∀ (layers : List (List SegmentFile)) (b : LbaMapBuilder), b.outputs = [] →
      (layers.foldl (fun b layer => (layer.foldl visit b).endLayer) b).map =
        (layers.flatMap order).foldl (fun m seg => seg.register seg.admission m) b.map := by
    intro layers
    induction layers with
    | nil => exact fun b _ => rfl
    | cons layer layers ih =>
      intro b hb
      rw [foldl_cons, ih _ rfl, flatMap_cons, foldl_append, map_endLayer layer hb]
  exact hloop layers new rfl

variable {x : ℕ}

/-- **A rebuild, seen from one block, is a succession of duels.** -/
theorem lookup_foldl_register {l : List SegmentFile}
    (hfits : ∀ seg ∈ l, ∀ e ∈ seg.entries, LbaMap.EntryFits e) {m : LbaMap} (hm : m.Inv)
    {cur : Option SegmentFile} (hcur : m.lookupWithClaimant x = cur.bind fun seg => seg.claim x) :
    (l.foldl (fun m seg => seg.register seg.admission m) m).lookupWithClaimant x =
      (standing (fun seg other => seg.Overrides other x) cur
        (l.filter fun seg => (seg.claim x).isSome)).bind fun seg => seg.claim x := by
  induction l generalizing m cur with
  | nil => exact hcur
  | cons seg l ih =>
    obtain ⟨hinv, hlook⟩ := hm.lookup_register seg (hfits seg mem_cons_self) seg.admission
    have hl : ∀ seg ∈ l, ∀ e ∈ seg.entries, LbaMap.EntryFits e := fun s hs =>
      hfits s (mem_cons_of_mem _ hs)
    by_cases hx : (seg.claim x).isSome = true
    · rw [filter_cons, if_pos hx]
      cases cur with
      | none =>
        refine ih hl hinv ?_
        rw [hlook, hcur, if_pos ⟨hx, by simp⟩]
        rfl
      | some other =>
        rw [standing]
        have hiff : (∀ v ∈ m.lookupWithClaimant x, seg.Takes seg.admission x v) ↔
            seg.Overrides other x := by
          rw [hcur]
          rfl
        by_cases htakes : seg.Overrides other x
        · rw [if_pos htakes]
          refine ih hl hinv ?_
          rw [hlook, if_pos ⟨hx, hiff.mpr htakes⟩]
          rfl
        · rw [if_neg htakes]
          refine ih hl hinv ?_
          rw [hlook, if_neg fun h => htakes (hiff.mp h.2)]
          exact hcur
    · rw [filter_cons, if_neg hx]
      refine ih hl hinv ?_
      rw [hlook, if_neg fun h => hx h.1]
      exact hcur

variable {segs : List SegmentFile}

/-- Who holds block `x` after a walk over the layers. -/
def holder (x : ℕ) : Option SegmentFile :=
  Duel.standing (fun seg other => seg.Overrides other x) none
    ((layers.flatMap order).filter fun seg => (seg.claim x).isSome)

/-- The segment takes the block from every claimant before it, and none after it takes it back. -/
def Prevails (seg : SegmentFile) (x : ℕ) : Prop :=
  ((layers.flatMap order).filter fun seg => (seg.claim x).isSome).Pairwise fun a b =>
    (b = seg → seg.Overrides a x) ∧ (a = seg → b = seg ∨ ¬ b.Overrides seg x)

section

variable {layers : List (List SegmentFile)}
  (hfits : ∀ layer ∈ layers, ∀ seg ∈ layer, ∀ e ∈ seg.entries, LbaMap.EntryFits e)
include hfits

theorem lookup_buildLayers (x : ℕ) :
    (buildLayers layers).lookupWithClaimant x = (holder layers x).bind fun seg => seg.claim x := by
  rw [buildLayers_eq_foldl]
  refine lookup_foldl_register (fun seg hseg => ?_) LbaMap.inv_new rfl
  obtain ⟨layer, hlayer, hseg⟩ := mem_flatMap.mp hseg
  exact hfits layer hlayer seg (mem_order.mp hseg)

theorem inv_buildLayers : (buildLayers layers).Inv := by
  rw [buildLayers_eq_foldl]
  refine foldlRecOn (motive := LbaMap.Inv) _ _ LbaMap.inv_new fun m hm seg hseg => ?_
  obtain ⟨layer, hlayer, hseg⟩ := mem_flatMap.mp hseg
  have hseg := hfits layer hlayer seg (mem_order.mp hseg)
  exact (hm.lookup_register seg hseg seg.admission).1

end

theorem lookup_build (hfits : ∀ seg ∈ segs, ∀ e ∈ seg.entries, LbaMap.EntryFits e) (x : ℕ) :
    (build segs).lookupWithClaimant x = (standing (fun seg other => seg.Overrides other x) none
        ((order segs).filter fun seg => (seg.claim x).isSome)).bind fun seg => seg.claim x := by
  rw [build_eq_foldl]
  exact lookup_foldl_register (fun seg hseg => hfits seg (mem_order.mp hseg)) LbaMap.inv_new rfl

/-! ### One more layer -/

section Layer

variable {layers : List (List SegmentFile)} {layer : List SegmentFile} {x : ℕ}

theorem mem_claimants {seg : SegmentFile} :
    seg ∈ (layers.flatMap order).filter (fun seg => (seg.claim x).isSome) ↔
      (∃ layer ∈ layers, seg ∈ layer) ∧ (seg.claim x).isSome = true := by
  simp only [mem_filter, mem_flatMap, mem_order]

theorem mem_of_holder {a : SegmentFile} (h : holder layers x = some a) :
    (∃ layer ∈ layers, a ∈ layer) ∧ (a.claim x).isSome = true :=
  mem_claimants.mp ((mem_of_standing h).resolve_left nofun)

/-- Who holds a block claims it. -/
theorem isSome_claim_of_holder {a : SegmentFile} (h : holder layers x = some a) :
    (a.claim x).isSome = true := (mem_of_holder h).2

/-- Who prevails holds the block. -/
theorem holder_of_prevails {seg : SegmentFile} (h : Prevails layers seg x)
    (hmem : ∃ layer ∈ layers, seg ∈ layer) (hx : (seg.claim x).isSome = true) :
    holder layers x = some seg :=
  standing_of_pairwise (mem_claimants.mpr ⟨hmem, hx⟩) h

/-- A segment without a rival prevails. -/
theorem prevails_of_alone {seg : SegmentFile}
    (h : ∀ layer ∈ layers, ∀ a ∈ layer, (a.claim x).isSome = true → a = seg) :
    Prevails layers seg x := by
  have heq : ∀ a ∈ (layers.flatMap order).filter (fun seg => (seg.claim x).isSome), a = seg := by
    intro a ha
    obtain ⟨⟨layer, hlayer, hmem⟩, hx⟩ := mem_claimants.mp ha
    exact h layer hlayer a hmem hx
  refine pairwise_of_forall_mem_list fun a ha b hb => ⟨fun _ => ?_, fun _ => .inl (heq b hb)⟩
  rw [heq a ha]
  exact overrides_self

theorem holder_singleton : holder [layer] x =
    standing (fun seg other => seg.Overrides other x) none
      ((order layer).filter fun seg => (seg.claim x).isSome) := by
  rw [holder, flatMap_singleton]

/-- The segments of the last layer challenge who held the block without it. -/
theorem holder_append : holder (layers ++ [layer]) x =
    standing (fun seg other => seg.Overrides other x) (holder layers x)
      ((order layer).filter fun seg => (seg.claim x).isSome) := by
  rw [holder, flatMap_append, filter_append, standing_append, flatMap_singleton]
  rfl

/-- A layer that does not claim the block leaves it. -/
theorem holder_append_of_none (h : ∀ seg ∈ layer, seg.claim x = none) :
    holder (layers ++ [layer]) x = holder layers x := by
  rw [holder_append, filter_eq_nil_iff.mpr]
  · rfl
  · intro seg hseg
    rw [h seg (mem_order.mp hseg)]
    simp

/-- A layer all of whose claims on the block override who held it decides it alone. -/
theorem holder_append_of_overrides (hclaims : ∃ seg ∈ layer, (seg.claim x).isSome = true)
    (h : ∀ seg ∈ layer, (seg.claim x).isSome = true → ∀ a, holder layers x = some a →
      seg.Overrides a x) : holder (layers ++ [layer]) x = holder [layer] x := by
  obtain ⟨seg, hseg, hx⟩ := hclaims
  have hne : (order layer).filter (fun seg => (seg.claim x).isSome) ≠ [] :=
    ne_nil_of_mem (mem_filter.mpr ⟨mem_order.mpr hseg, hx⟩)
  rw [holder_append, holder_singleton]
  cases ha : holder layers x with
  | none => rfl
  | some a =>
    refine standing_of_forall_takes hne fun b hb => ?_
    exact h b (mem_order.mp (mem_filter.mp hb).1) (mem_filter.mp hb).2 a ha

theorem buildLayers_singleton : buildLayers [layer] = build layer := by
  rw [buildLayers_eq_foldl, build_eq_foldl, flatMap_singleton]

end Layer

/-- A block no segment claims stays bare. -/
theorem lookup_build_eq_none (hfits : ∀ seg ∈ segs, ∀ e ∈ seg.entries, LbaMap.EntryFits e)
    (hx : ∀ seg ∈ segs, seg.claim x = none) : (build segs).lookupWithClaimant x = none := by
  rw [lookup_build hfits, filter_eq_nil_iff.mpr]
  · rfl
  · intro seg hseg
    rw [hx seg (mem_order.mp hseg)]
    simp

section

variable (hfits : ∀ seg ∈ segs, ∀ e ∈ seg.entries, LbaMap.EntryFits e)
  (hdistinct : ∀ s ∈ segs, ∀ t ∈ segs, s.ulid = t.ulid → s = t) {w : SegmentFile} (hw : w ∈ segs)
  (hx : (w.claim x).isSome = true)
include hfits hdistinct hw hx

/-- **A segment that outranks all others on a block gets it.** -/
theorem build_eq_of_outranks
    (hout : ∀ seg ∈ segs, seg ≠ w → (seg.claim x).isSome = true → w.Outranks seg x) :
    (build segs).lookupWithClaimant x = w.claim x := by
  rw [lookup_build hfits]
  have hmem : w ∈ (order segs).filter fun seg => (seg.claim x).isSome :=
    mem_filter.mpr ⟨mem_order.mpr hw, hx⟩
  have hpair := (pairwise_order segs).sublist (filter_sublist (p := fun seg =>
    (seg.claim x).isSome))
  obtain ⟨l, l', hl⟩ := append_of_mem hmem
  have hin : ∀ seg ∈ l ++ w :: l', seg ∈ segs ∧ (seg.claim x).isSome = true := by
    intro seg hseg
    rw [← hl] at hseg
    exact ⟨mem_order.mp (mem_filter.mp hseg).1, (mem_filter.mp hseg).2⟩
  rw [hl] at hpair ⊢
  obtain ⟨-, hafter, hbefore⟩ := pairwise_append.mp hpair
  rw [standing_eq, bind_some]
  · intro a ha
    obtain ⟨hseg, hax⟩ := hin a (mem_append_left _ ha)
    by_cases hne : a = w
    · rw [hne]
      exact overrides_self
    · exact (hout a hseg hne hax).overrides hx hax (fun h => hne (hdistinct a hseg w hw h))
        (hbefore a ha w mem_cons_self)
  · intro b hb
    obtain ⟨hseg, hbx⟩ := hin b (mem_append_right _ (mem_cons_of_mem _ hb))
    by_cases hne : b = w
    · exact .inl hne
    · exact .inr ((hout b hseg hne hbx).not_overrides hx hbx ((pairwise_cons.mp hafter).1 b hb))

/-- **Exactly that one.** What a rebuild of any of the segments gives a block to, as long as `w` is
among them, is `w`, if and only if `w` outranks all others on the block. -/
theorem build_eq_iff_outranks :
    (∀ part ⊆ segs, w ∈ part → (build part).lookupWithClaimant x = w.claim x) ↔
      ∀ seg ∈ segs, seg ≠ w → (seg.claim x).isSome = true → w.Outranks seg x := by
  constructor
  · intro h seg hseg hne hsx
    by_contra hlost
    have hulid : w.ulid ≠ seg.ulid := fun heq => hne (hdistinct seg hseg w hw heq.symm)
    -- a rebuild of the two alone gives the block to the other
    have hpart : [w, seg] ⊆ segs := by
      intro t ht
      rcases mem_cons.mp ht with rfl | ht
      · exact hw
      · exact mem_singleton.mp ht ▸ hseg
    have hother : (build [w, seg]).lookupWithClaimant x = seg.claim x := by
      refine build_eq_of_outranks (fun t ht => hfits t (hpart ht))
        (fun s hs t ht => hdistinct s (hpart hs) t (hpart ht)) (by simp) hsx fun t ht htne _ => ?_
      rcases mem_cons.mp ht with rfl | ht
      · exact (outranks_or hulid x).mpr hlost
      · exact absurd (mem_singleton.mp ht) htne
    have hboth := hother.symm.trans (h _ hpart mem_cons_self)
    obtain ⟨v, hv⟩ := isSome_iff_exists.mp hx
    exact hulid ((ulid_of_claim hv).symm.trans (ulid_of_claim (hboth.trans hv)))
  · intro h part hsub hmem
    exact build_eq_of_outranks (fun t ht => hfits t (hsub ht))
      (fun s hs t ht => hdistinct s (hsub hs) t (hsub ht)) hmem hx fun t ht => h t (hsub ht)

end

end LbaMapBuilder

end Elide
