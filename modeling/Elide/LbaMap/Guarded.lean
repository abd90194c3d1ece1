import Elide.LbaMap.Insert
import Mathlib.Order.Interval.Finset.Nat

/-!
# Guarded insertion

`insertInnerIfNewer` collects the sub-ranges whose claim blocks the insert and then sweeps a
cursor over them, filling each gap with an unconditional insert. One extent that matches the
range exactly takes a path of its own, which restates the claim in place.

Both paths meet one pointwise rule: a block of the range is set when its current claim does not
block, everything else stays, and the count returned is the number of blocks set. The sweep lemma
(`GapSweep.sweep_spec`) knows nothing of claims, it fills the gaps of any ascending list of
ranges; `mem_blockedRanges_iff` says which list the code hands it.

## Main results

* `LbaMap.Inv.insertInnerIfNewer` — the invariant is kept
* `LbaMap.Inv.lookupWithClaimant_insertInnerIfNewer` — the pointwise rule
-/

namespace Elide

open List LbaMap OrdMap GapSweep MapEntry

namespace LbaMap

variable {m : LbaMap} {s len stop : ℕ} {h : Hash} {c : Ulid}

/-- The block `x` is open to an insert: it is bare, or its claim does not block. -/
def Admits (m : LbaMap) (blocks : Ulid → Hash → Bool) (x : ℕ) : Prop :=
  ∀ v ∈ m.lookupWithClaimant x, blocks v.2.2 v.1 = false

instance (m : LbaMap) (blocks : Ulid → Hash → Bool) (x : ℕ) : Decidable (m.Admits blocks x) :=
  inferInstanceAs (Decidable (∀ v ∈ m.lookupWithClaimant x, blocks v.2.2 v.1 = false))

/-! ## The sweep -/

/-- The block `x` lies in one of the ranges. -/
def InRanges (bs : List (ℕ × ℕ)) (x : ℕ) : Prop := ∃ p ∈ bs, p.1 ≤ x ∧ x < p.2

instance (bs : List (ℕ × ℕ)) (x : ℕ) : Decidable (InRanges bs x) :=
  inferInstanceAs (Decidable (∃ p ∈ bs, p.1 ≤ x ∧ x < p.2))

/-- Non-empty ranges in ascending order, disjoint, from `lo` on and up to `hi`. -/
def Ascends (hi : ℕ) : ℕ → List (ℕ × ℕ) → Prop
  | lo, [] => lo ≤ hi
  | lo, p :: ps => lo ≤ p.1 ∧ p.1 < p.2 ∧ Ascends hi p.2 ps

variable {ps : List (ℕ × ℕ)}

theorem inRanges_cons {p : ℕ × ℕ} {x : ℕ} :
    InRanges (p :: ps) x ↔ (p.1 ≤ x ∧ x < p.2) ∨ InRanges ps x := by
  simp [InRanges]

theorem Ascends.le {hi lo : ℕ} (hasc : Ascends hi lo ps) : lo ≤ hi := by
  induction ps generalizing lo with
  | nil => exact hasc
  | cons p ps ih =>
    obtain ⟨h1, h2, h3⟩ := hasc
    have := ih h3
    omega

theorem Ascends.le_of_inRanges {hi lo x : ℕ} (hasc : Ascends hi lo ps) (hx : InRanges ps x) :
    lo ≤ x := by
  induction ps generalizing lo with
  | nil => simp [InRanges] at hx
  | cons p ps ih =>
    obtain ⟨h1, h2, h3⟩ := hasc
    rcases inRanges_cons.mp hx with hp | hps
    · omega
    · have := ih h3 hps
      omega

/-- Filling a gap sets the blocks from the cursor to its end. -/
theorem GapSweep.fill_spec {st : GapSweep} (hinv : st.map.Inv) (hs : s ≤ st.cursor)
    (gapEnd : ℕ) :
    (st.fill s gapEnd h c).map.Inv ∧ (∀ x, (st.fill s gapEnd h c).map.lookupWithClaimant x =
        if st.cursor ≤ x ∧ x < gapEnd then some (h, x - s, c)
        else st.map.lookupWithClaimant x) ∧
      (st.fill s gapEnd h c).installed = st.installed + (gapEnd - st.cursor) ∧
      (st.fill s gapEnd h c).cursor = st.cursor := by
  rw [fill]
  split_ifs with hgap
  · have hlen : 0 < gapEnd - st.cursor := by omega
    refine ⟨hinv.insertInner hlen _ _ _, fun x => ?_, rfl, rfl⟩
    rw [hinv.lookupWithClaimant_insertInner hlen]
    by_cases hx : st.cursor ≤ x ∧ x < gapEnd
    · rw [if_pos hx, if_pos (by omega), show st.cursor - s + (x - st.cursor) = x - s by omega]
    · rw [if_neg hx, if_neg (by omega)]
  · refine ⟨hinv, fun x => ?_, by omega, rfl⟩
    rw [if_neg (by omega)]

/-- **The sweep fills the gaps.** Over an ascending list of ranges, the blocks from the cursor to
`stop` that lie in none of them are set, and counted. -/
theorem GapSweep.sweep_spec {bs : List (ℕ × ℕ)} (st : GapSweep) (hinv : st.map.Inv)
    (hs : s ≤ st.cursor) (hasc : Ascends stop st.cursor bs) :
    let st' := (bs.foldl (step s h c) st).fill s stop h c
    st'.map.Inv ∧ (∀ x, st'.map.lookupWithClaimant x =
        if st.cursor ≤ x ∧ x < stop ∧ ¬ InRanges bs x then some (h, x - s, c)
        else st.map.lookupWithClaimant x) ∧
      st'.installed = st.installed +
        ((Finset.Ico st.cursor stop).filter fun x => ¬ InRanges bs x).card := by
  induction bs generalizing st with
  | nil =>
    obtain ⟨hinv', hlook, hinst, -⟩ := fill_spec (h := h) (c := c) hinv hs stop
    refine ⟨hinv', fun x => ?_, ?_⟩
    · simp [hlook, InRanges]
    · simp only [foldl_nil, hinst, InRanges, not_mem_nil, false_and, exists_false,
        not_false_eq_true, Finset.filter_true, Nat.card_Ico]
  | cons p ps ih =>
    obtain ⟨hp1, hp2, hps⟩ := hasc
    obtain ⟨hinv₁, hlook₁, hinst₁, hcur₁⟩ := fill_spec (h := h) (c := c) hinv hs p.1
    have hcur : (step s h c st p).cursor = p.2 := by
      simp only [step]
      omega
    -- a block is open below the first range or above it
    have hopen : ∀ x, (st.cursor ≤ x ∧ x < stop ∧ ¬ InRanges (p :: ps) x) ↔
        (p.2 ≤ x ∧ x < stop ∧ ¬ InRanges ps x) ∨ st.cursor ≤ x ∧ x < p.1 := by
      intro x
      have hbelow : InRanges ps x → p.2 ≤ x := hps.le_of_inRanges
      have hle := hps.le
      rw [inRanges_cons, not_or]
      by_cases hx : InRanges ps x
      · simp only [hx, not_true, and_false, false_or, false_iff]
        have := hbelow hx
        omega
      · simp only [hx, not_false_eq_true, and_true]
        omega
    obtain ⟨hinv', hlook, hinst⟩ := ih (step s h c st p) hinv₁ (by rw [hcur]; omega) (by rwa [hcur])
    rw [hcur] at hlook hinst
    refine ⟨hinv', fun x => ?_, ?_⟩
    · rw [foldl_cons, hlook, if_congr (hopen x) rfl rfl, ite_or]
      simp only [step, hlook₁]
    · have hsplit : ((Finset.Ico st.cursor stop).filter fun x => ¬ InRanges (p :: ps) x) =
          ((Finset.Ico p.2 stop).filter fun x => ¬ InRanges ps x) ∪ Finset.Ico st.cursor p.1 := by
        ext x
        simpa only [Finset.mem_filter, Finset.mem_union, Finset.mem_Ico, and_assoc] using hopen x
      have hdisj : Disjoint ((Finset.Ico p.2 stop).filter fun x => ¬ InRanges ps x)
          (Finset.Ico st.cursor p.1) := by
        refine Finset.disjoint_left.mpr fun x hx hx' => ?_
        simp only [Finset.mem_filter, Finset.mem_Ico] at hx hx'
        omega
      rw [foldl_cons, hinst, hsplit, Finset.card_union_of_disjoint hdisj, Nat.card_Ico]
      simp only [step]
      omega

/-! ## The blocked ranges -/

variable {blocks : Ulid → Hash → Bool}

/-- The part of `blockedRanges` that comes from entries starting inside the range. -/
theorem ascends_filterMap {lo : ℕ} {es : List (ℕ × MapEntry)} (hlo : lo ≤ stop)
    (hes : ∀ p ∈ es, lo ≤ p.1 ∧ p.1 < stop ∧ 0 < p.2.lbaLength)
    (hdisj : es.Pairwise fun p q => p.1 + p.2.lbaLength ≤ q.1) :
    Ascends stop lo (es.filterMap fun (k, e) =>
      if blocks e.claimantUlid e.hash then some (k, min (k + e.lbaLength) stop) else none) := by
  induction es generalizing lo with
  | nil => exact hlo
  | cons p es ih =>
    obtain ⟨hp, hdisj⟩ := pairwise_cons.mp hdisj
    obtain ⟨h1, h2, h3⟩ := hes p mem_cons_self
    by_cases hb : blocks p.2.claimantUlid p.2.hash
    · simp only [filterMap_cons, hb]
      refine ⟨h1, by omega, ih (by omega) (fun q hq => ?_) hdisj⟩
      have hq' := hes q (mem_cons_of_mem _ hq)
      have := hp q hq
      exact ⟨by omega, hq'.2⟩
    · simp only [filterMap_cons, hb]
      exact ih hlo (fun q hq => hes q (mem_cons_of_mem _ hq)) hdisj

theorem Wf.ascends_blockedRanges (hm : m.Wf) (blocks : Ulid → Hash → Bool) (hlt : s < stop) :
    Ascends stop s (m.blockedRanges s stop blocks) := by
  have hes : ∀ p ∈ m.inner.range s stop, s ≤ p.1 ∧ p.1 < stop ∧ 0 < p.2.lbaLength := by
    intro p hp
    obtain ⟨hg, h1, h2⟩ := mem_range_iff.mp hp
    exact ⟨h1, h2, hm.pos hg⟩
  have hdisj : (m.inner.range s stop).Pairwise fun p q => p.1 + p.2.lbaLength ≤ q.1 :=
    (m.inner.range_sorted s stop).imp_of_mem fun hp hq hpq =>
      hm.disjoint (mem_range_iff.mp hp).1 (mem_range_iff.mp hq).1 hpq
  rw [blockedRanges]
  cases hp : m.inner.pred? s with
  | none => exact ascends_filterMap hlt.le hes hdisj
  | some p =>
    obtain ⟨hg, hk, -⟩ := pred?_eq_some_iff.mp hp
    dsimp only
    split_ifs with hb
    · refine ⟨le_refl s, by omega, ascends_filterMap (by omega) (fun q hq => ?_) hdisj⟩
      have hq' := hes q hq
      have := hm.disjoint hg (mem_range_iff.mp hq).1 (by omega)
      exact ⟨by omega, hq'.2⟩
    · exact ascends_filterMap hlt.le hes hdisj

/-- The blocked ranges hold the blocks of the range whose entry blocks. -/
theorem Wf.mem_blockedRanges_iff (hm : m.Wf) {x : ℕ} (h1 : s ≤ x) (h2 : x < stop) :
    InRanges (m.blockedRanges s stop blocks) x ↔ ¬ m.Admits blocks x := by
  have hadmits : ¬ m.Admits blocks x ↔
      ∃ k e, m.CoveredBy x k e ∧ blocks e.claimantUlid e.hash = true := by
    rw [Admits]
    push Not
    constructor
    · rintro ⟨v, hv, hb⟩
      obtain ⟨k, e, hc, rfl⟩ := hm.lookupWithClaimant_eq_some_iff.mp hv
      exact ⟨k, e, hc, by simpa [valueAt] using hb⟩
    · rintro ⟨k, e, hc, hb⟩
      exact ⟨_, hm.lookupWithClaimant_of_coveredBy hc, by simp [valueAt, hb]⟩
  rw [hadmits, blockedRanges, InRanges]
  simp only [mem_append, mem_filterMap, or_and_right, exists_or]
  rw [← InRanges]
  -- the entries of the range
  refine (or_congr_right (c := ∃ k e, s ≤ k ∧ m.CoveredBy x k e ∧
    blocks e.claimantUlid e.hash = true) ⟨?_, ?_⟩).trans ⟨?_, ?_⟩
  · rintro ⟨p, ⟨⟨k, e⟩, hmem, hp⟩, hx1, hx2⟩
    obtain ⟨hg, hk, hk'⟩ := mem_range_iff.mp hmem
    by_cases hb : blocks e.claimantUlid e.hash
    · simp only [hb, if_true, Option.some.injEq] at hp
      subst hp
      exact ⟨k, e, hk, ⟨hg, hx1, by omega⟩, hb⟩
    · simp [hb] at hp
  · rintro ⟨k, e, hk, ⟨hg, hc1, hc2⟩, hb⟩
    refine ⟨_, ⟨(k, e), mem_range_iff.mpr ⟨hg, hk, by omega⟩, if_pos hb⟩, hc1, ?_⟩
    simp only [lt_min_iff]
    exact ⟨hc2, h2⟩
  · rintro (hpred | ⟨k, e, -, hc, hb⟩)
    · cases hp : m.inner.pred? s with
      | none => simp [hp, InRanges] at hpred
      | some p =>
        obtain ⟨k, e⟩ := p
        obtain ⟨hg, hk, -⟩ := pred?_eq_some_iff.mp hp
        simp only [hp, InRanges] at hpred
        split_ifs at hpred with hb
        · simp only [mem_singleton, exists_eq_left, lt_min_iff] at hpred
          exact ⟨k, e, ⟨hg, by omega, hpred.2.1⟩, hb.2⟩
        · simp at hpred
    · exact ⟨k, e, hc, hb⟩
  · rintro ⟨k, e, ⟨hg, hc1, hc2⟩, hb⟩
    by_cases hk : s ≤ k
    · exact .inr ⟨k, e, hk, ⟨hg, hc1, hc2⟩, hb⟩
    · -- an entry from below that covers `x` reaches past `s`, so it is the predecessor
      have hp := hm.pred?_of_reaches hg (not_le.mp hk) (by omega)
      refine .inl ⟨(s, min (k + e.lbaLength) stop), ?_, h1, by simp only; omega⟩
      simp only [hp]
      rw [if_pos ⟨by omega, hb⟩]
      exact mem_singleton_self _

/-! ## The exact-extent fast path -/

/-- Restating a claim in place keeps the invariant, with the counts moved from the old hash to
the new one. -/
theorem Inv.restate (hm : m.Inv) {e : MapEntry} (hget : m.inner.get? s = some e)
    {m' : LbaMap} (hm' : m' = { m with inner := m.inner.insert s ⟨e.lbaLength, h, 0, c⟩ }) :
    let r := if e.hash ≠ h then (m'.claimDecref e.hash).claimIncref h else m'
    r.Inv ∧ ∀ x, r.lookupWithClaimant x =
      if s ≤ x ∧ x < s + e.lbaLength then some (h, x - s, c) else m.lookupWithClaimant x := by
  intro r
  have hpos := hm.wf.pos hget
  -- the same entries come from a removal and an addition
  obtain ⟨-, hrem⟩ := removeEntry_spec hm.wf hget
  have hinv₁ := hm.removeEntry hget
  obtain ⟨hnone, hwf, hadd⟩ := addEntry_spec (e := ⟨e.lbaLength, h, 0, c⟩) hinv₁.wf hpos
    fun x h1 h2 => by rw [hrem, if_pos ⟨h1, h2⟩]
  have hinner : r.inner = ((m.removeEntry s).1.addEntry s ⟨e.lbaLength, h, 0, c⟩).inner := by
    have hr : r.inner = m.inner.insert s ⟨e.lbaLength, h, 0, c⟩ := by
      simp only [r, hm']
      split_ifs <;> simp [claimIncref]
    rw [hr, removeEntry_of_get? hget]
    refine ext_get? fun j => ?_
    by_cases hj : j = s <;> simp [get?_insert, get?_erase, hj]
  have hlook : ∀ x, r.lookupWithClaimant x =
      ((m.removeEntry s).1.addEntry s ⟨e.lbaLength, h, 0, c⟩).lookupWithClaimant x := by
    intro x
    rw [lookupWithClaimant, lookupWithClaimant, hinner]
  refine ⟨⟨⟨fun hk => hwf.pos (hinner ▸ hk), fun hk hk' => hwf.disjoint (hinner ▸ hk)
    (hinner ▸ hk')⟩, ?_⟩, fun x => ?_⟩
  · -- one claim of the old hash has become one of the new hash
    have hold := (entries_erase_perm hget).map fun e => e.2.hash
    have hnew := (entries_insert_perm ⟨e.lbaLength, h, 0, c⟩ hnone).map fun e => e.2.hash
    rw [removeEntry_of_get? hget, claimDecref_inner] at hnew
    have hexact := hm.counted.exact.perm hold
    have hentries : r.inner = (m.inner.erase s).insert s ⟨e.lbaLength, h, 0, c⟩ := by
      rw [hinner, addEntry_inner, removeEntry_of_get? hget, claimDecref_inner]
    have hsome : (m.claimCounts.lookup e.hash).isSome := by
      rw [hexact.isSome_iff]; simp
    by_cases hh : e.hash = h
    · have hr : r = m' := if_neg (by simp [hh])
      have hexact' := hexact.perm (by simpa [hh] using hnew.symm)
      exact ⟨by rw [hentries, hr, hm']; exact hexact', by rw [hr, hm']; exact hm.counted.asserts⟩
    · have hr : r = (m'.claimDecref e.hash).claimIncref h := if_pos hh
      have hexact' := (hexact.decref.incref h).perm hnew.symm
      refine ⟨?_, ?_⟩
      · rw [hentries, hr, hm']
        simpa [claimIncref, claimDecref] using hexact'
      · rw [hr, hm']
        simp [claimIncref, claimDecref, debugAssert, hsome, hm.counted.asserts]
  · rw [hlook, ← value_tiles, Tiling.value, hadd]
    split_ifs with hx
    · simp [valueAt]
    · rw [hrem, if_neg hx, ← Tiling.value, value_tiles]

/-! ## The whole guarded insert -/

/-- The map and the count after the blocks of `[s, stop)` with `P` are set. -/
structure Fills (m : LbaMap) (s stop : ℕ) (h : Hash) (c : Ulid) (P : ℕ → Prop) [DecidablePred P]
    (r : LbaMap × ℕ) : Prop where
  inv : r.1.Inv
  lookup : ∀ x, r.1.lookupWithClaimant x =
    if s ≤ x ∧ x < stop ∧ P x then some (h, x - s, c) else m.lookupWithClaimant x
  count : r.2 = ((Finset.Ico s stop).filter P).card

theorem Fills.congr {P Q : ℕ → Prop} [DecidablePred P] [DecidablePred Q] {r : LbaMap × ℕ}
    (hr : m.Fills s stop h c P r) (hPQ : ∀ x, s ≤ x → x < stop → (P x ↔ Q x)) :
    m.Fills s stop h c Q r where
  inv := hr.inv
  lookup x := by
    rw [hr.lookup]
    exact if_congr (and_congr_right fun h1 => and_congr_right (hPQ x h1)) rfl rfl
  count := hr.count.trans (congrArg _ (Finset.filter_congr fun x hx =>
    hPQ x (Finset.mem_Ico.mp hx).1 (Finset.mem_Ico.mp hx).2))

section

variable (hm : m.Inv) (hlen : 0 < len) (b : Blocking)
include hm hlen b

/-- Both paths of a guarded insert set the blocks that are open to it. -/
theorem Inv.fills_insertInnerIfNewer : m.Fills s (s + len) h c (m.Admits (b.blocks c h))
    (m.insertInnerIfNewer s len h c b) := by
  obtain ⟨hinv, hlook, hinst⟩ := sweep_spec (h := h) (c := c) ⟨m, 0, s⟩ hm (le_refl s)
    (hm.wf.ascends_blockedRanges (b.blocks c h) (show s < s + len by omega))
  have hslow : m.Fills s (s + len) h c (m.Admits (b.blocks c h)) (_, _) :=
    Fills.congr (P := fun x => ¬ InRanges (m.blockedRanges s (s + len) (b.blocks c h)) x)
      ⟨hinv, hlook, hinst.trans (Nat.zero_add _)⟩
      fun x h1 h2 => (not_congr (hm.wf.mem_blockedRanges_iff h1 h2)).trans not_not
  rw [insertInnerIfNewer]
  cases hget : m.inner.get? s with
  | none => exact hslow
  | some e =>
    by_cases hel : e.lbaLength = len
    · subst hel
      -- the entry covers the whole range, so one answer decides every block
      have hcov : ∀ x, s ≤ x → x < s + e.lbaLength →
          (b.blocks c h e.claimantUlid e.hash = false ↔ m.Admits (b.blocks c h) x) := by
        intro x h1 h2
        rw [Admits, hm.wf.lookupWithClaimant_of_coveredBy ⟨hget, h1, h2⟩]
        simp [valueAt]
      refine Fills.congr ?_ hcov
      dsimp only
      rw [if_pos rfl]
      cases hb : b.blocks c h e.claimantUlid e.hash with
      | true => exact ⟨hm, fun x => by simp, by simp⟩
      | false =>
        obtain ⟨hinv, hlook⟩ := hm.restate (h := h) (c := c) hget rfl
        exact ⟨hinv, fun x => by simpa using hlook x, by simp⟩
    · dsimp only
      rw [if_neg hel]
      exact hslow

/-- **A guarded insert sets the blocks of its range that are open to it.** -/
theorem Inv.lookupWithClaimant_insertInnerIfNewer (x : ℕ) :
    (m.insertInnerIfNewer s len h c b).1.lookupWithClaimant x =
      if s ≤ x ∧ x < s + len ∧ m.Admits (b.blocks c h) x then some (h, x - s, c)
      else m.lookupWithClaimant x :=
  (hm.fills_insertInnerIfNewer hlen b).lookup x

end

end LbaMap

end Elide
