import Elide.LbaMap.Guarded
import Elide.Lib.Spans
import Mathlib.Data.List.TakeWhile

/-!
# Coverage of LBA ranges

The refusals of a structural apply ask whether a set of ranges covers another one. `LbaRanges` keeps
the set sorted and coalesced.

Every function here is a translation of the function of the same name; `Spans.absorb` and `sweep` are
the bodies of the loops of `new` and `first_gap_in`.

## Main results

* `LbaRanges.spans_new`: the ranges hold every block that was put in, and no other.
* `LbaRanges.firstGapIn_spec`: the gap found in a range is the first of those it has.
-/

namespace Elide

open List

/-- Disjoint half-open LBA ranges, ascending, for coverage queries. -/
structure LbaRanges where
  ranges : List (ℕ × ℕ)

namespace LbaRanges

/-- The order the ranges are sorted in. -/
def Before (a b : ℕ × ℕ) : Prop := a.1 < b.1 ∨ a.1 = b.1 ∧ a.2 ≤ b.2

instance : DecidableRel Before := fun _ _ => inferInstanceAs (Decidable (_ ∨ _))

instance : Std.Total Before := ⟨fun a b => by unfold Before; omega⟩

instance : IsTrans (ℕ × ℕ) Before := ⟨fun a b c => by unfold Before; omega⟩

/-- Sort and coalesce the ranges; an empty one covers nothing and is dropped. -/
def new (ranges : List (ℕ × ℕ)) : LbaRanges :=
  ⟨(((ranges.filter fun r => decide (r.1 < r.2)).insertionSort Before).foldl Spans.absorb []).reverse⟩

/-- Start of the first range past `lba`. -/
def nextStartAfter (r : LbaRanges) (lba : ℕ) : Option ℕ :=
  (r.ranges.find? fun p => decide (lba < p.1)).map Prod.fst

/-- Move the cursor over the ranges that reach it; `none` once it is past `stop`. -/
def sweep (stop : ℕ) : List (ℕ × ℕ) → ℕ → Option ℕ
  | [], cursor => some cursor
  | p :: ps, cursor =>
    if cursor < p.1 then some cursor
    else if stop ≤ max cursor p.2 then none
    else sweep stop ps (max cursor p.2)

/-- The first sub-range of `[start, stop)` this set leaves uncovered. -/
def firstGapIn (r : LbaRanges) (start stop : ℕ) : Option (ℕ × ℕ) :=
  -- the predecessor is the only range that can cover the cursor from below
  let reached := (r.ranges.takeWhile fun p => decide (p.1 ≤ start)).length
  match sweep stop (r.ranges.drop (reached - 1)) start with
  | none => none
  | some cursor =>
    if cursor < stop then some (cursor, min stop ((r.nextStartAfter cursor).getD stop)) else none

/-- One of the ranges has the block. -/
def Has (r : LbaRanges) (x : ℕ) : Prop := LbaMap.InRanges r.ranges x

open LbaMap (InRanges)

/-- **The ranges do not touch, and have the blocks of those put in.** -/
theorem spans_new (ranges : List (ℕ × ℕ)) : Spans.Apart (new ranges).ranges.reverse ∧
    ∀ x, (new ranges).Has x ↔ InRanges ranges x := by
  have hsorted := pairwise_insertionSort Before (ranges.filter fun r => decide (r.1 < r.2))
  simp only [Has, InRanges, new, reverse_reverse, mem_reverse]
  exact Spans.coalesced (by simp) (hsorted.imp fun h => h.elim Nat.le_of_lt fun h => h.1.le)

/-! ### The first gap -/

/-- The cursor passes blocks that the walk has, and stops at one that it has not. -/
theorem sweep_spec {ps : List (ℕ × ℕ)} (hpos : ∀ p ∈ ps, p.1 < p.2)
    (hps : ps.Pairwise fun a b => a.2 < b.1) (stop cursor : ℕ) :
    match sweep stop ps cursor with
    | none => ∀ x, cursor ≤ x → x < stop → InRanges ps x
    | some c => cursor ≤ c ∧ (∀ x, cursor ≤ x → x < c → InRanges ps x) ∧ ¬ InRanges ps c := by
  induction ps generalizing cursor with
  | nil => exact ⟨le_rfl, fun x h1 h2 => absurd h2 (Nat.not_lt.mpr h1), by simp [InRanges]⟩
  | cons p ps ih =>
    obtain ⟨hp, hpos⟩ := forall_mem_cons.mp hpos
    obtain ⟨hafter, hps⟩ := pairwise_cons.mp hps
    rw [sweep]
    simp only [LbaMap.inRanges_cons]
    split_ifs with hlt hstop
    · refine ⟨le_rfl, fun x h1 h2 => absurd h2 (Nat.not_lt.mpr h1), ?_⟩
      rintro (hin | ⟨q, hq, hin⟩)
      · omega
      · have := hafter q hq
        omega
    · exact fun x h1 h2 => .inl (by omega)
    · have hrest := ih hpos hps (max cursor p.2)
      have hpassed : ∀ x, cursor ≤ x → (max cursor p.2 ≤ x → InRanges ps x) →
          (p.1 ≤ x ∧ x < p.2) ∨ InRanges ps x := fun x h1 hin =>
        (lt_or_ge x p.2).imp (fun hx => ⟨by omega, hx⟩) fun hx => hin (max_le h1 hx)
      cases hs : sweep stop ps (max cursor p.2) with
      | none =>
        rw [hs] at hrest
        exact fun x h1 h2 => hpassed x h1 fun h => hrest x h h2
      | some c =>
        rw [hs] at hrest
        obtain ⟨hle, hcovered, hfree⟩ := hrest
        refine ⟨by omega, fun x h1 h2 => hpassed x h1 fun h => hcovered x h h2, ?_⟩
        rintro (hin | hin)
        · omega
        · exact hfree hin

section

variable {r : LbaRanges} (hr : Spans.Apart r.ranges.reverse)
include hr

/-- The ranges before the predecessor of `start` end before it. -/
theorem inRanges_drop {start x : ℕ} (hx : start ≤ x) (hin : r.Has x) : InRanges
    (r.ranges.drop ((r.ranges.takeWhile fun p => decide (p.1 ≤ start)).length - 1)) x := by
  obtain ⟨p, hp, hin⟩ := hin
  have hsplit := (takeWhile_append_dropWhile (p := fun p => decide (p.1 ≤ start)) (l := r.ranges)).symm
  have hlow : ∀ q ∈ r.ranges.takeWhile fun p => decide (p.1 ≤ start), q.1 ≤ start := by
    intro q hq
    simpa using mem_takeWhile_imp hq
  have hapart := pairwise_reverse.mp hr.apart
  generalize r.ranges.takeWhile _ = low at *
  obtain rfl | ⟨init, q, rfl⟩ := eq_nil_or_concat' low
  · exact ⟨p, hp, hin⟩
  · rw [hsplit, append_assoc] at hp hapart ⊢
    rw [length_append, length_singleton, Nat.add_sub_cancel, drop_left]
    rcases mem_append.mp hp with hp | hp
    · have hq := hlow q (mem_append_right _ (mem_singleton_self q))
      have := (pairwise_append.mp hapart).2.2 p hp q mem_cons_self
      omega
    · exact ⟨p, hp, hin⟩

/-- The first start above a block that no range has. -/
theorem nextStartAfter_spec {c : ℕ} (hc : ¬ r.Has c) :
    match r.nextStartAfter c with
    | none => ∀ x ≥ c, ¬ r.Has x
    | some s => c < s ∧ r.Has s ∧ ∀ x, c ≤ x → x < s → ¬ r.Has x := by
  have hends : ∀ p ∈ r.ranges, p.1 ≤ c → p.2 ≤ c := fun p hp hle =>
    Nat.le_of_not_lt fun hlt => hc ⟨p, hp, hle, hlt⟩
  rw [nextStartAfter]
  cases hfind : r.ranges.find? fun p => decide (c < p.1) with
  | none =>
    rintro x hx ⟨p, hp, hin⟩
    have hle := find?_eq_none.mp hfind p hp
    have := hends p hp (by simpa using hle)
    omega
  | some p =>
    obtain ⟨hp, before, after, hsplit, hbefore⟩ := find?_eq_some_iff_append.mp hfind
    have hmem : p ∈ r.ranges := hsplit ▸ mem_append_right _ mem_cons_self
    have hpos := hr.pos p (mem_reverse.mpr hmem)
    have hlt : c < p.1 := of_decide_eq_true hp
    refine ⟨hlt, ⟨p, hmem, le_rfl, hpos⟩, ?_⟩
    rintro x h1 h2 ⟨q, hq, hin⟩
    have hqc := hends q hq
    have hapart := pairwise_reverse.mp hr.apart
    rw [hsplit] at hq hapart
    simp only [mem_append, mem_cons] at hq
    rcases hq with hq | rfl | hq
    · have := hbefore q hq
      simp only [Bool.not_eq_true', decide_eq_false_iff_not] at this
      omega
    · omega
    · have := (pairwise_cons.mp (pairwise_append.mp hapart).2.1).1 q hq
      omega

/-- **A gap** goes from the first block that no range has up to the next that one has. -/
theorem firstGapIn_spec (start stop : ℕ) :
    match r.firstGapIn start stop with
    | none => ∀ x, start ≤ x → x < stop → r.Has x
    | some (lo, hi) => start ≤ lo ∧ lo < hi ∧ hi ≤ stop ∧ (∀ x, start ≤ x → x < lo → r.Has x) ∧
        (∀ x, lo ≤ x → x < hi → ¬ r.Has x) ∧ (hi = stop ∨ r.Has hi) := by
  have hdrop := @inRanges_drop r hr start
  rw [firstGapIn]
  generalize (r.ranges.takeWhile fun p => decide (p.1 ≤ start)).length - 1 = n at hdrop
  have hsweep := sweep_spec (fun p hp => hr.pos p (mem_reverse.mpr (mem_of_mem_drop hp)))
    ((pairwise_reverse.mp hr.apart).sublist (drop_sublist n _)) stop start
  have hhas : ∀ x, InRanges (r.ranges.drop n) x → r.Has x := fun x ⟨p, hp, hin⟩ =>
    ⟨p, mem_of_mem_drop hp, hin⟩
  cases hs : sweep stop (r.ranges.drop n) start with
  | none =>
    rw [hs] at hsweep
    exact fun x h1 h2 => hhas x (hsweep x h1 h2)
  | some c =>
    rw [hs] at hsweep
    obtain ⟨hle, hcovered, hfree⟩ := hsweep
    have hcovered : ∀ x, start ≤ x → x < c → r.Has x := fun x h1 h2 => hhas x (hcovered x h1 h2)
    dsimp only
    split_ifs with hstop
    · have hnext := nextStartAfter_spec hr fun hc => hfree (hdrop hle hc)
      cases hn : r.nextStartAfter c with
      | none =>
        rw [hn] at hnext
        simpa [hle, hstop] using ⟨hcovered, fun x hx _ => hnext x hx⟩
      | some s =>
        rw [hn] at hnext
        obtain ⟨hlt, hs, hfree⟩ := hnext
        refine ⟨hle, lt_min hstop hlt, min_le_left _ _, hcovered, fun x h1 h2 => ?_, ?_⟩
        · exact hfree x h1 (lt_min_iff.mp h2).2
        · rcases min_choice stop s with hmin | hmin
          · exact .inl hmin
          · exact .inr (by simpa only [Option.getD_some, hmin] using hs)
    · exact fun x h1 h2 => hcovered x h1 (by omega)

end

/-- **The coverage query finds the first hole.** However the ranges overlap, touch or are ordered,
those of the set are not empty, ascend and do not touch, and have the same blocks. No gap is found
exactly when every block of `[start, stop)` is in one of them, and otherwise the gap begins at the
first that is in none and goes as far as there is none. -/
theorem firstGapIn_new (ranges : List (ℕ × ℕ)) (start stop : ℕ) :
    (∀ p ∈ (new ranges).ranges, p.1 < p.2) ∧
    (new ranges).ranges.Pairwise (fun a b => a.2 < b.1) ∧
    (∀ x, (new ranges).Has x ↔ ∃ p ∈ ranges, p.1 ≤ x ∧ x < p.2) ∧
    ((new ranges).firstGapIn start stop = none ↔ ∀ x, start ≤ x → x < stop → (new ranges).Has x) ∧
    ∀ lo hi, (new ranges).firstGapIn start stop = some (lo, hi) →
      start ≤ lo ∧ lo < hi ∧ hi ≤ stop ∧ (∀ x, start ≤ x → x < lo → (new ranges).Has x) ∧
        (∀ x, lo ≤ x → x < hi → ¬ (new ranges).Has x) ∧ (hi = stop ∨ (new ranges).Has hi) := by
  obtain ⟨hr, hhas⟩ := spans_new ranges
  have hspec := firstGapIn_spec hr start stop
  refine ⟨fun p hp => hr.pos p (mem_reverse.mpr hp), pairwise_reverse.mp hr.apart, hhas, ?_⟩
  cases hgap : (new ranges).firstGapIn start stop with
  | none =>
    rw [hgap] at hspec
    exact ⟨iff_of_true rfl hspec, nofun⟩
  | some gap =>
    rw [hgap] at hspec
    refine ⟨iff_of_false nofun fun hall => ?_, ?_⟩
    · obtain ⟨hle, hlt, hstop, -, hfree, -⟩ := hspec
      exact hfree gap.1 le_rfl hlt (hall gap.1 hle (hlt.trans_le hstop))
    · rintro lo hi ⟨⟩
      exact hspec

end LbaRanges

end Elide
