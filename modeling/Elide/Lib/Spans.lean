import Mathlib.Data.List.Sort

/-!
# Coalescing ranges

A range `(lo, hi)` has the points from `lo` up to and without `hi`. Ranges are coalesced in the order
of their starts: one that reaches the last is taken into it. The result has the same points, and its
ranges are not empty and do not touch.
-/

namespace Spans

open List

/-- One of the ranges has the point. -/
def Covers (rs : List (ℕ × ℕ)) (x : ℕ) : Prop := ∃ r ∈ rs, r.1 ≤ x ∧ x < r.2

/-- Push a range, or let the last one absorb it. The last range stands first. -/
def absorb (merged : List (ℕ × ℕ)) (r : ℕ × ℕ) : List (ℕ × ℕ) :=
  match merged with
  | last :: rest => if r.1 ≤ last.2 then (last.1, max last.2 r.2) :: rest else r :: last :: rest
  | [] => [r]

/-- Ranges, the last one first, that are not empty and do not touch. -/
structure Apart (merged : List (ℕ × ℕ)) : Prop where
  pos : ∀ r ∈ merged, r.1 < r.2
  apart : merged.Pairwise fun b a => a.2 < b.1

theorem covers_cons {r : ℕ × ℕ} {rs : List (ℕ × ℕ)} {x : ℕ} :
    Covers (r :: rs) x ↔ (r.1 ≤ x ∧ x < r.2) ∨ Covers rs x := by
  simp [Covers]

theorem Apart.absorb {merged : List (ℕ × ℕ)} {r : ℕ × ℕ} (h : Apart merged) (hr : r.1 < r.2)
    (hle : ∀ p ∈ merged, p.1 ≤ r.1) :
    Apart (absorb merged r) ∧ (∀ p ∈ Spans.absorb merged r, p.1 ≤ r.1) ∧
      ∀ x, Covers (Spans.absorb merged r) x ↔ Covers merged x ∨ r.1 ≤ x ∧ x < r.2 := by
  cases merged with
  | nil => exact ⟨⟨by simpa [Spans.absorb] using hr, pairwise_singleton _ _⟩, by simp [Spans.absorb],
      by simp [Spans.absorb, Covers]⟩
  | cons last rest =>
    obtain ⟨hlast, hpos⟩ := forall_mem_cons.mp h.pos
    obtain ⟨hbelow, hapart⟩ := pairwise_cons.mp h.apart
    obtain ⟨hstart, hstarts⟩ := forall_mem_cons.mp hle
    rw [Spans.absorb]
    split_ifs with hreach
    · refine ⟨⟨forall_mem_cons.mpr ⟨Nat.lt_of_lt_of_le hlast (Nat.le_max_left _ _), hpos⟩, pairwise_cons.mpr
        ⟨hbelow, hapart⟩⟩, forall_mem_cons.mpr ⟨hstart, hstarts⟩, fun x => ?_⟩
      have hunion : (last.1 ≤ x ∧ x < max last.2 r.2) ↔
          (last.1 ≤ x ∧ x < last.2) ∨ r.1 ≤ x ∧ x < r.2 := by omega
      rw [covers_cons, covers_cons, hunion]
      exact or_right_comm
    · have hgap : last.2 < r.1 := Nat.lt_of_not_le hreach
      refine ⟨⟨forall_mem_cons.mpr ⟨hr, h.pos⟩, pairwise_cons.mpr ⟨forall_mem_cons.mpr
        ⟨hgap, fun p hp => ?_⟩, h.apart⟩⟩, forall_mem_cons.mpr ⟨le_rfl, hle⟩, fun x => ?_⟩
      · exact (hbelow p hp).trans (hlast.trans hgap)
      · rw [covers_cons, or_comm]

/-- **Ranges in the order of their starts, coalesced.** -/
theorem Apart.foldl_absorb {merged : List (ℕ × ℕ)} (h : Apart merged) (rs : List (ℕ × ℕ))
    (hpos : ∀ r ∈ rs, r.1 < r.2) (hsorted : rs.Pairwise fun a b => a.1 ≤ b.1)
    (hle : ∀ p ∈ merged, ∀ r ∈ rs, p.1 ≤ r.1) : Apart (rs.foldl Spans.absorb merged) ∧
      ∀ x, Covers (rs.foldl Spans.absorb merged) x ↔ Covers merged x ∨ Covers rs x := by
  induction rs generalizing merged with
  | nil => exact ⟨h, by simp [Covers]⟩
  | cons r rs ih =>
    obtain ⟨hr, hpos⟩ := forall_mem_cons.mp hpos
    obtain ⟨hfirst, hsorted⟩ := pairwise_cons.mp hsorted
    obtain ⟨hone, hstarts, hcovers⟩ := h.absorb hr fun p hp => hle p hp r mem_cons_self
    obtain ⟨hall, hrest⟩ := ih hone hpos hsorted fun p hp r' hr' =>
      (hstarts p hp).trans (hfirst r' hr')
    refine ⟨hall, fun x => ?_⟩
    rw [foldl_cons, hrest, hcovers, covers_cons, or_assoc]

/-- The ranges that are not empty, sorted and coalesced. -/
theorem coalesced {rs sorted : List (ℕ × ℕ)} (hmem : ∀ r, r ∈ sorted ↔ r ∈ rs ∧ r.1 < r.2)
    (hsorted : sorted.Pairwise fun a b => a.1 ≤ b.1) : Apart (sorted.foldl absorb []) ∧
      ∀ x, Covers (sorted.foldl absorb []) x ↔ Covers rs x := by
  obtain ⟨hapart, hcovers⟩ := (⟨by simp, .nil⟩ : Apart []).foldl_absorb sorted
    (fun r hr => ((hmem r).mp hr).2) hsorted (by simp)
  refine ⟨hapart, fun x => (hcovers x).trans ?_⟩
  simp only [Covers, hmem, not_mem_nil, false_and, exists_false, false_or]
  constructor
  · rintro ⟨r, ⟨hr, -⟩, hx⟩
    exact ⟨r, hr, hx⟩
  · rintro ⟨r, hr, hx⟩
    exact ⟨r, ⟨hr, by omega⟩, hx⟩

end Spans
