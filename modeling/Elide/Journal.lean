import Elide.Lib.Spans
import Mathlib.Data.List.TakeWhile
import Mathlib.Data.Nat.Basic

/-!
# The journal window

The LBA ranges of the guest filesystem's journal. Writes inside the window are kept in a tier of
their own, so the write path, the formation of a segment and the delta tiers all ask the window
where an LBA lies.

A window is sorted and coalesced when it is built, and both facts travel with it.

## Main results

* `JournalRanges.contains_eq_true_iff`: `contains` looks only at the last range that starts at or
  below the LBA, and that one speaks for all of them.
* `JournalRanges.splitAtBoundaries_exact`: a write is cut into runs inside or outside the window, at
  its boundaries and nowhere else.
-/

namespace Elide

open List

/-- Sorted, coalesced set of `(start_lba, lba_count)` ranges. Empty means no journal awareness. -/
structure JournalRanges where
  ranges : List (ℕ × ℕ)
  pos : ∀ r ∈ ranges, 0 < r.2
  apart : ranges.Pairwise fun a b => a.1 + a.2 < b.1
  deriving DecidableEq

namespace JournalRanges

/-- One turn of the coalescing loop, with the ranges so far held last first. -/
def coalesceStep (coalesced : List (ℕ × ℕ)) (r : ℕ × ℕ) : List (ℕ × ℕ) :=
  match coalesced with
  | (prevStart, prevLen) :: rest =>
    if r.1 ≤ prevStart + prevLen then
      (prevStart, max prevLen (r.1 + r.2 - prevStart)) :: rest
    else r :: coalesced
  | [] => [r]

variable (ranges : List (ℕ × ℕ))

/-- Drop the empty ranges, sort, and coalesce adjacent and overlapping ones. -/
def coalesce : List (ℕ × ℕ) :=
  let kept := ranges.filter fun r => decide (0 < r.2)
  let sorted := kept.mergeSort fun a b => decide (a.1 < b.1 ∨ a.1 = b.1 ∧ a.2 ≤ b.2)
  (sorted.foldl coalesceStep []).reverse

/-- The half-open range of a `(start_lba, lba_count)` pair. -/
def span (r : ℕ × ℕ) : ℕ × ℕ := (r.1, r.1 + r.2)

theorem map_span_coalesceStep (coalesced : List (ℕ × ℕ)) (r : ℕ × ℕ) :
    Spans.absorb (coalesced.map span) (span r) = (coalesceStep coalesced r).map span := by
  cases coalesced with
  | nil => rfl
  | cons prev rest =>
    show (if r.1 ≤ prev.1 + prev.2 then (prev.1, max (prev.1 + prev.2) (r.1 + r.2)) :: _ else _) = _
    rw [coalesceStep]
    split_ifs
    · congr 2
      omega
    · rfl

/-- **The loop coalesces**: the ranges do not touch, and have the same LBAs. -/
theorem spans_coalesce : Spans.Apart ((coalesce ranges).reverse.map span) ∧
    ∀ x, Spans.Covers ((coalesce ranges).reverse.map span) x ↔ Spans.Covers (ranges.map span) x := by
  have hfold : ∀ rs : List (ℕ × ℕ),
      (rs.foldl coalesceStep []).map span = (rs.map span).foldl Spans.absorb [] := by
    intro rs
    rw [foldl_map]
    exact (foldl_hom (map span) map_span_coalesceStep).symm
  simp only [coalesce, reverse_reverse, hfold]
  refine Spans.coalesced (fun r => ?_) (pairwise_map.mpr ((pairwise_mergeSort ?_ ?_ _).imp ?_))
  · simp only [mem_map, mem_mergeSort, mem_filter, decide_eq_true_eq]
    constructor
    · rintro ⟨q, ⟨hq, hpos⟩, rfl⟩
      exact ⟨⟨q, hq, rfl⟩, Nat.lt_add_of_pos_right hpos⟩
    · rintro ⟨⟨q, hq, rfl⟩, hpos⟩
      exact ⟨q, ⟨hq, Nat.pos_of_lt_add_right hpos⟩, rfl⟩
  · intro a b c hab hbc
    simp only [decide_eq_true_eq] at hab hbc ⊢
    omega
  · simp only [Bool.or_eq_true, decide_eq_true_eq]
    omega
  · intro a b hab
    have := of_decide_eq_true hab
    simp only [span]
    omega

/-- Normalise `(start_lba, lba_count)` pairs. -/
def new : JournalRanges where
  ranges := coalesce ranges
  pos := by
    intro r hr
    have hpos := (spans_coalesce ranges).1.pos _ (mem_map_of_mem (mem_reverse.mpr hr))
    simpa [span] using hpos
  apart := by
    have hapart := pairwise_map.mp (spans_coalesce ranges).1.apart
    rwa [pairwise_reverse] at hapart

/-- The window of a volume with no journal awareness. -/
def EMPTY : JournalRanges := ⟨[], by simp, List.Pairwise.nil⟩

variable (w : JournalRanges)

/-- Whether nothing is in the window. -/
def isEmpty : Bool := w.ranges.isEmpty

/-- Whether `lba` falls inside a journal range. -/
def contains (lba : ℕ) : Bool :=
  match (w.ranges.takeWhile fun r => decide (r.1 ≤ lba)).getLast? with
  | some (start, len) => decide (lba < start + len)
  | none => false

/-- Whether `[startLba, startLba + lbaCount)` is neither inside one range nor outside all. -/
def crossesBoundary (startLba lbaCount : ℕ) : Bool :=
  let stop := startLba + lbaCount
  w.ranges.any fun r =>
    let rangeEnd := r.1 + r.2
    decide (startLba < r.1 ∧ r.1 < stop ∨ startLba < rangeEnd ∧ rangeEnd < stop)

/-- Split `[startLba, startLba + lbaCount)` at every window boundary it crosses. -/
def splitAtBoundaries (startLba lbaCount : ℕ) : List (ℕ × ℕ) :=
  let stop := startLba + lbaCount
  let cuts := (w.ranges.flatMap fun r => [r.1, r.1 + r.2]).filter fun b =>
    decide (startLba < b ∧ b < stop)
  let (runs, cursor) := cuts.foldl (fun (runs, cursor) cut =>
    (runs ++ [(cursor, cut - cursor)], cut)) (([] : List (ℕ × ℕ)), startLba)
  runs ++ [(cursor, stop - cursor)]

/-- **Membership.** The range `contains` looks at is the only one that could hold the LBA. -/
theorem contains_eq_true_iff (lba : ℕ) :
    w.contains lba = true ↔ ∃ r ∈ w.ranges, r.1 ≤ lba ∧ lba < r.1 + r.2 := by
  rw [contains]
  constructor
  · intro h
    split at h
    · next start len hlast =>
      have hmem := mem_of_getLast? hlast
      have hle := mem_takeWhile_imp hmem
      exact ⟨_, (takeWhile_sublist _).subset hmem, of_decide_eq_true hle, of_decide_eq_true h⟩
    · cases h
  · rintro ⟨r, hr, hle, hlt⟩
    -- the ranges before `r` start below it, those after it above the LBA
    obtain ⟨before, after, hsplit⟩ := append_of_mem hr
    have hapart := w.apart
    rw [hsplit, pairwise_append, pairwise_cons] at hapart
    have hbefore : ∀ q ∈ before, decide (q.1 ≤ lba) = true := by
      intro q hq
      have := hapart.2.2 q hq r mem_cons_self
      exact decide_eq_true (by omega)
    have hafter : (after.takeWhile fun q => decide (q.1 ≤ lba)) = [] := by
      cases after with
      | nil => rfl
      | cons q rest =>
        have := hapart.2.1.1 q mem_cons_self
        exact takeWhile_cons_of_neg (by rw [decide_eq_true_eq]; omega)
    rw [hsplit, takeWhile_append_of_pos hbefore, takeWhile_cons_of_pos (by simpa using hle), hafter,
      getLast?_append]
    exact decide_eq_true hlt

/-- A range that crosses no boundary lies in the window with its first block. -/
theorem contains_of_crossesBoundary {w : JournalRanges} {startLba lbaCount x : ℕ}
    (h : w.crossesBoundary startLba lbaCount = false) (hle : startLba ≤ x)
    (hlt : x < startLba + lbaCount) : w.contains startLba = w.contains x := by
  rw [Bool.eq_iff_iff, contains_eq_true_iff, contains_eq_true_iff]
  have hout : ∀ r ∈ w.ranges, ¬ (startLba < r.1 ∧ r.1 < startLba + lbaCount ∨
      startLba < r.1 + r.2 ∧ r.1 + r.2 < startLba + lbaCount) := by
    intro r hr hcross
    exact absurd (decide_eq_true hcross) (any_eq_false.mp h r hr)
  constructor
  · rintro ⟨r, hr, h1, h2⟩
    have := hout r hr
    exact ⟨r, hr, by omega, by omega⟩
  · rintro ⟨r, hr, h1, h2⟩
    have := hout r hr
    exact ⟨r, hr, by omega, by omega⟩

/-! ### Splitting at the boundaries -/

/-- The runs follow one another from `lo` to `hi`. -/
def Follow (hi : ℕ) : ℕ → List (ℕ × ℕ) → Prop
  | lo, [] => lo = hi
  | lo, run :: runs => run.1 = lo ∧ 0 < run.2 ∧ Follow hi (lo + run.2) runs

theorem Follow.bounds {lo hi : ℕ} {runs : List (ℕ × ℕ)} (h : Follow hi lo runs) :
    lo ≤ hi ∧ ∀ run ∈ runs, lo ≤ run.1 ∧ run.1 + run.2 ≤ hi := by
  induction runs generalizing lo with
  | nil => exact ⟨Nat.le_of_eq h, nofun⟩
  | cons run runs ih =>
    obtain ⟨rfl, -, hrest⟩ := h
    obtain ⟨hle, hin⟩ := ih hrest
    refine ⟨by omega, forall_mem_cons.mpr ⟨⟨le_rfl, hle⟩, fun r hr => ?_⟩⟩
    have := hin r hr
    omega

theorem Follow.exists_mem {lo hi x : ℕ} {runs : List (ℕ × ℕ)} (h : Follow hi lo runs)
    (hlo : lo ≤ x) (hhi : x < hi) : ∃ run ∈ runs, run.1 ≤ x ∧ x < run.1 + run.2 := by
  induction runs generalizing lo with
  | nil => exact absurd (h ▸ hlo) (Nat.not_le.mpr hhi)
  | cons run runs ih =>
    obtain ⟨rfl, -, hrest⟩ := h
    rcases lt_or_ge x (run.1 + run.2) with hx | hx
    · exact ⟨run, mem_cons_self, hlo, hx⟩
    · obtain ⟨r, hr, hrx⟩ := ih hrest hx
      exact ⟨r, mem_cons_of_mem _ hr, hrx⟩

/-- The runs between `cursor`, the cuts and `stop`. -/
def runsFrom (stop : ℕ) : ℕ → List ℕ → List (ℕ × ℕ)
  | cursor, [] => [(cursor, stop - cursor)]
  | cursor, cut :: cuts => (cursor, cut - cursor) :: runsFrom stop cut cuts

variable {stop cursor : ℕ} {cuts : List ℕ}

/-- Between cuts in order, the runs follow one another and have no cut inside. -/
theorem follow_runsFrom (hcuts : (cursor :: cuts).Pairwise (· < ·))
    (hstop : ∀ b ∈ cursor :: cuts, b < stop) : Follow stop cursor (runsFrom stop cursor cuts) ∧
      ∀ run ∈ runsFrom stop cursor cuts, ∀ b ∈ cuts, ¬ (run.1 < b ∧ b < run.1 + run.2) := by
  induction cuts generalizing cursor with
  | nil =>
    have := hstop cursor mem_cons_self
    exact ⟨⟨rfl, Nat.sub_pos_of_lt this, Nat.add_sub_of_le this.le⟩, by simp⟩
  | cons cut cuts ih =>
    obtain ⟨hcursor, hcuts⟩ := pairwise_cons.mp hcuts
    obtain ⟨hfollow, hnone⟩ := ih hcuts (forall_mem_cons.mp hstop).2
    have hlt := hcursor cut mem_cons_self
    have hmid : cursor + (cut - cursor) = cut := Nat.add_sub_of_le hlt.le
    refine ⟨⟨rfl, Nat.sub_pos_of_lt hlt, by rwa [hmid]⟩, forall_mem_cons.mpr ⟨fun b hb => ?_, ?_⟩⟩
    · have hle : cut ≤ b := by
        rcases mem_cons.mp hb with rfl | hb
        · exact le_rfl
        · exact ((pairwise_cons.mp hcuts).1 b hb).le
      omega
    · intro run hrun
      have hle := (hfollow.bounds.2 run hrun).1
      exact forall_mem_cons.mpr ⟨fun hin => absurd hin.1 (Nat.not_lt.mpr hle), hnone run hrun⟩

theorem splitAtBoundaries_eq (startLba lbaCount : ℕ) :
    w.splitAtBoundaries startLba lbaCount = runsFrom (startLba + lbaCount) startLba
      ((w.ranges.flatMap fun r => [r.1, r.1 + r.2]).filter fun b =>
        decide (startLba < b ∧ b < startLba + lbaCount)) := by
  rw [splitAtBoundaries]
  generalize startLba + lbaCount = stop
  generalize (w.ranges.flatMap fun r => [r.1, r.1 + r.2]).filter _ = cuts
  suffices h : ∀ p : List (ℕ × ℕ) × ℕ, (fun q => q.1 ++ [(q.2, stop - q.2)])
      (cuts.foldl (fun (runs, cursor) cut => (runs ++ [(cursor, cut - cursor)], cut)) p) =
        p.1 ++ runsFrom stop p.2 cuts from h ([], startLba)
  induction cuts with
  | nil => exact fun _ => rfl
  | cons cut cuts ih =>
    intro p
    rw [foldl_cons, ih, append_assoc]
    rfl

/-- **The split.** The runs follow one another over the whole range, and none crosses a boundary. -/
theorem follow_splitAtBoundaries (startLba : ℕ) {lbaCount : ℕ} (hpos : 0 < lbaCount) :
    Follow (startLba + lbaCount) startLba (w.splitAtBoundaries startLba lbaCount) ∧
      ∀ run ∈ w.splitAtBoundaries startLba lbaCount, w.crossesBoundary run.1 run.2 = false := by
  have hsorted : (w.ranges.flatMap fun r => [r.1, r.1 + r.2]).Pairwise (· < ·) := by
    refine pairwise_flatMap.mpr ⟨fun r hr => ?_, w.apart.imp_of_mem fun {a b} ha hb hab => ?_⟩
    · have := w.pos r hr
      simpa using this
    · simp only [mem_cons, not_mem_nil, or_false]
      rintro x (rfl | rfl) y (rfl | rfl) <;> omega
  rw [splitAtBoundaries_eq]
  generalize hcuts : (w.ranges.flatMap fun r => [r.1, r.1 + r.2]).filter (fun b =>
    decide (startLba < b ∧ b < startLba + lbaCount)) = cuts
  have hin : ∀ b, b ∈ cuts ↔ (∃ r ∈ w.ranges, b = r.1 ∨ b = r.1 + r.2) ∧
      startLba < b ∧ b < startLba + lbaCount := by
    simp [← hcuts]
  obtain ⟨hfollow, hnone⟩ := follow_runsFrom
    (pairwise_cons.mpr ⟨fun b hb => ((hin b).mp hb).2.1, hcuts ▸ hsorted.filter _⟩)
    (forall_mem_cons.mpr ⟨Nat.lt_add_of_pos_right hpos, fun b hb => ((hin b).mp hb).2.2⟩)
  refine ⟨hfollow, fun run hrun => any_eq_false.mpr fun r hr hcross => ?_⟩
  have hrange := hfollow.bounds.2 run hrun
  rcases of_decide_eq_true hcross with h | h
  · exact hnone run hrun _ ((hin _).mpr ⟨⟨r, hr, .inl rfl⟩, by omega⟩) h
  · exact hnone run hrun _ ((hin _).mpr ⟨⟨r, hr, .inr rfl⟩, by omega⟩) h

/-- A boundary has the window on one side of it only. -/
theorem contains_boundary {r : ℕ × ℕ} (hr : r ∈ w.ranges) {b : ℕ} (hpos : 0 < b)
    (hb : b = r.1 ∨ b = r.1 + r.2) : w.contains (b - 1) = !w.contains b := by
  have hother : ∀ q ∈ w.ranges, q = r ∨ q.1 + q.2 < r.1 ∨ r.1 + r.2 < q.1 := by
    obtain ⟨before, after, hsplit⟩ := append_of_mem hr
    have hapart := w.apart
    rw [hsplit, pairwise_append, pairwise_cons] at hapart
    intro q hq
    rw [hsplit, mem_append, mem_cons] at hq
    rcases hq with hq | hq | hq
    · exact .inr (.inl (hapart.2.2 q hq r mem_cons_self))
    · exact .inl hq
    · exact .inr (.inr (hapart.2.1.1 q hq))
  have hlen := w.pos r hr
  have hout : ∀ x, (x < r.1 ∨ r.1 + r.2 ≤ x) → r.1 ≤ x + 1 → x ≤ r.1 + r.2 →
      w.contains x = false := by
    intro x hx h1 h2
    refine Bool.eq_false_iff.mpr fun hc => ?_
    obtain ⟨q, hq, hin⟩ := (w.contains_eq_true_iff x).mp hc
    rcases hother q hq with rfl | h | h <;> omega
  have hin : ∀ x, r.1 ≤ x → x < r.1 + r.2 → w.contains x = true := fun x h1 h2 =>
    (w.contains_eq_true_iff x).mpr ⟨r, hr, h1, h2⟩
  rcases hb with rfl | rfl
  · rw [hin r.1 (by omega) (by omega), hout _ (by omega) (by omega) (by omega)]
    rfl
  · rw [hin _ (by omega) (by omega), hout (r.1 + r.2) (by omega) (by omega) (by omega)]
    rfl

/-- Each run but the first starts at a cut. -/
theorem fst_mem_of_mem_runsFrom {run : ℕ × ℕ} (hrun : run ∈ runsFrom stop cursor cuts) :
    run.1 ∈ cursor :: cuts := by
  induction cuts generalizing cursor with
  | nil => exact mem_singleton.mp hrun ▸ mem_cons_self
  | cons cut cuts ih =>
    rcases mem_cons.mp hrun with rfl | hrun
    · exact mem_cons_self
    · exact mem_cons_of_mem _ (ih hrun)

theorem length_runsFrom : (runsFrom stop cursor cuts).length = cuts.length + 1 := by
  induction cuts generalizing cursor with
  | nil => rfl
  | cons cut cuts ih => rw [runsFrom, length_cons, ih, length_cons]

/-- The window has the LBAs of the ranges given. -/
theorem contains_new_iff (ranges : List (ℕ × ℕ)) (x : ℕ) :
    (new ranges).contains x = true ↔ ∃ r ∈ ranges, r.1 ≤ x ∧ x < r.1 + r.2 := by
  have hcovers := (spans_coalesce ranges).2 x
  simp only [Spans.Covers, mem_map, mem_reverse, exists_exists_and_eq_and] at hcovers
  exact ((new ranges).contains_eq_true_iff x).trans hcovers

/-- **Writes are split exactly.** However the ranges given overlap or touch, the runs of a write
follow one another over the whole of it. None crosses a boundary, so the commit of a run is in one
tier and is not split again; and the window is left or entered at each start of a run but the
first. A write crosses a boundary exactly when there is more than one run. The window has the LBAs
of the ranges given. -/
theorem splitAtBoundaries_exact (ranges : List (ℕ × ℕ)) (lba : ℕ) {n : ℕ} (hn : 0 < n) :
    Follow (lba + n) lba ((new ranges).splitAtBoundaries lba n) ∧
      (∀ run ∈ (new ranges).splitAtBoundaries lba n,
        (new ranges).crossesBoundary run.1 run.2 = false ∧ ∀ x, run.1 ≤ x → x < run.1 + run.2 →
          (new ranges).contains x = (new ranges).contains run.1) ∧
      (∀ run ∈ ((new ranges).splitAtBoundaries lba n).tail,
        (new ranges).contains (run.1 - 1) = !(new ranges).contains run.1) ∧
      ((new ranges).crossesBoundary lba n = true ↔
        1 < ((new ranges).splitAtBoundaries lba n).length) ∧
      ∀ x, (new ranges).contains x = true ↔ ∃ r ∈ ranges, r.1 ≤ x ∧ x < r.1 + r.2 := by
  have hunion := contains_new_iff ranges
  generalize new ranges = w at hunion ⊢
  obtain ⟨hfollow, hpure⟩ := w.follow_splitAtBoundaries lba hn
  refine ⟨hfollow, fun run hrun => ⟨hpure run hrun, fun x h1 h2 => ?_⟩, fun run hrun => ?_, ?_, hunion⟩
  · exact (contains_of_crossesBoundary (hpure run hrun) h1 h2).symm
  · rw [splitAtBoundaries_eq] at hrun
    cases hcuts : (w.ranges.flatMap fun r => [r.1, r.1 + r.2]).filter (fun b =>
        decide (lba < b ∧ b < lba + n)) with
    | nil =>
      rw [hcuts] at hrun
      cases hrun
    | cons cut cuts =>
      rw [hcuts] at hrun
      have hmem := fst_mem_of_mem_runsFrom hrun
      rw [← hcuts, mem_filter, mem_flatMap] at hmem
      obtain ⟨⟨r, hr, hb⟩, hlba⟩ := hmem
      exact w.contains_boundary hr (Nat.zero_lt_of_lt (of_decide_eq_true hlba).1) (by simpa using hb)
  · rw [splitAtBoundaries_eq, length_runsFrom]
    simp [crossesBoundary, and_or_left, or_and_right, exists_or]

theorem splitAtBoundaries_exact_overlapping :
    0 < 10 ∧ Follow 12 2 ((new [(6, 3), (4, 4), (20, 0)]).splitAtBoundaries 2 10) :=
  ⟨by decide, (splitAtBoundaries_exact [(6, 3), (4, 4), (20, 0)] 2 (n := 10) (by decide)).1⟩

theorem contains_of_isEmpty {w : JournalRanges} (h : w.isEmpty = true) (lba : ℕ) :
    w.contains lba = false := by
  rw [contains, List.isEmpty_iff.mp h]
  rfl

end JournalRanges

end Elide
