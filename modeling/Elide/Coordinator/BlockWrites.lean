import Elide.Segment
import Mathlib.Data.Finset.Union
import Mathlib.Data.Finset.Max

/-!
# What segments say about blocks

The guest's writes are numbered in the order in which they are acknowledged. A segment carries, for
some blocks, the number of the write whose content it has. A set of segments resolves a block to the
latest write any of them carries for it.
-/

namespace Elide

open Finset

/-- What a segment says about one block: the number of the write whose content it has. -/
structure BlockWrite where
  lba : ℕ
  write : ℕ
  deriving DecidableEq, Repr

/-- No write of the view to the same block is later. -/
def BlockWrite.standsIn (view : List BlockWrite) (c : BlockWrite) : Bool :=
  view.all fun c' => decide (c'.lba = c.lba → c'.write ≤ c.write)

variable {c : BlockWrite}

theorem BlockWrite.standsIn_iff {view : List BlockWrite} :
    c.standsIn view = true ↔ ∀ c' ∈ view, c'.lba = c.lba → c'.write ≤ c.write := by
  simp only [BlockWrite.standsIn, List.all_eq_true, decide_eq_true_eq]

/-- The latest write of a view to a block stands in it. -/
theorem BlockWrite.exists_standsIn {view : List BlockWrite} (hc : c ∈ view) :
    ∃ c' ∈ view, c'.lba = c.lba ∧ c.write ≤ c'.write ∧ c'.standsIn view = true := by
  -- the latest of the writes to the block
  let same : Finset BlockWrite := view.toFinset.filter fun c' => c'.lba = c.lba
  have hmem : ∀ c', c' ∈ same ↔ c' ∈ view ∧ c'.lba = c.lba := by
    simp [same]
  obtain ⟨m, hm, hmax⟩ := same.exists_max_image BlockWrite.write ⟨c, (hmem c).mpr ⟨hc, rfl⟩⟩
  obtain ⟨hview, hlba⟩ := (hmem m).mp hm
  refine ⟨m, hview, hlba, hmax c ((hmem c).mpr ⟨hc, rfl⟩), standsIn_iff.mpr fun c' hc' hlba' => ?_⟩
  exact hmax c' ((hmem c').mpr ⟨hc', hlba'.trans hlba⟩)

/-- Everything `u` carries, one of the segments carries too or overrides by a later write. -/
def Overridden (carries : Ulid → List BlockWrite) (segments : Ulid → Prop) (u : Ulid) : Prop :=
  ∀ c ∈ carries u, ∃ v, segments v ∧ ∃ c' ∈ carries v, c'.lba = c.lba ∧ c.write ≤ c'.write

variable {carries : Ulid → List BlockWrite} {u : Ulid}

theorem overridden_self {segments : Ulid → Prop} (hu : segments u) :
    Overridden carries segments u := fun c hc => ⟨u, hu, c, hc, rfl, le_rfl⟩

theorem Overridden.congr {segments segments' : Ulid → Prop} (h : Overridden carries segments u)
    (hseg : ∀ v, segments v → segments' v) : Overridden carries segments' u := fun c hc =>
  let ⟨v, hv, hc'⟩ := h c hc
  ⟨v, hseg v hv, hc'⟩

theorem Overridden.trans {segments segments' : Ulid → Prop} (h : Overridden carries segments u)
    (h' : ∀ v, segments v → Overridden carries segments' v) : Overridden carries segments' u := by
  intro c hc
  obtain ⟨v, hv, c', hc', hlba, hle⟩ := h c hc
  obtain ⟨w, hw, c'', hc'', hlba', hle'⟩ := h' v hv c' hc'
  exact ⟨w, hw, c'', hc'', hlba'.trans hlba, hle.trans hle'⟩

/-- The set of segments resolves block `lba` to write `n`. -/
def Resolves (carries : Ulid → List BlockWrite) (segments : Finset Ulid) (lba n : ℕ) : Prop :=
  (∃ u ∈ segments, ⟨lba, n⟩ ∈ carries u) ∧
    ∀ u ∈ segments, ∀ c ∈ carries u, c.lba = lba → c.write ≤ n

/-- What the first set resolves a block to, the second resolves it to or to a later write. -/
def NoRegress (carries : Ulid → List BlockWrite) (old new : Finset Ulid) : Prop :=
  ∀ lba n, Resolves carries old lba n → ∃ n', n ≤ n' ∧ Resolves carries new lba n'

/-- A block that some segment carries is resolved, to a write at least as late. -/
theorem exists_resolves {segments : Finset Ulid} (hu : u ∈ segments) (hc : c ∈ carries u) :
    ∃ n, c.write ≤ n ∧ Resolves carries segments c.lba n := by
  -- the writes the segments carry for the block
  let writes : Finset ℕ := segments.biUnion fun v =>
    (((carries v).filter fun c' => decide (c'.lba = c.lba)).map BlockWrite.write).toFinset
  have hmem : ∀ n, n ∈ writes ↔ ∃ v ∈ segments, ⟨c.lba, n⟩ ∈ carries v := by
    intro n
    simp only [writes, mem_biUnion, List.mem_toFinset, List.mem_map, List.mem_filter,
      decide_eq_true_eq]
    constructor
    · rintro ⟨v, hv, c', ⟨hc', hlba⟩, rfl⟩
      exact ⟨v, hv, hlba ▸ hc'⟩
    · rintro ⟨v, hv, hc'⟩
      exact ⟨v, hv, ⟨c.lba, n⟩, ⟨hc', rfl⟩, rfl⟩
  have hw : c.write ∈ writes := (hmem _).mpr ⟨u, hu, hc⟩
  obtain ⟨n, hn⟩ := max_of_mem hw
  refine ⟨n, le_max_of_eq hw hn, (hmem n).mp (mem_of_max hn), ?_⟩
  intro v hv c' hc' hlba
  exact le_max_of_eq ((hmem _).mpr ⟨v, hv, hlba ▸ hc'⟩) hn

/-- No block goes back exactly when every segment of the old set is overridden by the new one. -/
theorem noRegress_iff {old new : Finset Ulid} :
    NoRegress carries old new ↔ ∀ u ∈ old, Overridden carries (· ∈ new) u := by
  constructor
  · intro h u hu c hc
    obtain ⟨n, hle, hres⟩ := exists_resolves hu hc
    obtain ⟨n', hle', ⟨v, hv, hc'⟩, -⟩ := h c.lba n hres
    exact ⟨v, hv, ⟨c.lba, n'⟩, hc', rfl, hle.trans hle'⟩
  · rintro h lba n ⟨⟨u, hu, hc⟩, -⟩
    obtain ⟨v, hv, c', hc', hlba, hle⟩ := h u hu ⟨lba, n⟩ hc
    obtain ⟨n', hle', hres⟩ := exists_resolves hv hc'
    have hlba' : c'.lba = lba := hlba
    exact ⟨n', hle.trans hle', hlba' ▸ hres⟩

theorem NoRegress.trans {s s' s'' : Finset Ulid} (h : NoRegress carries s s')
    (h' : NoRegress carries s' s'') : NoRegress carries s s'' := by
  rw [noRegress_iff] at h h' ⊢
  exact fun u hu => (h u hu).trans h'

end Elide
