import Elide.Rewrite.Materialise

/-!
# What an output entry takes over from its input entry

An apply of a plan does not decode its output entries: it looks at an entry's kind and hash and at
the map they go to. This module has those. What is passed on whole keeps its hash, bodies stay bodies
and recipes stay recipes; what is cut becomes bodies; no output entry is of the journal tier.
-/

namespace Elide

open Rewrite MaterialiseCtx PendingEntry

namespace MaterialiseCtx

/-- The output entry `p` of the record `o`, emitted for `entry`. -/
structure Derived (entry : SegmentEntry) (o : PlanOutput) (p : PendingEntry) : Prop where
  journal : p.entry.journal = false
  /-- Only what claimed before claims, and not what was asked for as a body alone. -/
  claims : p.entry.kind.isCanonicalOnly = false →
    entry.kind.isCanonicalOnly = false ∧ ∀ input entryIdx, o ≠ .canonical input entryIdx
  hash : o.CarriesWhole → p.entry.kind ≠ .zero → p.entry.hash = entry.hash
  inline : p.entry.kind.isInline = true →
    ∃ data, p.entry.inline = some data ∧ p.entry.storedLength = data.length
  zero : p.entry.kind = .zero → p.entry.hash = ZERO_HASH
  body : o.CarriesWhole → entry.kind.hasBodyBytes = true →
    p.entry.hash = entry.hash ∧ p.entry.kind.hasBodyBytes = true
  delta : o.CarriesWhole → entry.kind.isDelta = true →
    p.entry.hash = entry.hash ∧ p.entry.kind.isDelta = true
  /-- Cutting an entry leaves bodies. -/
  recipe : p.entry.kind.isDelta = true → o.CarriesWhole

variable {entry : SegmentEntry} {o : PlanOutput} {startLba lbaLength : ℕ}

/-! ## Fresh entries -/

theorem derived_newData {hash : Hash} {codec : Codec} {data : Bytes}
    (hcarries : o.CarriesWhole → hash = entry.hash ∧ entry.kind.isDelta = false) :
    (entry.kind.isCanonicalOnly = false → (∀ input entryIdx, o ≠ .canonical input entryIdx) →
        Derived entry o (.newData hash startLba lbaLength codec data)) ∧
      Derived entry o (newData hash startLba lbaLength codec data).intoCanonical := by
  have hdelta : o.CarriesWhole → entry.kind.isDelta = true → False := by
    intro h hd
    rw [(hcarries h).2] at hd
    cases hd
  unfold newData
  split_ifs
  all_goals
    refine ⟨fun hclaims hcanon => ⟨rfl, fun _ => ⟨hclaims, hcanon⟩, fun h _ => (hcarries h).1,
      fun h => ?_, fun h => ?_, fun h _ => ⟨(hcarries h).1, rfl⟩, fun h hd => (hdelta h hd).elim,
      fun h => ?_⟩, ⟨rfl, fun h => ?_, fun h _ => (hcarries h).1, fun h => ?_, fun h => ?_,
      fun h _ => ⟨(hcarries h).1, rfl⟩, fun h hd => (hdelta h hd).elim, fun h => ?_⟩⟩
    all_goals first | exact ⟨data, rfl, rfl⟩ | cases h

theorem derived_newDelta {opts : List DeltaOption} (hdelta : entry.kind.isDelta = true)
    (hwhole : o.CarriesWhole) :
    (entry.kind.isCanonicalOnly = false → (∀ input entryIdx, o ≠ .canonical input entryIdx) →
        Derived entry o (.fromEntry (.newDelta entry.hash startLba lbaLength opts))) ∧
      Derived entry o
        (fromEntry (.newDelta entry.hash startLba lbaLength opts)).intoCanonical := by
  have hbody : entry.kind.hasBodyBytes = true → False := by
    simp [EntryKind.hasBodyBytes_of_isDelta hdelta]
  refine ⟨fun hclaims hcanon => ⟨rfl, fun _ => ⟨hclaims, hcanon⟩, fun _ _ => rfl, fun h => ?_,
    fun h => ?_, fun _ h => (hbody h).elim, fun _ _ => ⟨rfl, rfl⟩, fun _ => hwhole⟩,
    ⟨rfl, fun h => ?_, fun _ _ => rfl, fun h => ?_, fun h => ?_, fun _ h => (hbody h).elim,
      fun _ _ => ⟨rfl, rfl⟩, fun _ => hwhole⟩⟩
  all_goals cases h

theorem derived_newZero (hkind : entry.kind = .zero)
    (hcanon : ∀ input entryIdx, o ≠ .canonical input entryIdx) :
    Derived entry o (.fromEntry (.newZero startLba lbaLength)) where
  journal := rfl
  claims _ := ⟨by rw [hkind]; rfl, hcanon⟩
  hash _ h := absurd rfl h
  inline h := by cases h
  zero _ := rfl
  body _ hb := by rw [hkind] at hb; cases hb
  delta _ hd := by rw [hkind] at hd; cases hd
  recipe h := by cases h

theorem derived_newDedupRef (hkind : entry.kind = .dedupRef)
    (hcanon : ∀ input entryIdx, o ≠ .canonical input entryIdx) :
    Derived entry o (.fromEntry (.newDedupRef entry.hash startLba lbaLength)) where
  journal := rfl
  claims _ := ⟨by rw [hkind]; rfl, hcanon⟩
  hash _ _ := rfl
  inline h := by cases h
  zero h := by cases h
  body _ hb := by rw [hkind] at hb; cases hb
  delta _ hd := by rw [hkind] at hd; cases hd
  recipe h := by cases h

/-- The state after one record: at most one entry more, derived from the record's input entry. -/
def Appends (entry : SegmentEntry) (o : PlanOutput) (st st' : State) : Prop :=
  (∃ p, st'.entries = st.entries ++ [p] ∧ Derived entry o p) ∨ st'.entries = st.entries

end MaterialiseCtx

end Elide
