import Elide.Coordinator.SegmentHead
import Elide.Lib.Run

/-!
# The reap pass over HEAD

A reap pass picks the superseded inputs whose retention window has passed, leaves out those the
local committed tier still has, and issues a DELETE for each of the rest. Then it records all of them
as reaped, whatever their DELETEs returned. An input whose DELETE failed is therefore tombstoned and
loses its edge like the others, and since a pass looks at edges only, its object is not asked for
again.

## Main results

* `reap_retries_iff`: a sequence of passes retries what failed exactly when no DELETE fails.
* `reap_forgets_failed_delete`: one failed DELETE, and no later pass issues it again.
-/

namespace Elide

open List SegmentHead

/-- What a DELETE of a segment object returned. -/
inductive DeleteOutcome where
  | ok
  | notFound
  | failed
  deriving DecidableEq, Repr

/-- What `names/<name>` says about the fork. -/
inductive NameBinding where
  | bound
  | displaced (volUlid : Ulid)
  | missing
  | unreadable
  deriving DecidableEq, Repr

/-- What a pass reads of the world. -/
structure ReapEnv where
  now : ℕ
  /-- The retention window, if it is in the range of a duration. -/
  retention : Option ℕ
  /-- The segments of the local committed tier, if they could be listed. -/
  localTier : Option (Finset Ulid)
  /-- The binding of the volume's name, if it has one. -/
  binding : Option NameBinding
  /-- The outcome of each DELETE. -/
  delete : Ulid → DeleteOutcome

namespace SegmentHead

/-- The inputs whose window has passed. -/
def expired (head : SegmentHead) (now retention : ℕ) : List Ulid :=
  (head.superseded.entries.filter fun e => decide (e.2.since + retention ≤ now)).map Prod.fst

/-- The inputs a pass issues a DELETE for. -/
def reapable (head : SegmentHead) (env : ReapEnv) : List Ulid :=
  match env.retention, env.localTier, env.binding with
  | some retention, some localTier, none | some retention, some localTier, some .bound =>
    (head.expired env.now retention).filter fun u => decide (u ∉ localTier)
  | _, _, _ => []

/-- The reap step of a publish, and whether it changed HEAD. -/
def reapExpired (head : SegmentHead) (env : ReapEnv) : SegmentHead × Bool :=
  match env.retention with
  | none => (head, false)
  | some retention =>
    let expired := head.expired env.now retention
    if expired.isEmpty then (head, false)
    else
      match env.localTier with
      | none => (head, false)
      | some localTier =>
        let toReap := expired.filter fun u => decide (u ∉ localTier)
        if toReap.isEmpty then (head, false)
        else
          match env.binding with
          | none | some .bound =>
            -- the DELETEs run here; their outcomes are logged
            (head.applyReap toReap, true)
          | some (.displaced _) | some .missing | some .unreadable => (head, false)

variable {head : SegmentHead} {env : ReapEnv}

theorem isSome_of_mem_reapable {u : Ulid}
    (hu : u ∈ head.reapable env) : (head.superseded.get? u).isSome = true := by
  have hexpired : ∀ retention, u ∈ head.expired env.now retention →
      (head.superseded.get? u).isSome = true := by
    intro retention hmem
    obtain ⟨⟨v, edge⟩, he, rfl⟩ := mem_map.mp hmem
    rw [OrdMap.mem_entries_iff.mp (mem_filter.mp he).1]
    rfl
  rw [reapable] at hu
  split at hu
  · exact hexpired _ (mem_filter.mp hu).1
  · exact hexpired _ (mem_filter.mp hu).1
  · cases hu

/-- Nothing of the local committed tier is deleted, and nothing at all if it cannot be listed. -/
theorem notMem_localTier_of_mem_reapable {u : Ulid}
    (hu : u ∈ head.reapable env) : ∃ localTier, env.localTier = some localTier ∧ u ∉ localTier := by
  rw [reapable] at hu
  split at hu
  · next localTier _ htier _ =>
    exact ⟨localTier, htier, of_decide_eq_true (mem_filter.mp hu).2⟩
  · next localTier _ htier _ =>
    exact ⟨localTier, htier, of_decide_eq_true (mem_filter.mp hu).2⟩
  · cases hu

/-- **A pass records every DELETE it issued**, whatever came back. -/
theorem fst_reapExpired (head : SegmentHead) (env : ReapEnv) :
    (head.reapExpired env).1 = head.applyReap (head.reapable env) := by
  -- a pass that stops before the DELETEs has none to record
  rcases hr : env.retention with _ | retention
  · simp only [reapExpired, reapable, hr]
    rfl
  rcases ht : env.localTier with _ | localTier
  · simp only [reapExpired, reapable, hr, ht, ite_self]
    rfl
  rcases hb : env.binding with _ | _ | vol | _ | _
  case none | some.bound =>
    simp only [reapExpired, reapable, hr, ht, hb]
    split_ifs with hexpired hreap
    · rw [List.isEmpty_iff.mp hexpired]
      rfl
    · rw [List.isEmpty_iff.mp hreap]
      rfl
    · rfl
  all_goals
    simp only [reapExpired, reapable, hr, ht, hb, ite_self]
    rfl

/-- A pass that reports no change made none. -/
theorem reapExpired_quiet
    (h : (head.reapExpired env).2 = false) : (head.reapExpired env).1 = head := by
  rcases hr : env.retention with _ | retention
  · simp [reapExpired, hr]
  rcases ht : env.localTier with _ | localTier
  · simp [reapExpired, hr, ht]
  rcases hb : env.binding with _ | _ | vol | _ | _
  case none | some.bound =>
    simp only [reapExpired, hr, ht, hb] at h ⊢
    split_ifs at h ⊢
    all_goals rfl
  all_goals simp [reapExpired, hr, ht, hb]

end SegmentHead

/-- What a pass owes the inputs it issued DELETEs for. -/
structure RetriesFailed (manifestSegments : Finset Ulid) (env : ReapEnv)
    (before after : SegmentHead) : Prop where
  failed : ∀ u ∈ before.reapable env, env.delete u = .failed →
    after.superseded.get? u = before.superseded.get? u ∧ u ∉ liveSet manifestSegments after
  gone : ∀ u ∈ before.reapable env, env.delete u ≠ .failed →
    u ∈ after.tombstoned ∧ u ∉ after.added ∧ after.superseded.get? u = none

/-- HEAD after a pass. -/
def reapStep (head : SegmentHead) (env : ReapEnv) : SegmentHead := (head.reapExpired env).1

/-- One of the passes issued a DELETE for `u` that found the object or found it gone. -/
def DeletedIn (head : SegmentHead) (envs : List ReapEnv) (u : Ulid) : Prop :=
  ∃ pre env post, envs = pre ++ env :: post ∧ u ∈ (pre.foldl reapStep head).reapable env ∧
    env.delete u ≠ .failed

/-- No DELETE of the pass fails. -/
def NoneFails (head : SegmentHead) (env : ReapEnv) : Prop :=
  ∀ u ∈ head.reapable env, env.delete u ≠ .failed

/-- A pass none of whose DELETEs fails does what it owes, and only such a pass does. -/
theorem retriesFailed_reapStep_iff (manifestSegments : Finset Ulid) (head : SegmentHead)
    (env : ReapEnv) :
    RetriesFailed manifestSegments env head (reapStep head env) ↔ NoneFails head env := by
  rw [reapStep, fst_reapExpired]
  constructor
  · -- the edge of every input with a DELETE is dropped, so a failed one would have to be there still
    intro h u hu hfailed
    have hedge := (h.failed u hu hfailed).1
    rw [superseded_applyReap, if_pos hu] at hedge
    have hsome := isSome_of_mem_reapable hu
    rw [← hedge] at hsome
    cases hsome
  · intro h
    refine ⟨fun u hu hfailed => absurd hfailed (h u hu), fun u hu _ => ⟨?_, ?_, ?_⟩⟩
    · exact (mem_tombstoned_applyReap head _).mpr (.inr hu)
    · exact fun hadded => ((mem_added_applyReap head _).mp hadded).2 hu
    · rw [superseded_applyReap, if_pos hu]

/-- An edge that is gone after passes none of whose DELETEs fails was deleted in one of them. -/
theorem deletedIn_of_noneFails {head : SegmentHead} {envs : List ReapEnv} {u : Ulid}
    (h : Run.Each reapStep NoneFails head envs)
    (hbefore : (head.superseded.get? u).isSome = true)
    (hafter : (envs.foldl reapStep head).superseded.get? u = none) : DeletedIn head envs u := by
  induction envs generalizing head with
  | nil =>
    rw [foldl_nil] at hafter
    rw [hafter] at hbefore
    cases hbefore
  | cons env envs ih =>
    by_cases hu : u ∈ head.reapable env
    · exact ⟨[], env, envs, rfl, hu, h.1 u hu⟩
    · have hkept : (reapStep head env).superseded.get? u = head.superseded.get? u := by
        rw [reapStep, fst_reapExpired, superseded_applyReap, if_neg hu]
      obtain ⟨pre, env', post, rfl, hmem, hdel⟩ := ih h.2 (hkept ▸ hbefore) hafter
      exact ⟨env :: pre, env', post, rfl, hmem, hdel⟩

/-- **A failed DELETE is retried exactly when there is none.** Over any sequence of passes, each pass
keeps the edges of the inputs whose DELETE failed and drops those of the others, and an edge goes only
after a DELETE of its input went through, if and only if no DELETE that is issued fails. -/
theorem reap_retries_iff (manifestSegments : Finset Ulid) (head : SegmentHead)
    (envs : List ReapEnv) :
    (Run.Each reapStep (fun head env =>
        RetriesFailed manifestSegments env head (reapStep head env)) head envs ∧
      ∀ u, (head.superseded.get? u).isSome = true →
        (envs.foldl reapStep head).superseded.get? u = none → DeletedIn head envs u) ↔
      Run.Each reapStep NoneFails head envs := by
  constructor
  · rintro ⟨h, -⟩
    exact h.mono fun head env => (retriesFailed_reapStep_iff manifestSegments head env).mp
  · intro h
    refine ⟨h.mono fun head env => (retriesFailed_reapStep_iff manifestSegments head env).mpr, ?_⟩
    exact fun u hbefore hafter => deletedIn_of_noneFails h hbefore hafter

namespace FailedDelete

/-- Input 5, superseded by 9 at time 0. -/
def head : SegmentHead := ⟨none, {5, 9}, OrdMap.empty.insert 5 ⟨9, 0⟩, ∅⟩

/-- A pass past the window. -/
def env (outcome : DeleteOutcome) : ReapEnv := ⟨20, some 10, some {9}, none, fun _ => outcome⟩

end FailedDelete

open FailedDelete in
/-- The DELETE of input 5 fails. The pass tombstones it and drops its edge, and the next pass issues
no DELETE. -/
theorem reap_forgets_failed_delete : head.reapable (env .failed) = [5] ∧
      (reapStep head (env .failed)).superseded.get? 5 = none ∧
      5 ∈ (reapStep head (env .failed)).tombstoned ∧
      (reapStep head (env .failed)).reapable (env .ok) = [] ∧
      ¬ RetriesFailed ∅ (env .failed) head (reapStep head (env .failed)) ∧
      ¬ DeletedIn head [env .failed] 5 := by
  refine ⟨by decide, by decide, by decide, by decide, fun h => ?_, ?_⟩
  · have hedge := (h.failed 5 (by decide) rfl).1
    exact absurd hedge (by decide)
  · rintro ⟨pre, e, post, heq, -, hdel⟩
    have he : e ∈ [env .failed] := by
      rw [heq]
      exact mem_append_right _ mem_cons_self
    rw [mem_singleton.mp he] at hdel
    exact hdel rfl

end Elide
