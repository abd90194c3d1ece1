import Elide.Coordinator.Site

/-!
# What a publish does to its site

A publish is gated, merges what has been confirmed since into a seed (the cached HEAD, the stored
one, or one regenerated from the fork's files), deletes what it reaps, and PUTs the result if it has
changed. A failed listing or PUT drops the cache.

## Main results

* `publish_cases`: the three ways a publish that has a seed ends: held, with nothing to PUT, or with
  a PUT.
-/

namespace Elide

open Orchestrator List Bool

namespace Site

variable {s : Site}

/-- What a publish starts from. -/
abbrev seed (s : Site) (env : PublishEnv) : Option Seed := s.orch.seed s.forkFiles s.stored env

/-- What a publish arrives at, and whether that is to be PUT. -/
abbrev merge (s : Site) (env : PublishEnv) (seed : Seed) : Merge :=
  s.orch.publishMerge s.forkFiles env seed

/-- A publish gets past its gates. -/
def attempts (s : Site) (env : PublishEnv) : Bool :=
  (env.reapDue || s.orch.hasScratch) && env.cutDue && env.drainOk

variable {env : PublishEnv}

theorem publishHeadDelta_of_not_attempts (h : s.attempts env = false) :
    ∃ landed, s.orch.publishHeadDelta s.forkFiles s.stored env = ⟨s.orch, [], none, landed⟩ := by
  rw [attempts, and_eq_false_iff, and_eq_false_iff] at h
  rw [publishHeadDelta]
  by_cases h1 : (!env.reapDue && !s.orch.hasScratch) = true
  · exact ⟨_, if_pos h1⟩
  · rw [if_neg h1]
    by_cases h2 : (!env.cutDue) = true
    · exact ⟨_, if_pos h2⟩
    · rw [if_neg h2]
      rcases h with (h | h) | h
      · rw [or_eq_false_iff] at h
        simp [h.1, h.2] at h1
      · simp [h] at h2
      · exact ⟨_, if_pos (by rw [h]; rfl)⟩

theorem publishHeadDelta_of_attempts (h : s.attempts env = true) :
    s.orch.publishHeadDelta s.forkFiles s.stored env =
      match s.seed env with
      | none => ⟨{ s.orch with headCache := none }, [], none, false⟩
      | some seed => s.orch.publishFrom s.forkFiles env seed := by
  rw [attempts, and_eq_true, and_eq_true] at h
  obtain ⟨⟨h1, h2⟩, h3⟩ := h
  have h1' : ¬ (!env.reapDue && !s.orch.hasScratch) = true := by
    intro hc
    rw [← Bool.not_or, h1] at hc
    cases hc
  rw [publishHeadDelta, if_neg h1', h2, h3]
  rfl

variable {u : Ulid}

theorem mem_afterDeletes {deletes : List Ulid} {outcome : Ulid → DeleteOutcome} :
    u ∈ s.afterDeletes deletes outcome ↔ u ∈ s.objects ∧ ¬ (u ∈ deletes ∧ outcome u ≠ .failed) := by
  rw [afterDeletes, Finset.mem_filter]

theorem mem_committedTierUlids (h : (s.index.get? u).isSome = true) :
    u ∈ s.forkFiles.committedTierUlids := by
  obtain ⟨inputs, hin⟩ := Option.isSome_iff_exists.mp h
  rw [ForkFiles.committedTierUlids, mem_toFinset, mem_append]
  exact .inl (mem_map.mpr ⟨(u, inputs), OrdMap.mem_entries_iff.mpr hin, rfl⟩)

variable {seed : Seed}

/-- A publish deletes no indexed segment. -/
theorem not_indexed_of_mem_publishReaps (hu : u ∈ s.orch.publishReaps s.forkFiles env seed) :
    ¬ (s.index.get? u).isSome = true := by
  intro hindexed
  rw [publishReaps] at hu
  split_ifs at hu
  · obtain ⟨tier, htier, hnot⟩ := SegmentHead.notMem_localTier_of_mem_reapable hu
    simp only [PublishEnv.reap] at htier
    split_ifs at htier
    rw [← Option.some.inj htier] at hnot
    exact hnot (mem_committedTierUlids hindexed)
  · cases hu

theorem isSome_index_of_mem_confirmed {anchor : Option Ulid}
    (h : u ∈ (s.forkFiles.confirmedSegments anchor).map Prod.fst) :
    (s.index.get? u).isSome = true := by
  obtain ⟨⟨v, inputs⟩, he, rfl⟩ := mem_map.mp h
  have hmem : (v, inputs) ∈ s.index.entries := (mem_filter.mp he).1
  rw [OrdMap.mem_entries_iff] at hmem
  rw [hmem]
  rfl

/-- A regenerated body over an index with nothing beyond the anchor is empty. -/
theorem head_regenerated_of_nil {now : ℕ} (h : s.forkFiles.confirmedSegments s.latestSnapshot = [])
    (eligible : Bool) :
    (s.forkFiles.regenerated now).head eligible = .empty s.latestSnapshot := by
  have hedges : s.forkFiles.confirmedEdges s.latestSnapshot = [] := by
    rw [ForkFiles.confirmedEdges, h, flatMap_nil]
  have hreg : s.forkFiles.regenerate now = .empty s.latestSnapshot := by
    have hsnap : s.forkFiles.latestSnapshot = s.latestSnapshot := rfl
    simp [ForkFiles.regenerate, hsnap, h, hedges]
  cases eligible with
  | true => exact hreg
  | false => rw [ForkFiles.regenerated, hreg]; rfl

theorem eq_regenerate_of_seed {head : SegmentHead}
    (hseed : s.seed env = some (.regenerated head)) :
    head = s.forkFiles.regenerate env.now := by
  cases hcache : s.orch.headCache with
  | some cached => simp [seed, Orchestrator.seed, hcache] at hseed
  | none =>
    simp only [seed, Orchestrator.seed, hcache] at hseed
    split_ifs at hseed
    all_goals cases hseed
    all_goals rfl

/-- A trusted body is the cached one, the stored one, or the empty one of a volume without HEAD. -/
theorem trusted_cases {head : SegmentHead}
    (hseed : s.seed env = some (.trusted head)) :
    s.orch.headCache = some head ∨ s.stored = .body head ∨
      head = .empty none ∧ ∀ body, s.stored ≠ .body body := by
  cases hcache : s.orch.headCache with
  | some cached =>
    simp only [seed, Orchestrator.seed, hcache, Option.some.injEq, Seed.trusted.injEq] at hseed
    exact .inl (hseed ▸ rfl)
  | none =>
    have hread : head = s.stored.read := by
      simp only [seed, Orchestrator.seed, hcache] at hseed
      split_ifs at hseed
      all_goals cases hseed
      all_goals rfl
    rw [hread]
    cases s.stored with
    | missing | unreadable => exact .inr (.inr ⟨rfl, nofun⟩)
    | body body => exact .inr (.inl rfl)

section

variable (hatt : s.attempts env = true) (hseed : s.seed env = some seed)
include hatt hseed

/-- With the listing and the PUT through, a publish PUTs every body that differs from HEAD. -/
theorem put_publishHeadDelta (hlisted : env.listed = true) (hput : env.putOk = true) :
    (s.orch.publishHeadDelta s.forkFiles s.stored env).put =
      if (s.merge env seed).2 then
        some (s.merge env seed).1 else none := by
  rw [publishHeadDelta_of_attempts hatt, hseed]
  simp only [publishFrom, hlisted, hput]
  cases hmutated : (s.merge env seed).2 with
  | false => rfl
  | true => rfl

/-- The three ways a publish that has a seed ends: held, with nothing to PUT, or with a PUT. -/
theorem publish_cases :
    (s.publish env).objects = s.afterDeletes (s.orch.publishReaps s.forkFiles env seed) env.delete ∧
      (s.publish env).snapshots = s.snapshots ∧ (s.publish env).index = s.index ∧
      (((env.listed = false ∨
            (s.merge env seed).2 = true ∧ env.putOk = false) ∧
          (s.publish env).stored = s.stored ∧ (s.publish env).orch.headCache = none) ∨
        (env.listed = true ∧ (s.merge env seed).2 = false ∧
          (s.publish env).stored = s.stored ∧ (s.publish env).orch.headCache =
            some (s.merge env seed).1) ∨
        (env.listed = true ∧ (s.merge env seed).2 = true ∧
          env.putOk = true ∧
          (s.publish env).stored = .body (s.merge env seed).1 ∧
          (s.publish env).orch.headCache = some (s.merge env seed).1)) := by
  have hp := publishHeadDelta_of_attempts hatt
  rw [hseed] at hp
  simp only [publish, hp, publishFrom]
  cases hlisted : env.listed with
  | false => exact ⟨rfl, trivial, trivial, .inl ⟨.inl rfl, rfl, rfl⟩⟩
  | true =>
    cases hmutated : (s.merge env seed).2 with
    | false => exact ⟨rfl, trivial, trivial, .inr (.inl ⟨rfl, rfl, rfl, rfl⟩)⟩
    | true =>
      cases hput : env.putOk with
      | false => exact ⟨rfl, trivial, trivial, .inl ⟨.inr ⟨rfl, rfl⟩, rfl, rfl⟩⟩
      | true => exact ⟨rfl, trivial, trivial, .inr (.inr ⟨rfl, rfl, rfl, rfl, rfl⟩)⟩

end

end Site

end Elide
