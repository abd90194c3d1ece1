import Elide.Coordinator.BlockWrites
import Elide.Coordinator.Minting

/-!
# Confirmed segments at or below the anchor

A publish adds the confirmed segments beyond the anchor. The anchor is the largest ULID that was
indexed at the last seal, and ULIDs are minted before segments land, so a segment can reach the index
with a ULID at or below an anchor whose manifest does not list it. No later publish adds it.

Such segments are the only ones a publish leaves out: an indexed segment is never excluded
(`Site.Tidy`), one beyond the anchor is added, and one of the manifest is live already.

## Main results

* `Minting.indexed_shown_iff`: every publish of a run shows all indexed segments exactly when, at
  every publish, the low segments outside the manifest hold nothing that the listed ones do not.
* `Minting.late_flush_invisible`: a promote that lands after a seal whose anchor is above it.
-/

namespace Elide

open List SegmentHead Site

namespace Site

/-- What a publish over `seed` lists: the manifest, the body it starts from, the confirmed segments
beyond the anchor and, before the barrier, the inputs of the edges that wait; all without what the
body excludes and, behind the barrier, without the inputs of the edges it publishes. -/
def Lists (s : Site) (env : PublishEnv) (seed : Seed) (u : Ulid) : Prop :=
  let head := seed.head s.orch.edgesEligible
  let reconcileEdges := seed.reconciles s.orch.edgesEligible s.orch.reconcileEdges
  (u ∈ s.manifest head.anchor ∨ u ∈ head.added ∨ Holds s.index u ∧ beyond head.anchor u = true ∨
      s.orch.edgesEligible = false ∧
        u ∈ s.orch.waitingInputs s.forkFiles env reconcileEdges head.anchor ∧
        beyond head.anchor u = true) ∧
    ¬ head.Excludes u ∧
    ¬ (s.orch.edgesEligible = true ∧
      u ∈ s.orch.publishedInputs s.forkFiles env reconcileEdges head.anchor)

variable {s : Site}

theorem mem_confirmed_iff {anchor : Option Ulid} {u : Ulid} :
    u ∈ (s.forkFiles.confirmedSegments anchor).map Prod.fst ↔
      Holds s.index u ∧ beyond anchor u = true := by
  constructor
  · intro hu
    refine ⟨isSome_index_of_mem_confirmed hu, ?_⟩
    obtain ⟨e, he, rfl⟩ := mem_map.mp hu
    exact (mem_filter.mp he).2
  · rintro ⟨hu, hbeyond⟩
    obtain ⟨inputs, hget⟩ := Option.isSome_iff_exists.mp hu
    refine mem_map.mpr ⟨(u, inputs), mem_filter.mpr ⟨?_, hbeyond⟩, rfl⟩
    exact OrdMap.mem_entries_iff.mpr hget

variable {env : PublishEnv} {seed : Seed}

theorem lists_iff {u : Ulid} : s.Lists env seed u ↔ u ∈ liveSet
      (s.manifest (s.merge env seed).1.anchor) (s.merge env seed).1 := by
  rw [s.orch.mem_live_publishMerge, s.orch.anchor_publishMerge, mem_confirmed_iff]
  rfl

/-- Of the indexed segments, a publish lists those beyond the anchor and those of the manifest. -/
theorem Tidy.lists {free : Ulid → Prop} (h : s.Tidy [] free)
    (hseed : s.seed env = some seed) {u : Ulid} (hu : Holds s.index u)
    (hwhere : beyond (seed.head s.orch.edgesEligible).anchor u = true ∨
      u ∈ s.manifest (seed.head s.orch.edgesEligible).anchor) : s.Lists env seed u := by
  have hretired := h.index u hu
  refine ⟨?_, fun hex => hretired (retired_of_seed hseed hex), fun hpub => ?_⟩
  · exact hwhere.elim (fun hb => .inr (.inr (.inl ⟨hu, hb⟩))) .inl
  · exact hretired (retired_of_published hpub.2)

variable (carries : Ulid → List BlockWrite)

/-- The body shows every indexed segment: it calls it live, or what it calls live carries or
overrides everything the segment carries. -/
def ShowsIndexed (s : Site) (head : SegmentHead) : Prop :=
  ∀ u, Holds s.index u → u ∈ liveSet (s.manifest head.anchor) head ∨
    Overridden carries (· ∈ liveSet (s.manifest head.anchor) head) u

/-- The indexed segments at or below the anchor that the manifest does not list hold nothing that
the listed segments do not carry or override. -/
def LowOverridden (s : Site) (env : PublishEnv) (seed : Seed) : Prop :=
  ∀ u, Holds s.index u → beyond (seed.head s.orch.edgesEligible).anchor u = false →
    u ∉ s.manifest (seed.head s.orch.edgesEligible).anchor →
    Overridden carries (s.Lists env seed) u

theorem showsIndexed_iff {free : Ulid → Prop} (h : s.Tidy [] free)
    (hseed : s.seed env = some seed) :
    s.ShowsIndexed carries (s.merge env seed).1 ↔
      s.LowOverridden carries env seed := by
  simp only [ShowsIndexed, ← lists_iff]
  constructor
  · intro hshow u hu _ _
    exact (hshow u hu).elim overridden_self id
  · intro hlow u hu
    by_cases hwhere : beyond (seed.head s.orch.edgesEligible).anchor u = true ∨
        u ∈ s.manifest (seed.head s.orch.edgesEligible).anchor
    · exact .inl (h.lists hseed hu hwhere)
    · obtain ⟨hbeyond, hmanifest⟩ := not_or.mp hwhere
      exact .inr (hlow u hu ((Bool.not_eq_true _).mp hbeyond) hmanifest)

end Site

namespace Minting

section Shows

variable (carries : Ulid → List BlockWrite)

/-- A publish whose listing and PUT go through shows every indexed segment. -/
def Shows (m : Minting) : Action → Prop
  | .site (.publish env) => m.site.attempts env = true → env.listed = true → env.putOk = true →
      ∀ head, (m.site.publish env).orch.headCache = some head →
        (m.site.publish env).ShowsIndexed carries head
  | _ => True

/-- Such a publish starts with no low segment of its own. -/
def LowOverridden (m : Minting) : Action → Prop
  | .site (.publish env) => m.site.attempts env = true → env.listed = true → env.putOk = true →
      ∀ seed, m.site.orch.seed m.site.forkFiles m.site.stored env = some seed →
        m.site.LowOverridden carries env seed
  | _ => True

theorem shows_iff {m : Minting} (h : m.Ok) (a : Action) :
    m.Shows carries a ↔ m.LowOverridden carries a := by
  cases a with
  | reserve => exact Iff.rfl
  | site a =>
    cases a with
    | publish env =>
      refine imp_congr_right fun hatt => imp_congr_right fun hlisted => imp_congr_right fun hput => ?_
      rcases hseed : m.site.orch.seed m.site.forkFiles m.site.stored env with _ | seed
      · refine iff_of_true (fun head hc => ?_) nofun
        have hp := publishHeadDelta_of_attempts hatt
        rw [seed, hseed] at hp
        simp only [publish, hp] at hc
        cases hc
      · -- with the listing and the PUT through, the body is kept
        obtain ⟨-, hsnap, hindex, hcases⟩ := publish_cases hatt hseed
        have hcache : (m.site.publish env).orch.headCache = some (m.site.merge env seed).1 := by
          rcases hcases with ⟨hl | ⟨-, hp⟩, -⟩ | ⟨-, -, -, hc⟩ | ⟨-, -, -, -, hc⟩
          · rw [hl] at hlisted
            cases hlisted
          · rw [hp] at hput
            cases hput
          · exact hc
          · exact hc
        have hshows : ∀ head, (m.site.publish env).ShowsIndexed carries head ↔
            m.site.ShowsIndexed carries head := fun head => by
          rfl
        simp only [hcache, Option.some.injEq, forall_eq', hshows]
        exact showsIndexed_iff carries h.tidy hseed
    | _ => exact Iff.rfl

/-- **Publishes show what is indexed exactly when nothing low is alone.** Over any run, each publish
that gets through calls every indexed segment live, or live segments carry or override all of it, if
and only if each such publish starts in a state in which every indexed segment at or below the anchor
that the manifest does not list is carried or overridden by the segments it lists. -/
theorem indexed_shown_iff (actions : List Action) : Run.Each step (Shows carries) init actions ↔
      Run.Each step (LowOverridden carries) init actions :=
  Run.each_iff_each (I := Ok) (fun _ a h => h.step a) (fun _ a h => shows_iff carries h a) ok_init
    actions

end Shows

namespace LateFlush

/-- Promote 0 carries block 0, promote 1 carries block 1. -/
def carries : Ulid → List BlockWrite
  | 0 => [⟨0, 0⟩]
  | 1 => [⟨1, 1⟩]
  | _ => []

/-- Two promotes are taken. The second lands and is sealed; the first lands after the seal, and the
next generation takes it to the index. -/
def actions : List Action :=
  [.reserve, .reserve, .site (.flush 1), .site (.closeGeneration []),
    .site (.drain (fun _ => .done) false), .site (.sign true {1} 0),
    .site (.uploadSnapshotMetadata (fun _ => true) true), .site (.flush 0),
    .site (.closeGeneration []), .site (.tick true), .site (.drain (fun _ => .done) true),
    .site (.publish .clear)]

end LateFlush

open LateFlush in
/-- **A flush segment that lands after a seal is not shown.** Segment 0 is indexed, the publish goes
through, and HEAD calls only segment 1 live, which says nothing about block 0. -/
theorem late_flush_invisible : ∃ head, (actions.foldl step init).site.stored = .body head ∧
      liveSet ((actions.foldl step init).site.manifest head.anchor) head = {1} ∧
      Holds (actions.foldl step init).site.index 0 ∧
      ¬ Run.Each step (Shows carries) init actions := by
  refine ⟨_, rfl, by decide, rfl, fun h => ?_⟩
  obtain ⟨-, -, -, -, -, -, -, -, -, -, -, h, -⟩ := h
  have hshows := h rfl rfl rfl _ rfl 0 rfl
  rcases hshows with hlive | hover
  · exact absurd hlive (by decide)
  · obtain ⟨v, hv, c, hc, hlba, -⟩ := hover ⟨0, 0⟩ (by decide)
    have hv1 : v = 1 := Finset.mem_singleton.mp (Eq.mp (congrArg (v ∈ ·) (by decide)) hv)
    subst hv1
    have hc1 : c = ⟨1, 1⟩ := mem_singleton.mp hc
    rw [hc1] at hlba
    exact absurd hlba (by decide)

end Minting

end Elide
