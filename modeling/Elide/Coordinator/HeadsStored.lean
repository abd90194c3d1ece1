import Elide.Coordinator.StoredSegments

/-!
# Does everything HEAD calls live exist?

A publish that starts from a stored body and publishes its edges arrives at a stored body, because
the only segments that join are confirmed ones. Two things break it. Before the barrier a publish
adds the inputs the signed tables name, and the table of a repack output names segments that were
never uploaded. And a regenerated body starts over from the latest user manifest, without the
tombstones of what was deleted since.

## Main results

* `Site.heads_stored_iff`: in every state of a run the stored and the cached body are stored exactly
  when every publish and every truncation of the run meets `Site.Covers`.
* `Site.repack_inputs_published`: a repacked generation, and a publish that calls its never uploaded
  inputs live.
-/

namespace Elide

open List SegmentHead Orchestrator Finset

namespace Site

variable {s s' s'' : Site}

/-! ### Publishing -/

variable (s)

/-- The waiting inputs that a publish before the barrier adds over a trusted body are stored. -/
def HoldsStored (env : PublishEnv) (head : SegmentHead) : Prop :=
  s.orch.edgesEligible = false →
    ∀ u ∈ s.orch.waitingInputs s.forkFiles env s.orch.reconcileEdges head.anchor,
      beyond head.anchor u = true → ¬ head.Excludes u → u ∈ s.objects

/-- Regenerating loses no deletion: behind the barrier, what the latest user manifest lists and no
edge retires is stored; before it, so is all of the manifest and every input. -/
def RegeneratesStored : Prop :=
  if s.orch.edgesEligible then
    ∀ u ∈ s.manifest s.latestSnapshot, u ∉ s.forkFiles.confirmedInputs s.latestSnapshot →
      u ∉ (s.orch.publishable s.latestSnapshot).map Prod.fst → u ∈ s.objects
  else
    (∀ u ∈ s.manifest s.latestSnapshot, u ∈ s.objects) ∧
      (∀ u ∈ s.forkFiles.confirmedInputs s.latestSnapshot, u ∈ s.objects) ∧
      ∀ u ∈ s.orch.tickSuperseded.map Prod.fst, beyond s.latestSnapshot u = true → u ∈ s.objects

/-- A regenerated body has nothing to say. -/
def Idle : Prop :=
  s.forkFiles.confirmedSegments s.latestSnapshot = [] ∧
    if s.orch.edgesEligible then s.orch.publishable s.latestSnapshot = []
    else ∀ u ∈ s.orch.tickSuperseded.map Prod.fst, beyond s.latestSnapshot u = false

/-- What a publish needs of the state it starts in. A trusted body needs its waiting inputs stored. A
regenerated one needs what it names stored if it is kept, and if it is not, that the reap along the
way took nothing the stored body calls live. -/
def CoversSeed (env : PublishEnv) : Seed → Prop
  | .trusted head => env.listed = true → env.putOk = true → s.HoldsStored env head
  | .regenerated head =>
    (env.listed = true ∧ (env.putOk = true ∨ s.Idle) → s.RegeneratesStored) ∧
      (¬ (env.listed = true ∧ (env.putOk = true ∨ s.Idle)) → ∀ body, s.stored = .body body →
          ∀ u ∈ s.orch.publishReaps s.forkFiles env (.regenerated head), env.delete u ≠ .failed →
            u ∉ liveSet (s.manifest body.anchor) body)

/-- What a step needs: a publish, that its seed is covered; a truncation, that the manifest it
truncates to is stored. -/
def Covers : Action → Prop
  | .publish env => s.attempts env = true →
      ∀ seed, s.orch.seed s.forkFiles s.stored env = some seed → s.CoversSeed env seed
  | .uploadSnapshotMetadata manifestOk putOk => putOk = true →
      ∀ snap, s.newestUploaded manifestOk = some snap → ∀ u ∈ s.manifest (some snap), u ∈ s.objects
  | _ => True

/-- The body a publish arrives at, in the bucket as the reap leaves it. -/
def BodyStored (env : PublishEnv) (seed : Seed) : Prop :=
  ∀ u ∈ liveSet (s.manifest (seed.head s.orch.edgesEligible).anchor)
      (s.orch.publishMerge s.forkFiles env seed).1,
    u ∈ s.afterDeletes (s.orch.publishReaps s.forkFiles env seed) env.delete

/-- The reap of a publish takes nothing the stored body calls live. -/
def Survives (env : PublishEnv) (seed : Seed) : Prop :=
  ∀ body, s.stored = .body body → ∀ u ∈ s.orch.publishReaps s.forkFiles env seed,
    env.delete u ≠ .failed → u ∉ liveSet (s.manifest body.anchor) body

variable {s} {env : PublishEnv}

/-- The reap deletes nothing the body calls live. -/
theorem bodyStored_iff {seed : Seed} : s.BodyStored env seed ↔
      ∀ u ∈ liveSet (s.manifest (seed.head s.orch.edgesEligible).anchor)
        (s.merge env seed).1, u ∈ s.objects := by
  refine forall₂_congr fun u hu => ?_
  rw [mem_afterDeletes, and_iff_left_iff_imp]
  rintro - ⟨hreaped, -⟩
  have hex := (mem_live_publishMerge _ _ _ _).mp hu |>.2.1
  exact hex (.inl (s.orch.isSome_of_mem_publishReaps s.forkFiles env seed hreaped))

variable {head : SegmentHead}

/-- **Over a trusted body** that is stored, the published one is stored exactly when the waiting
inputs are. -/
theorem bodyStored_trusted_iff (hok : s.Ok) (hhead : s.Stored head) :
    s.BodyStored env (.trusted head) ↔ s.HoldsStored env head := by
  rw [bodyStored_iff]
  simp only [mem_live_publishMerge]
  constructor
  · intro h hel u hu hbeyond hex
    exact h u ⟨.inr (.inr (.inr ⟨hel, hu, hbeyond⟩)), hex, by simp [hel]⟩
  · rintro h u ⟨hm | ha | hc | ⟨hel, hw, hb⟩, hex, -⟩
    · exact hhead u (mem_liveSet_iff.mpr ⟨.inl hm, hex⟩)
    · exact hhead u (mem_liveSet_iff.mpr ⟨.inr ha, hex⟩)
    · exact hok.indexed u (isSome_index_of_mem_confirmed hc)
    · exact h hel u hw hb hex

/-- **Over a regenerated body** the published one is stored exactly when what it names is. -/
theorem bodyStored_regenerated_iff (hok : s.Ok) (env : PublishEnv) :
    s.BodyStored env (s.forkFiles.regenerated env.now) ↔ s.RegeneratesStored := by
  obtain ⟨hanchor, hadded, hex⟩ := head_regenerated s.forkFiles env.now s.orch.edgesEligible
  rw [bodyStored_iff, RegeneratesStored]
  simp only [mem_live_publishMerge, hanchor, hex, hadded]
  cases hel : s.orch.edgesEligible with
  | true =>
    -- the edges ride along, so all inputs are excluded
    simp only [true_and, Bool.true_eq_false, false_and, or_false]
    constructor
    · intro h u hm hin hpub
      exact h u ⟨.inl hm, hin, hpub⟩
    · rintro h u ⟨hm | (hc | hin) | hc, hnot, hpub⟩
      · exact h u hm hnot hpub
      · exact hok.indexed u (isSome_index_of_mem_confirmed hc)
      · exact absurd hin hnot
      · exact hok.indexed u (isSome_index_of_mem_confirmed hc)
  | false =>
    simp only [Bool.false_eq_true, false_and, not_false_eq_true, and_true, true_and]
    constructor
    · intro h
      refine ⟨fun u hm => h u (.inl hm), fun u hin => h u (.inr (.inl (.inr hin))), ?_⟩
      exact fun u hu hb => h u (.inr (.inr (.inr ⟨mem_append_right _ hu, hb⟩)))
    · rintro ⟨hm, hin, htick⟩ u (h | (h | h) | h | ⟨h, hb⟩)
      · exact hm u h
      · exact hok.indexed u (isSome_index_of_mem_confirmed h)
      · exact hin u h
      · exact hok.indexed u (isSome_index_of_mem_confirmed h)
      · rcases mem_append.mp h with h | h
        · -- a reconciled input is one of the confirmed inputs
          refine hin u ?_
          rw [Orchestrator.reconciled] at h
          split_ifs at h
          · exact h
          · cases h
        · exact htick u h hb

/-! ### Regenerated bodies with nothing to say -/

theorem foldl_hold_of_not_beyond {us : List Ulid} {m : Merge}
    (h : ∀ u ∈ us, beyond m.1.anchor u = false) : us.foldl Merge.hold m = m := by
  induction us with
  | nil => rfl
  | cons u us ih =>
    have hu : m.hold u = m := by
      rw [Merge.hold_eq]
      simp [Merge.holds, h u mem_cons_self]
    rw [foldl_cons, hu]
    exact ih fun v hv => h v (mem_cons_of_mem _ hv)

/-- A publish over a regenerated body has nothing to PUT exactly when the body has nothing to say. -/
theorem quiet_iff_idle (env : PublishEnv) :
    (s.merge env (s.forkFiles.regenerated env.now)).2 = false ↔ s.Idle := by
  constructor
  · intro hquiet
    obtain ⟨hsame, hrepaired⟩ := s.orch.publishMerge_quiet s.forkFiles env _ hquiet
    -- not repaired: the body is empty, and so is the listing
    have hnil : s.forkFiles.confirmedSegments s.latestSnapshot = [] := by
      have hempty := (isEmpty_iff.mp (by
        simpa only [Seed.repaired, Bool.not_eq_false'] using hrepaired)).1
      refine eq_nil_iff_forall_not_mem.mpr fun e he => ?_
      have hadded := ((head_regenerated s.forkFiles env.now s.orch.edgesEligible).2.1 e.1).mpr
        (.inl (mem_map_of_mem he))
      rw [hempty] at hadded
      exact absurd hadded (notMem_empty _)
    have hmem := @Orchestrator.mem_live_publishMerge s.orch s.forkFiles env
      (s.forkFiles.regenerated env.now)
    simp only [hsame, head_regenerated_of_nil hnil, mem_liveSet_iff] at hmem
    refine ⟨hnil, ?_⟩
    split_ifs with hel
    · -- a publishable edge would exclude its input
      refine eq_nil_iff_forall_not_mem.mpr fun e he => ?_
      have hlive := (@hmem {e.1} e.1).mp ⟨.inl (Finset.mem_singleton_self _), by
        simp [SegmentHead.Excludes, empty]⟩
      refine hlive.2.2 ⟨hel, ?_⟩
      exact mem_append_right _ (mem_map_of_mem he)
    · -- an input beyond the anchor would be added
      intro u hu
      by_contra hbeyond
      have hlive := (@hmem ∅ u).mpr ⟨.inr (.inr (.inr ⟨by simpa using hel,
        mem_append_right _ hu, (Bool.not_eq_false _).mp hbeyond⟩)),
        by simp [SegmentHead.Excludes, empty], by simp [hel]⟩
      rcases hlive.1 with h | h <;> exact absurd h (notMem_empty _)
  · rintro ⟨hnil, hedges⟩
    have hhead : (s.forkFiles.regenerated env.now).head s.orch.edgesEligible =
        .empty s.latestSnapshot := head_regenerated_of_nil hnil _
    have hreap : ∀ renv : ReapEnv,
        (empty s.latestSnapshot).reapExpired renv = (.empty s.latestSnapshot, false) := by
      intro renv
      rw [reapExpired]
      rcases renv.retention with _ | retention <;> rfl
    have hrepaired : (s.forkFiles.regenerated env.now).repaired s.orch.edgesEligible = false := by
      rw [Seed.repaired, hhead]
      rfl
    have hanchor : (empty s.latestSnapshot).anchor = s.latestSnapshot := rfl
    have hreconciled : ∀ b, Orchestrator.reconciled s.forkFiles env b s.latestSnapshot = [] := by
      intro b
      rw [Orchestrator.reconciled, ForkFiles.confirmedEdges, hnil]
      exact ite_self _
    simp only [Orchestrator.publishMerge, hhead, hreap, ite_self, hrepaired, Orchestrator.merge,
      hanchor, hnil, map_nil, foldl_nil, hreconciled]
    split_ifs at hedges ⊢ with hel
    · rw [hedges]
      rfl
    · rw [foldl_hold_of_not_beyond hedges]
      rfl

/-! ### The step -/

/-- The bodies of a state with the manifests of `s` and the objects a publish leaves. -/
theorem stored_publish_iff {seed : Seed} (hobjects : (s.publish env).objects =
      s.afterDeletes (s.orch.publishReaps s.forkFiles env seed) env.delete) :
    (s.publish env).Stored head ↔ ∀ u ∈ liveSet (s.manifest head.anchor) head,
      u ∈ s.afterDeletes (s.orch.publishReaps s.forkFiles env seed) env.delete := by
  rw [Stored, hobjects]
  rfl

/-- A stored body stays stored exactly when the reap takes nothing it calls live. -/
theorem stored_afterDeletes_iff {deletes : List Ulid} {outcome : Ulid → DeleteOutcome}
    (h : s.Stored head) :
    (∀ u ∈ liveSet (s.manifest head.anchor) head, u ∈ s.afterDeletes deletes outcome) ↔
      ∀ u ∈ deletes, outcome u ≠ .failed → u ∉ liveSet (s.manifest head.anchor) head := by
  constructor
  · intro hall u hu hout hlive
    exact (mem_afterDeletes.mp (hall u hlive)).2 ⟨hu, hout⟩
  · intro hall u hlive
    exact mem_afterDeletes.mpr ⟨h u hlive, fun hdel => hall u hdel.1 hdel.2 hlive⟩

/-- The edges a reap follows out of a trusted body are edges of the stored one. -/
theorem trusted_reaps_excluded (hok : s.Ok) {body : SegmentHead}
    (hseed : s.seed env = some (.trusted head)) (hbody : s.stored = .body body) {u : Ulid}
    (hu : u ∈ s.orch.publishReaps s.forkFiles env (.trusted head)) : body.Excludes u := by
  have hedge := s.orch.isSome_of_mem_publishReaps s.forkFiles env _ hu
  simp only [Seed.head] at hedge
  rcases trusted_cases hseed with hcache | hstored | ⟨-, hnone⟩
  · rcases hok.agree body head hbody hcache with rfl | hnone
    · exact .inl hedge
    · rw [hnone u] at hedge
      cases hedge
  · cases hbody.symm.trans hstored
    exact .inl hedge
  · exact absurd hbody (hnone body)

theorem stored_of_trusted (hs : s.HeadsStored) (hseed : s.seed env = some (.trusted head)) :
    s.Stored head := by
  rcases trusted_cases hseed with hcache | hstored | ⟨rfl, -⟩
  · exact hs.cached head hcache
  · exact hs.stored head hstored
  · intro u hu
    rw [mem_liveSet_iff] at hu
    rcases hu.1 with h | h <;> exact absurd h (notMem_empty u)

/-- A publish that keeps its body: what is left to show is that the body is stored. -/
theorem headsStored_iff_of_kept {body : SegmentHead} {s' : Site}
    (hstored : s'.stored = .body body) (hcache : s'.orch.headCache = some body) :
    s'.HeadsStored ↔ s'.Stored body := by
  constructor
  · exact fun h => h.cached body hcache
  · intro h
    refine ⟨fun head hb => ?_, fun head hc => ?_⟩
    · rw [hstored] at hb
      cases hb
      exact h
    · rw [hcache] at hc
      cases hc
      exact h

section

variable (hs : s.HeadsStored) (hatt : s.attempts env = true)
include hs hatt

/-- **A publish that comes to a merge** leaves the bodies stored exactly when the body it keeps is
stored, or, when it keeps none, when HEAD survives the reap. -/
theorem headsStored_merge_iff {seed : Seed} (hseed : s.seed env = some seed)
    (hquiet : (s.merge env seed).2 = false → s.Survives env seed) :
    (s.publish env).HeadsStored ↔
      if env.listed = true ∧ (env.putOk = true ∨ (s.merge env seed).2 = false)
      then s.BodyStored env seed else s.Survives env seed := by
  obtain ⟨hobjects, hsnap, -, hcases⟩ := publish_cases hatt hseed
  have hiff : ∀ h, (s.publish env).Stored h ↔ _ := fun h => stored_publish_iff hobjects
  have hsurvive : (∀ body, s.stored = .body body → (s.publish env).Stored body) ↔
      s.Survives env seed := forall₂_congr fun body hb =>
    (hiff body).trans (stored_afterDeletes_iff (hs.stored body hb))
  have hmerged : (s.publish env).Stored (s.merge env seed).1 ↔ s.BodyStored env seed := by
    rw [hiff, s.orch.anchor_publishMerge]
    rfl
  rcases hcases with ⟨hheld, hstored, hcache⟩ | ⟨hlisted, hq, hstored, hcache⟩ |
    ⟨hlisted, -, hput, hstored, hcache⟩
  · rw [if_neg (by rcases hheld with h | ⟨h, h'⟩ <;> simp [*]), ← hsurvive, ← hstored]
    refine ⟨fun h => h.stored, fun h => ⟨h, fun head hc => ?_⟩⟩
    rw [hcache] at hc
    cases hc
  · -- nothing to PUT
    rw [if_pos ⟨hlisted, .inr hq⟩, ← hmerged]
    refine ⟨fun h => h.cached _ hcache, fun h => ⟨hstored ▸ hsurvive.mpr (hquiet hq), ?_⟩⟩
    rw [hcache]
    rintro head ⟨⟩
    exact h
  · rw [if_pos ⟨hlisted, .inl hput⟩, headsStored_iff_of_kept hstored hcache, hmerged]

theorem headsStored_publish_trusted_iff (hok : s.Ok) (hseed : s.seed env = some (.trusted head)) :
    (s.publish env).HeadsStored ↔ s.CoversSeed env (.trusted head) := by
  have hhead := stored_of_trusted hs hseed
  -- the reap follows edges that HEAD has too
  have hsurvives : s.Survives env (.trusted head) := fun body hb u hu _ hlive =>
    (mem_liveSet_iff.mp hlive).2 (trusted_reaps_excluded hok hseed hb hu)
  rw [headsStored_merge_iff hs hatt hseed fun _ => hsurvives, bodyStored_trusted_iff hok hhead]
  split_ifs with hkept
  · refine ⟨fun h _ _ => h, fun h => ?_⟩
    rcases hkept.2 with hput | hquiet
    · exact h hkept.1 hput
    · -- nothing to PUT: the body is the seed
      rw [← bodyStored_trusted_iff hok hhead, bodyStored_iff,
        (s.orch.publishMerge_quiet s.forkFiles env _ hquiet).1]
      exact hhead
  · exact iff_of_true hsurvives fun hlisted hput => absurd ⟨hlisted, .inl hput⟩ hkept

theorem headsStored_publish_regenerated_iff (hok : s.Ok)
    (hseed : s.seed env = some (.regenerated head)) :
    (s.publish env).HeadsStored ↔ s.CoversSeed env (.regenerated head) := by
  obtain rfl := eq_regenerate_of_seed hseed
  have hidle := quiet_iff_idle (s := s) env
  rw [headsStored_merge_iff hs hatt hseed, bodyStored_regenerated_iff hok env]
  · rw [CoversSeed, ← hidle]
    split_ifs with hkept
    · exact ⟨fun h => ⟨fun _ => h, fun hn => absurd hkept hn⟩, fun h => h.1 hkept⟩
    · exact ⟨fun h => ⟨fun hc => absurd hc hkept, fun _ => h⟩, fun h => h.2 hkept⟩
  · -- nothing to PUT: an empty body, which has no edges to reap
    intro hquiet body _ u hu
    have hedge := s.orch.isSome_of_mem_publishReaps s.forkFiles env _ hu
    rw [head_regenerated_of_nil (hidle.mp hquiet).1] at hedge
    cases hedge

end

/-- A publish that does not come to a merge. -/
theorem keeps_publish (h : s.attempts env = true → s.seed env = none) :
    Keeps s (s.publish env) := by
  cases hatt : s.attempts env with
  | false =>
    obtain ⟨landed, hp⟩ := publishHeadDelta_of_not_attempts hatt
    refine keeps_of_eq ?_ (.inl ?_) ?_ rfl rfl
    all_goals simp [publish, hp, afterDeletes]
  | true =>
    have hp := publishHeadDelta_of_attempts hatt
    rw [h hatt] at hp
    refine keeps_of_eq ?_ (.inr ?_) ?_ rfl rfl
    all_goals simp [publish, hp, afterDeletes]

/-- **One publish** keeps the bodies stored exactly when its seed is covered. -/
theorem headsStored_publish_iff (hok : s.Ok) (hs : s.HeadsStored) (env : PublishEnv) :
    (s.publish env).HeadsStored ↔ s.Covers (.publish env) := by
  cases hatt : s.attempts env with
  | false =>
    exact iff_of_true ((keeps_publish (by simp [hatt])).headsStored hs) fun h =>
      absurd (hatt ▸ h) (by decide)
  | true =>
    rcases hseed : s.seed env with _ | seed
    · refine iff_of_true ((keeps_publish fun _ => hseed).headsStored hs) fun _ seed h => ?_
      cases hseed.symm.trans h
    · have hcovers : s.Covers (.publish env) ↔ s.CoversSeed env seed := by
        simp [Covers, hatt, hseed]
      rw [hcovers]
      cases seed with
      | trusted head => exact headsStored_publish_trusted_iff hs hatt hok hseed
      | regenerated head => exact headsStored_publish_regenerated_iff hs hatt hok hseed

/-- **One truncation** keeps the bodies stored exactly when its manifest is. -/
theorem headsStored_upload_iff (hs : s.HeadsStored) (manifestOk : Ulid → Bool) (putOk : Bool) :
    (s.uploadSnapshotMetadata manifestOk putOk).HeadsStored ↔
      s.Covers (.uploadSnapshotMetadata manifestOk putOk) := by
  simp only [uploadSnapshotMetadata, Covers]
  rcases s.newestUploaded manifestOk with _ | snap
  · exact iff_of_true (Keeps.headsStored (s := s) (keeps_of_eq rfl (.inl rfl) rfl rfl rfl) hs) nofun
  · cases putOk with
    | false =>
      exact iff_of_true (Keeps.headsStored (s := s) (keeps_of_eq rfl (.inr rfl) rfl rfl rfl) hs) nofun
    | true =>
      have hlive : ∀ u, u ∈ liveSet (s.manifest (some snap)) (.empty (some snap)) ↔
          u ∈ s.manifest (some snap) := fun u => by
        simp [mem_liveSet_iff, SegmentHead.Excludes, empty]
      dsimp only
      rw [headsStored_iff_of_kept rfl rfl]
      simp only [Option.some.injEq, forall_eq', true_imp_iff]
      exact forall_congr' fun u => imp_congr_left (hlive u)

/-! ### Runs -/

/-- The steps that write a body. -/
def Action.writesHead : Action → Bool
  | .publish _ | .uploadSnapshotMetadata _ _ => true
  | _ => false

theorem keeps_step {a : Action} (hok : s.Ok) (ha : a.writesHead = false) : Keeps s (step s a) := by
  cases a with
  | publish | uploadSnapshotMetadata => cases ha
  | flush | repack | tick | planPass => exact keeps_of_eq rfl (.inl rfl) rfl rfl rfl
  | closeGeneration bins =>
    simp only [step, closeGeneration]
    split_ifs
    · exact keeps_of_eq rfl (.inl rfl) rfl rfl rfl
    · exact Keeps.refl s
  | applyPlan u handoff =>
    simp only [step, applyPlan]
    split_ifs
    · exact keeps_of_eq rfl (.inl rfl) rfl rfl rfl
    · exact Keeps.refl s
  | drain answer records => exact keeps_drain answer records
  | handoffCleanup answer since records => exact keeps_handoffCleanup answer since records
  | sign user kept fresh => exact keeps_sign user kept fresh hok
  | loseHead | damageHead =>
    exact ⟨nofun, fun _ h => h, fun _ h => h, fun _ _ h => .inl h, fun h => h⟩
  | restart => exact keeps_of_eq rfl (.inr rfl) rfl rfl rfl

theorem Ok.publish (hok : s.Ok) (env : PublishEnv) : (s.publish env).Ok := by
  cases hatt : s.attempts env with
  | false => exact (keeps_publish (by simp [hatt])).ok hok
  | true =>
    rcases hseed : s.seed env with _ | seed
    · exact (keeps_publish fun _ => hseed).ok hok
    · obtain ⟨hobjects, -, hindex, hcases⟩ := publish_cases hatt hseed
      refine ⟨fun u hu => ?_, fun body head hb hc => ?_⟩
      · rw [hobjects, mem_afterDeletes]
        exact ⟨hok.indexed u hu, fun hdel => not_indexed_of_mem_publishReaps hdel.1 hu⟩
      · rcases hcases with ⟨-, -, hcache⟩ | ⟨-, hquiet, hstored, hcache⟩ |
          ⟨-, -, -, hstored, hcache⟩
        · rw [hcache] at hc
          cases hc
        · -- nothing to PUT: the cached body is the seed
          obtain ⟨hsame, hrepaired⟩ := s.orch.publishMerge_quiet s.forkFiles env _ hquiet
          rw [hcache, hsame] at hc
          rw [hstored] at hb
          cases hc
          cases seed with
          | trusted head =>
            rcases trusted_cases hseed with hcache | hstored | ⟨-, hnone⟩
            · exact hok.agree body head hb hcache
            · cases hb.symm.trans hstored
              exact .inl rfl
            · exact absurd hb (hnone body)
          | regenerated head =>
            refine .inr fun u => ?_
            have hempty := (isEmpty_iff.mp (by
              simpa only [Seed.repaired, Bool.not_eq_false'] using hrepaired)).2.1
            rw [OrdMap.get?, hempty]
            rfl
        · rw [hstored] at hb
          rw [hcache] at hc
          cases hb
          cases hc
          exact .inl rfl

theorem Ok.upload (hok : s.Ok) (manifestOk : Ulid → Bool) (putOk : Bool) :
    (s.uploadSnapshotMetadata manifestOk putOk).Ok := by
  simp only [uploadSnapshotMetadata]
  rcases s.newestUploaded manifestOk with _ | snap
  · exact ⟨hok.indexed, hok.agree⟩
  · cases putOk with
    | false => exact ⟨hok.indexed, nofun⟩
    | true =>
      refine ⟨hok.indexed, fun body head hb hc => .inl ?_⟩
      cases hb
      cases hc
      rfl

theorem Ok.step (hok : s.Ok) (a : Action) : (step s a).Ok := by
  cases a with
  | publish env => exact hok.publish env
  | uploadSnapshotMetadata manifestOk putOk => exact hok.upload manifestOk putOk
  | _ => exact (keeps_step hok rfl).ok hok

theorem headsStored_step_iff (hok : s.Ok) (hs : s.HeadsStored) (a : Action) :
    (step s a).HeadsStored ↔ s.Covers a := by
  cases a with
  | publish env => exact headsStored_publish_iff hok hs env
  | uploadSnapshotMetadata manifestOk putOk => exact headsStored_upload_iff hs manifestOk putOk
  | _ => exact iff_of_true ((keeps_step hok rfl).headsStored hs) trivial

/-- **HEAD names stored segments exactly when publishes and truncations are covered.** In every state
of a run, everything that HEAD and the cached body call live was uploaded and not deleted, if and
only if every publish and every truncation of the run meets `Covers` in the state it starts in. -/
theorem heads_stored_iff (actions : List Action) :
    Run.Always step HeadsStored init actions ↔ Run.Each step Covers init actions :=
  Run.always_iff_each (fun _ a hok _ => hok.step a)
    (fun _ a hok _ hs => headsStored_step_iff hok hs a) ok_init headsStored_init
    (Run.each_of_forall (fun _ _ => trivial) init actions)

namespace RepackedInputs

/-- Two flushes, a close that packs them into segment 3, and the next tick: a flush, the drain, a pass
that emits plans, and the publish. -/
def actions : List Action :=
  [.flush 1, .flush 2, .closeGeneration [⟨[1, 2], some 3⟩], .tick true,
    .drain (fun _ => .done) true, .planPass, .publish .clear]

end RepackedInputs

open RepackedInputs in
/-- **A publish calls segments live that were never uploaded.** The pass of the same tick holds the
edges back, so the publish adds the inputs of segment 3 instead: the two flush segments the close
packed and unlinked. -/
theorem repack_inputs_published : ∃ head, (actions.foldl step init).stored = .body head ∧
      liveSet ((actions.foldl step init).manifest head.anchor) head = {1, 2, 3} ∧
      (actions.foldl step init).objects = {3} ∧ ¬ Run.Always step HeadsStored init actions := by
  refine ⟨_, rfl, by decide, by decide, fun h => ?_⟩
  have hstored := h.last.stored _ rfl 1 (by decide)
  exact absurd hstored (by decide)

end Site

end Elide
