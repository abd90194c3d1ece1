import Elide.Coordinator.CutWorld

/-!
# Cuts and the barrier

A publish behind the flush barrier drops the inputs of the edges it publishes from the live set. The
output of such an edge leaves out every block write the pass judged dead, and what killed those writes
may be in `pending/open/`, which no drain has reached, although a flush was confirmed after the pass.
Then the cut resolves a block to an older write than the cut before it, or to none.

## Main results

* `CutWorld.cuts_ascend_iff`: no cut of a run goes back behind an earlier one exactly when, at every
  publish behind the barrier, the rest of the cut carries or overrides what the superseded inputs
  carry.
* `CutWorld.killer_left_open`: a run in which a block disappears from the cut.
-/

namespace Elide

open SegmentHead Orchestrator Site List

namespace Site

variable {s s' s'' : Site}

/-! ### Steps that leave HEAD alone -/

/-- HEAD, its cached copy, the pending reconcile and the manifests are the same. -/
structure SameHead (s s' : Site) : Prop where
  stored : s'.stored = s.stored
  cache : s'.orch.headCache = s.orch.headCache
  reconcileEdges : s'.orch.reconcileEdges = s.orch.reconcileEdges
  snapshots : s'.snapshots = s.snapshots

theorem SameHead.refl (s : Site) : SameHead s s := ⟨rfl, rfl, rfl, rfl⟩

theorem SameHead.trans (h : SameHead s s') (h' : SameHead s' s'') : SameHead s s'' :=
  ⟨h'.stored.trans h.stored, h'.cache.trans h.cache, h'.reconcileEdges.trans h.reconcileEdges,
    h'.snapshots.trans h.snapshots⟩

theorem sameHead_drain (answer : Ulid → DrainAnswer) (records : Bool) :
    SameHead s (s.drain answer records) := by
  refine drain_of_each SameHead.refl SameHead.trans (fun _ _ _ => ⟨rfl, rfl, rfl, rfl⟩) ?_ s answer
    records
  intro s u inputs answer
  cases answer <;> exact ⟨rfl, rfl, rfl, rfl⟩

theorem sameHead_handoffCleanup (answer : Ulid → HandoffAnswer) (since : ℕ) (records : Bool) :
    SameHead s (s.handoffCleanup answer since records) :=
  handoffCleanup_of_each SameHead.refl SameHead.trans (fun _ _ _ => ⟨rfl, rfl, rfl, rfl⟩)
    (fun _ _ _ => ⟨rfl, rfl, rfl, rfl⟩) (fun _ _ _ => ⟨rfl, rfl, rfl, rfl⟩)
    (fun _ _ => ⟨rfl, rfl, rfl, rfl⟩) s answer since records

theorem sameHead_closeGeneration (bins : List RepackBin) : SameHead s (s.closeGeneration bins) := by
  rw [closeGeneration]
  split_ifs
  · exact ⟨rfl, rfl, rfl, rfl⟩
  · exact SameHead.refl s

theorem sameHead_applyPlan (u : Ulid) (handoff : Handoff) : SameHead s (s.applyPlan u handoff) := by
  rw [applyPlan]
  split_ifs
  · exact ⟨rfl, rfl, rfl, rfl⟩
  · exact SameHead.refl s

end Site

namespace CutWorld

variable {w : CutWorld}

/-! ### The invariant -/

/-- The stored body. -/
def head (w : CutWorld) : SegmentHead := w.site.stored.read

/-- What the stored body calls live. -/
def liveHead (w : CutWorld) : Finset Ulid :=
  liveSet (w.site.manifest w.head.anchor) w.head

/-- The cached body is the stored one, a fresh process reconciles, the anchor is the latest user
snapshot, and the stored body is the last cut. -/
structure Ok (w : CutWorld) : Prop where
  cache : ∀ head, w.site.orch.headCache = some head → head = w.head
  reconciles : w.site.orch.headCache = none → w.site.orch.reconcileEdges = true
  anchor : w.head.anchor = w.site.latestSnapshot
  cuts : ∃ older, w.cuts = w.liveHead :: older

theorem Ok.congr {w' : CutWorld} (h : w.Ok) (hsite : Site.SameHead w.site w'.site)
    (hcuts : w'.cuts = w.cuts) : w'.Ok := by
  have hhead : w'.head = w.head := congrArg HeadObject.read hsite.stored
  refine ⟨fun head hc => ?_, fun hc => ?_, ?_, ?_⟩
  · exact (h.cache head (hsite.cache ▸ hc)).trans hhead.symm
  · exact hsite.reconcileEdges.trans (h.reconciles (hsite.cache ▸ hc))
  · rw [hhead, h.anchor, latestSnapshot, latestSnapshot, hsite.snapshots]
  · rw [hcuts, liveHead, hhead, manifest, hsite.snapshots]
    exact h.cuts

theorem ok_start (index : OrdMap Ulid (List Ulid)) (anchor : Option (Ulid × Finset Ulid))
    (mint nextWrite : ℕ) : (start index anchor mint nextWrite).Ok := by
  have hlive : ∀ (w : CutWorld) (a : Option Ulid), w.head = .empty a →
      w.liveHead = w.site.manifest a := fun w a hw => Finset.ext fun u => by
    rw [liveHead, hw, mem_liveSet_iff]
    simp [SegmentHead.Excludes, empty, OrdMap.get?, OrdMap.empty]
  cases anchor with
  | none =>
    exact ⟨(fun _ h => by cases h), fun _ => rfl, rfl, [], congrArg (· :: []) (hlive _ none rfl).symm⟩
  | some anchor =>
    refine ⟨(fun _ h => by cases h), fun _ => rfl, rfl, [], congrArg (· :: []) ?_⟩
    rw [hlive _ (some anchor.1) rfl, manifest]
    simp [start, OrdMap.get?_insert]

/-- A step of the site that leaves HEAD alone. -/
theorem Ok.land (h : w.Ok) {a : Site.Action} (ha : Site.SameHead w.site (w.site.step a)) :
    (w.land a).Ok := by
  refine h.congr ?_ rfl
  simp only [CutWorld.land, Minting.step]
  split_ifs
  · exact ha
  · exact Site.SameHead.refl _

/-! ### Publishes -/

/-- The inputs of the edges a publish behind the barrier puts in force. -/
def joining (w : CutWorld) (env : PublishEnv) : List Ulid :=
  w.site.orch.publishedInputs w.site.forkFiles (w.clocks env) w.site.orch.reconcileEdges
    w.head.anchor

/-- What a publish behind the barrier lists: what HEAD calls live and the confirmed segments beyond
the anchor, without what HEAD excludes and without those inputs. -/
def InCut (w : CutWorld) (env : PublishEnv) (u : Ulid) : Prop :=
  (u ∈ w.liveHead ∨ Holds w.site.index u ∧ beyond w.head.anchor u = true) ∧ ¬ w.head.Excludes u ∧
    u ∉ w.joining env

/-- A publish starts from HEAD, or regenerates a HEAD that is empty. -/
theorem Ok.seed (h : w.Ok) (env : PublishEnv) :
    w.site.seed (w.clocks env) = some (.trusted w.head) ∨
      w.head.isEmpty = true ∧ w.site.orch.headCache = none ∧
        w.site.seed (w.clocks env) =
          some (w.site.forkFiles.regenerated env.now) := by
  rcases hcache : w.site.orch.headCache with _ | cached
  · simp only [Orchestrator.seed, hcache, clocks, PublishEnv.through, if_true]
    split_ifs with hempty hlegit
    · exact .inl rfl
    · exact .inl rfl
    · simpa [head] using hempty
  · refine .inl ?_
    simp only [Orchestrator.seed, hcache]
    rw [h.cache cached hcache]

theorem excludes_of_isEmpty {head : SegmentHead} (h : head.isEmpty = true) (u : Ulid) :
    ¬ head.Excludes u := by
  obtain ⟨-, hsup, htomb⟩ := isEmpty_iff.mp h
  rintro (hu | hu)
  · rw [OrdMap.get?, hsup] at hu
    cases hu
  · rw [htomb] at hu
    cases hu

theorem eq_empty_of_isEmpty {head : SegmentHead} (h : head.isEmpty = true) :
    head = .empty head.anchor := by
  obtain ⟨hadded, hsup, htomb⟩ := isEmpty_iff.mp h
  have hsup' : head.superseded = .empty := OrdMap.ext_get? fun u => by
    rw [OrdMap.get?, hsup]
    rfl
  cases head
  simp_all [empty]

/-- **What a cut lists.** -/
theorem Ok.mem_live (h : w.Ok) {env : PublishEnv} {seed : Seed}
    (hseed : w.site.seed (w.clocks env) = some seed) :
    (seed.head w.site.orch.edgesEligible).anchor = w.head.anchor ∧
      (w.site.orch.edgesEligible = true → ∀ u, w.site.Lists (w.clocks env) seed u ↔ w.InCut env u) ∧
      (w.site.orch.edgesEligible = false → ∀ u ∈ w.liveHead,
        w.site.Lists (w.clocks env) seed u) := by
  rcases h.seed env with htrust | ⟨hempty, hcache, hregen⟩
  · rw [htrust] at hseed
    cases hseed
    refine ⟨rfl, fun hel u => ?_, fun hel u hu => ?_⟩
    · rw [InCut, liveHead, mem_liveSet_iff]
      constructor
      · rintro ⟨hm | ha | hi | ⟨hbarrier, -⟩, hex, hpub⟩
        · exact ⟨.inl ⟨.inl hm, hex⟩, hex, fun hj => hpub ⟨hel, hj⟩⟩
        · exact ⟨.inl ⟨.inr ha, hex⟩, hex, fun hj => hpub ⟨hel, hj⟩⟩
        · exact ⟨.inr hi, hex, fun hj => hpub ⟨hel, hj⟩⟩
        · rw [hel] at hbarrier
          cases hbarrier
      · rintro ⟨⟨hm | ha, -⟩ | hi, hex, hpub⟩
        · exact ⟨.inl hm, hex, fun hj => hpub hj.2⟩
        · exact ⟨.inr (.inl ha), hex, fun hj => hpub hj.2⟩
        · exact ⟨.inr (.inr (.inl hi)), hex, fun hj => hpub hj.2⟩
    · rw [liveHead, mem_liveSet_iff] at hu
      refine ⟨hu.1.imp_right .inl, hu.2, fun hc => ?_⟩
      rw [hel] at hc
      cases hc.1
  · rw [hregen] at hseed
    cases hseed
    obtain ⟨hanchor, hadded, hexcludes⟩ :=
      head_regenerated w.site.forkFiles env.now w.site.orch.edgesEligible
    have hlatest : w.site.forkFiles.latestSnapshot = w.head.anchor := h.anchor.symm
    rw [hlatest] at hanchor hadded hexcludes
    have hnone := excludes_of_isEmpty hempty
    have hlive : ∀ u, u ∈ w.liveHead ↔ u ∈ w.site.manifest w.head.anchor := fun u => by
      rw [liveHead, mem_liveSet_iff, (isEmpty_iff.mp hempty).1]
      simp [hnone u]
    refine ⟨hanchor, fun hel u => ?_, fun hel u hu => ?_⟩
    · have hjoining : u ∈ w.joining env ↔ u ∈ w.site.forkFiles.confirmedInputs w.head.anchor ∨
            u ∈ (w.site.orch.publishable w.head.anchor).map Prod.fst := by
        rw [joining, publishedInputs, mem_append, h.reconciles hcache]
        rfl
      have hlists : w.site.Lists (w.clocks env) (w.site.forkFiles.regenerated env.now) u ↔
          (u ∈ w.site.manifest w.head.anchor ∨ Holds w.site.index u ∧
              beyond w.head.anchor u = true ∨ u ∈ w.site.forkFiles.confirmedInputs w.head.anchor) ∧
            u ∉ w.site.forkFiles.confirmedInputs w.head.anchor ∧
            u ∉ (w.site.orch.publishable w.head.anchor).map Prod.fst := by
        rw [Site.Lists, hanchor, hadded, hexcludes, mem_confirmed_iff]
        simp only [hel, true_and, Bool.true_eq_false, false_and, or_false]
        exact and_congr_left fun _ => or_congr_right ⟨fun h => h.elim id .inl, .inl⟩
      rw [hlists, InCut, hlive, hjoining]
      constructor
      · rintro ⟨hm | hi | hin, hins, hpub⟩
        · exact ⟨.inl hm, hnone u, not_or.mpr ⟨hins, hpub⟩⟩
        · exact ⟨.inr hi, hnone u, not_or.mpr ⟨hins, hpub⟩⟩
        · exact absurd hin hins
      · rintro ⟨hm | hi, -, hnot⟩
        · exact ⟨.inl hm, not_or.mp hnot⟩
        · exact ⟨.inr (.inl hi), not_or.mp hnot⟩
    · refine ⟨.inl (hanchor.symm ▸ (hlive u).mp hu), fun hc => ?_, fun hc => ?_⟩
      · cases hel.symm.trans ((hexcludes u).mp hc).1
      · rw [hel] at hc
        cases hc.1

section Killers

variable (carries : Ulid → List BlockWrite)

/-- Behind the barrier, the rest of the cut carries or overrides what the superseded inputs carry. -/
def KillersListed (w : CutWorld) : Action → Prop
  | .publish env => w.site.attempts (w.clocks env) = true → w.site.orch.edgesEligible = true →
      ∀ i ∈ w.joining env, i ∈ w.liveHead → Overridden carries (w.InCut env) i
  | _ => True

/-- No cut resolves a block to an older write than an earlier cut did, or to none. -/
def Ascending (w : CutWorld) : Prop := w.cuts.Pairwise fun new old => NoRegress carries old new

/-- The body a publish arrives at. -/
def merged (w : CutWorld) (env : PublishEnv) (seed : Seed) : SegmentHead :=
  (w.site.orch.publishMerge w.site.forkFiles (w.clocks env) seed).1

section

variable (h : w.Ok) {env : PublishEnv} {seed : Seed}
  (hseed : w.site.seed (w.clocks env) = some seed)
include h hseed

/-- A publish with nothing to PUT arrives at HEAD. -/
theorem Ok.merged_quiet
    (hquiet : (w.site.merge (w.clocks env) seed).2 = false) :
    w.merged env seed = w.head := by
  have hanchor := (h.mem_live hseed).1
  obtain ⟨hmerged, hrepaired⟩ := w.site.orch.publishMerge_quiet w.site.forkFiles _ seed hquiet
  rw [merged, hmerged]
  rcases h.seed env with htrust | ⟨hempty, -, hregen⟩
  · rw [htrust] at hseed
    cases hseed
    rfl
  · rw [hregen] at hseed
    cases hseed
    have hseedEmpty : ((w.site.forkFiles.regenerated env.now).head
        w.site.orch.edgesEligible).isEmpty = true := by
      simpa [Seed.repaired] using hrepaired
    rw [eq_empty_of_isEmpty hseedEmpty, hanchor]
    exact (eq_empty_of_isEmpty hempty).symm

theorem Ok.noRegress_iff (hatt : w.site.attempts (w.clocks env) = true) :
    NoRegress carries w.liveHead
        (liveSet (w.site.manifest (w.merged env seed).anchor) (w.merged env seed)) ↔
      w.KillersListed carries (.publish env) := by
  obtain ⟨-, hbehind, hbefore⟩ := h.mem_live hseed
  rw [Elide.noRegress_iff]
  simp only [merged, ← lists_iff]
  constructor
  · intro hover _ hel i _ hi
    exact (hover i hi).congr fun v hv => (hbehind hel v).mp hv
  · intro hlisted u hu
    cases hel : w.site.orch.edgesEligible with
    | false => exact overridden_self (hbefore hel u hu)
    | true =>
      by_cases hjoin : u ∈ w.joining env
      · exact (hlisted hatt hel u hjoin hu).congr fun v hv => (hbehind hel v).mpr hv
      · refine overridden_self ((hbehind hel u).mpr ⟨.inl hu, ?_, hjoin⟩)
        exact (mem_liveSet_iff.mp hu).2

end

/-- A publish leaves HEAD and the cuts alone, or adds the body it PUT as the last cut. -/
theorem Ok.publish (h : w.Ok) (env : PublishEnv) : (w.publish env).Ok ∧
      ((w.publish env).cuts = w.cuts ∧ w.KillersListed carries (.publish env) ∨
        ∃ cut, (w.publish env).cuts = cut :: w.cuts ∧
          (NoRegress carries w.liveHead cut ↔ w.KillersListed carries (.publish env))) := by
  have hsite : (w.publish env).site = w.site.publish (w.clocks env) := by
    simp [CutWorld.publish, CutWorld.land, Minting.step, Site.Action.outputs, Site.step]
  cases hatt : w.site.attempts (w.clocks env) with
  | false =>
    obtain ⟨landed, hp⟩ := Site.publishHeadDelta_of_not_attempts hatt
    have hcuts : (w.publish env).cuts = w.cuts := by rw [CutWorld.publish, hp]
    refine ⟨h.congr ?_ hcuts, .inl ⟨hcuts, fun hc => ?_⟩⟩
    · rw [hsite, Site.publish, hp]
      exact ⟨rfl, rfl, rfl, rfl⟩
    · rw [hatt] at hc
      cases hc
  | true =>
    obtain ⟨seed, hseed⟩ : ∃ seed,
        w.site.seed (w.clocks env) = some seed := by
      rcases h.seed env with hs | ⟨-, -, hs⟩
      · exact ⟨_, hs⟩
      · exact ⟨_, hs⟩
    have hiff := h.noRegress_iff carries hseed hatt
    have hanchor : (w.merged env seed).anchor = w.head.anchor :=
      (anchor_publishMerge ..).trans (h.mem_live hseed).1
    have hput : (w.site.orch.publishHeadDelta w.site.forkFiles w.site.stored (w.clocks env)).put =
        if (w.site.merge (w.clocks env) seed).2 then
          some (w.merged env seed) else none :=
      Site.put_publishHeadDelta hatt hseed rfl rfl
    obtain ⟨-, hsnap, -, hcases⟩ := Site.publish_cases hatt hseed
    -- the cache and HEAD are the body arrived at, whether or not it was PUT
    have hok : (w.publish env).head = w.merged env seed →
        (w.publish env).site.orch.headCache = some (w.merged env seed) →
        (∃ older, (w.publish env).cuts = (w.publish env).liveHead :: older) →
        (w.publish env).Ok := by
      intro hhead hcache hcuts
      refine ⟨fun head hc => ?_, fun hc => ?_, ?_, hcuts⟩
      · rw [hhead]
        exact Option.some.inj (hc.symm.trans hcache)
      · cases hc.symm.trans hcache
      · rw [hhead, hanchor, h.anchor, hsite, latestSnapshot, latestSnapshot, hsnap]
    rcases hcases with ⟨hl | ⟨-, hl⟩, -⟩ | ⟨-, hquiet, hstored, hcache⟩ | ⟨-, hmut, -, hstored, hcache⟩
    · cases hl
    · cases hl
    · have hmerged := h.merged_quiet hseed hquiet
      have hcuts : (w.publish env).cuts = w.cuts := by
        rw [hquiet] at hput
        rw [CutWorld.publish, hput]
        rfl
      have hhead : (w.publish env).head = w.head := by rw [head, hsite, hstored, head]
      refine ⟨hok (hhead.trans hmerged.symm) hcache ?_, .inl ⟨hcuts, hiff.mp ?_⟩⟩
      · rw [hcuts, liveHead, hhead]
        exact h.cuts
      · rw [hmerged]
        exact Elide.noRegress_iff.mpr fun u hu => overridden_self hu
    · rw [hmut] at hput
      have hhead : (w.publish env).head = w.merged env seed := by
        rw [head, hsite, hstored]
        rfl
      have hcuts : (w.publish env).cuts =
          liveSet (w.site.manifest (w.merged env seed).anchor) (w.merged env seed) :: w.cuts := by
        rw [CutWorld.publish, hput]
        rfl
      refine ⟨hok hhead hcache ⟨w.cuts, ?_⟩, .inr ⟨_, hcuts, hiff⟩⟩
      rw [hcuts, liveHead, hhead]
      rfl

end Killers

/-! ### Runs -/

section Runs

variable (carries : Ulid → List BlockWrite)

theorem Ok.promote (h : w.Ok) (u : Ulid) :
    (w.promote carries u).Ok ∧ (w.promote carries u).cuts = w.cuts := by
  rw [CutWorld.promote]
  split_ifs
  · have hland := h.land (a := .flush u) ⟨rfl, rfl, rfl, rfl⟩
    exact ⟨hland.congr (Site.SameHead.refl _) rfl, rfl⟩
  · exact ⟨h, rfl⟩

theorem Ok.applyPlans (h : w.Ok) :
    (w.applyPlans carries).Ok ∧ (w.applyPlans carries).cuts = w.cuts := by
  refine List.foldlRecOn (motive := fun w' : CutWorld => w'.Ok ∧ w'.cuts = w.cuts) w.staged _
    ⟨h.congr (Site.SameHead.refl _) rfl, rfl⟩ fun w' hw plan _ => ?_
  obtain ⟨hok, hcuts⟩ := hw
  exact ⟨hok.land (sameHead_applyPlan plan.1 _), hcuts⟩

/-- Steps other than a publish keep the cuts. -/
theorem Ok.step (h : w.Ok) (a : Action) : (w.step carries a).Ok ∧
      ((w.step carries a).cuts = w.cuts ∧ w.KillersListed carries a ∨ ∃ env, a = .publish env) := by
  cases a with
  | write | reserve => exact ⟨h.congr (Site.SameHead.refl _) rfl, .inl ⟨rfl, trivial⟩⟩
  | tick flush =>
    cases flush with
    | none => exact ⟨h.land ⟨rfl, rfl, rfl, rfl⟩, .inl ⟨rfl, trivial⟩⟩
    | some u =>
      obtain ⟨hok, hcuts⟩ := h.promote carries u
      exact ⟨hok.land ⟨rfl, rfl, rfl, rfl⟩, .inl ⟨hcuts, trivial⟩⟩
  | gcCheckpoint u =>
    obtain ⟨hok, hcuts⟩ := h.promote carries u
    exact ⟨hok, .inl ⟨hcuts, trivial⟩⟩
  | pass plans =>
    rw [CutWorld.step, CutWorld.pass]
    split_ifs
    · have hok := h.land (a := .planPass) ⟨rfl, rfl, rfl, rfl⟩
      exact ⟨hok.congr (Site.SameHead.refl _) rfl, .inl ⟨rfl, trivial⟩⟩
    · exact ⟨h, .inl ⟨rfl, trivial⟩⟩
  | applyPlans =>
    obtain ⟨hok, hcuts⟩ := h.applyPlans carries
    exact ⟨hok, .inl ⟨hcuts, trivial⟩⟩
  | handoffCleanup answer since =>
    exact ⟨h.land (sameHead_handoffCleanup answer since true), .inl ⟨rfl, trivial⟩⟩
  | drain answer => exact ⟨h.land (sameHead_drain answer true), .inl ⟨rfl, trivial⟩⟩
  | publish env => exact ⟨(h.publish carries env).1, .inr ⟨env, rfl⟩⟩
  | closeGeneration bins =>
    rw [CutWorld.step]
    split_ifs
    · exact ⟨h.land (sameHead_closeGeneration bins), .inl ⟨rfl, trivial⟩⟩
    · exact ⟨h, .inl ⟨rfl, trivial⟩⟩
  | restart =>
    refine ⟨⟨fun head hc => ?_, fun _ => ?_, ?_, ?_⟩, .inl ⟨rfl, trivial⟩⟩
    · cases hc
    · rfl
    · exact h.anchor
    · exact h.cuts

/-- Under the invariant, a step keeps the cuts ascending exactly when it lists its killers. -/
theorem Ok.ascending_iff (h : w.Ok) (hasc : w.Ascending carries) (a : Action) :
    (w.step carries a).Ascending carries ↔ w.KillersListed carries a := by
  obtain ⟨-, ⟨hcuts, hlisted⟩ | ⟨env, rfl⟩⟩ := h.step carries a
  · refine iff_of_true ?_ hlisted
    rw [Ascending, hcuts]
    exact hasc
  · rcases (h.publish carries env).2 with ⟨hcuts, hlisted⟩ | ⟨cut, hcuts, hiff⟩
    · refine iff_of_true ?_ hlisted
      rw [Ascending, CutWorld.step, hcuts]
      exact hasc
    · obtain ⟨older, holder⟩ := h.cuts
      rw [Ascending] at hasc
      rw [← hiff, Ascending, CutWorld.step, hcuts, pairwise_cons, and_iff_left hasc]
      rw [holder, pairwise_cons] at hasc
      rw [holder, forall_mem_cons]
      exact ⟨fun hall => hall.1, fun hlast => ⟨hlast, fun old hold => (hasc.1 old hold).trans hlast⟩⟩

/-- **Cuts ascend exactly when the killers are listed.** From any user snapshot or a new volume, over
any run, no body that is PUT resolves a block to an older write than an earlier one did, or to none,
if and only if at each publish behind the barrier every block write of a superseded input is carried
or overridden by the rest of the cut. -/
theorem cuts_ascend_iff (index : OrdMap Ulid (List Ulid)) (anchor : Option (Ulid × Finset Ulid))
    (mint nextWrite : ℕ) (actions : List Action) :
    Run.Always (step carries) (Ascending carries) (start index anchor mint nextWrite) actions ↔
      Run.Each (step carries) (KillersListed carries) (start index anchor mint nextWrite) actions :=
  Run.always_iff_each (I := Ok) (L := fun _ _ => True) (fun _ a h _ => (h.step carries a).1)
    (fun _ a h _ hasc => h.ascending_iff carries hasc a) (ok_start index anchor mint nextWrite)
    (pairwise_singleton _ _) (Run.each_of_forall (fun _ _ => trivial) _ _)

end Runs

namespace KillerLeftOpen

/-- Segment 0 carries blocks 0 and 1, segment 1 is compacted from it, segment 2 carries the write that
killed block 0. -/
def carries : Ulid → List BlockWrite
  | 0 => [⟨1, 1⟩, ⟨0, 0⟩]
  | 1 => [⟨1, 1⟩]
  | 2 => [⟨0, 2⟩]
  | _ => []

/-- Blocks 0 and 1 are drained, and block 0 is overwritten before the pass. -/
def actions : List Action :=
  [.reserve, .reserve, .reserve, .write 0, .write 1,
    .tick (some 0), .publish .clear, .closeGeneration [],
    -- the guest overwrites block 0, and the pass sees that in the WAL
    .tick none, .drain fun _ => .done, .write 0, .pass [(1, [0])], .publish .clear,
    .closeGeneration [],
    -- the flush lands in the open generation, no cut is due and none is closed
    .tick (some 2), .applyPlans, .drain fun _ => .done,
    .publish { PublishEnv.clear with cutDue := false },
    -- the edge joins the next cut
    .tick (some 2), .handoffCleanup (fun _ => .done) 0, .drain fun _ => .done, .publish .clear]

/-- The state at the end. -/
def last : CutWorld := actions.foldl (step carries) (start .empty none 0 0)

end KillerLeftOpen

open KillerLeftOpen in
/-- **A killer left in the open generation.** The second cut is segment 0, which has block 0. The last
one is segment 1 alone: the edge is behind the barrier, and the segment with the write that killed
block 0 is still in the open generation. -/
theorem killer_left_open :
    last.cuts = [{1}, {0}, ∅] ∧ Holds last.site.pendingOpen 2 ∧ Resolves carries {0} 0 0 ∧
      (∀ n, ¬ Resolves carries {1} 0 n) ∧
      ¬ Run.Always (step carries) (Ascending carries) (start .empty none 0 0) actions := by
  have hcuts : last.cuts = [{1}, {0}, ∅] := by decide
  have hfirst : Resolves carries {0} 0 0 := by
    refine ⟨⟨0, by decide, by decide⟩, fun u hu => ?_⟩
    rw [Finset.mem_singleton.mp hu]
    decide
  have hnone : ∀ n, ¬ Resolves carries {1} 0 n := by
    rintro n ⟨⟨u, hu, hc⟩, -⟩
    rw [Finset.mem_singleton.mp hu] at hc
    cases (mem_singleton.mp hc)
  refine ⟨hcuts, rfl, hfirst, hnone, fun h => ?_⟩
  have hlast : last.Ascending carries := h.last
  rw [Ascending, hcuts, pairwise_cons] at hlast
  obtain ⟨n, -, hn⟩ := hlast.1 {0} (by simp) 0 0 hfirst
  exact hnone n hn

end CutWorld

end Elide
