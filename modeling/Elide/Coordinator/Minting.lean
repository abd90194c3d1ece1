import Elide.Coordinator.SitePublish

/-!
# Segment ULIDs are used once

A segment's ULID is minted when the work that produces it is taken: a promote, a close pass, a
compaction. The file lands any time later. `Minting` adds the mint and the reserved ULIDs to a site.

What the publish needs from this is `Site.Tidy`: an indexed segment is no input of any table, edge or
tombstone, because an input leaves its directory when the output that names it arrives, and no ULID
comes back.

A ULID is met in one of seven places: it is free, its file is in one of four directories, a handoff
that is outstanding consumes it, or something has retired it. `Site.Tidy` lists which places have no
ULID in common, and a step is described by the places it brings ULIDs to and where they come from.
Most pairs are apart after the step because those they come from were (`Site.Tidy.move`); what is left
to prove of a step is the few pairs it could bring together.

## Main results

* `Site.Tidy.move`: the rule by which every step of a site keeps its ULIDs apart.
* `Minting.Ok.step`: every step of a site with its mint does, and lands segments under ULIDs that were
  reserved for them.
-/

namespace Elide

open List RepackBin Orchestrator Site OrdMap Prod

/-- `u` is a file of the directory. -/
def Holds {ν : Type*} (dir : OrdMap Ulid ν) (u : Ulid) : Prop := (dir.get? u).isSome = true

/-- A table of the directory names `u` as an input. -/
def Names (dir : OrdMap Ulid (List Ulid)) (u : Ulid) : Prop :=
  ∃ output inputs, dir.get? output = some inputs ∧ u ∈ inputs

section Directories

variable {dir : OrdMap Ulid (List Ulid)} {u v : Ulid} {inputs : List Ulid}

theorem holds_insert {ν : Type*} {dir : OrdMap Ulid ν} {x : ν} :
    Holds (dir.insert u x) v ↔ v = u ∨ Holds dir v := by
  rw [Holds, get?_insert]
  split_ifs with h <;> simp [h, Holds]

theorem holds_erase {ν : Type*} {dir : OrdMap Ulid ν} :
    Holds (dir.erase u) v ↔ v ≠ u ∧ Holds dir v := by
  rw [Holds, get?_erase]
  split_ifs with h <;> simp [h, Holds]

theorem holds_foldl_erase {us : List Ulid} :
    Holds (us.foldl erase dir) v ↔ v ∉ us ∧ Holds dir v := by
  induction us generalizing dir with
  | nil => simp
  | cons w us ih =>
    rw [foldl_cons, ih, holds_erase, mem_cons]
    tauto

theorem Names.of_insert (h : Names (dir.insert u inputs) v) : Names dir v ∨ v ∈ inputs := by
  obtain ⟨output, ins, hget, hv⟩ := h
  rw [get?_insert] at hget
  split_ifs at hget
  · cases hget
    exact .inr hv
  · exact .inl ⟨output, ins, hget, hv⟩

theorem Names.of_erase (h : Names (dir.erase u) v) : Names dir v := by
  obtain ⟨output, ins, hget, hv⟩ := h
  rw [get?_erase] at hget
  split_ifs at hget
  exact ⟨output, ins, hget, hv⟩

theorem Names.of_foldl_erase {us : List Ulid} (h : Names (us.foldl erase dir) v) :
    Names dir v := by
  induction us generalizing dir with
  | nil => exact h
  | cons w us ih => exact (ih h).of_erase

/-- What packing buckets makes of a directory: files are old ones or outputs, inputs are old inputs,
old files or outputs, and no file is an input. -/
structure Packed (dir dir' : OrdMap Ulid (List Ulid)) (outputs : List Ulid) : Prop where
  holds : ∀ u, Holds dir' u → Holds dir u ∨ u ∈ outputs
  names : ∀ u, Names dir' u → Names dir u ∨ Holds dir u ∨ u ∈ outputs
  apart : (∀ u, Holds dir u → ¬ Names dir u) → ∀ u, Holds dir' u → ¬ Names dir' u

theorem packed_pack (bin : RepackBin)
    (hout : ∀ o ∈ bin.output, ¬ Holds dir o ∧ ¬ Names dir o) :
    Packed dir (pack dir bin) bin.output.toList := by
  rw [pack]
  split_ifs with hall
  · have hold : ∀ i ∈ bin.inputs, Holds dir i := by
      simp only [Bool.and_eq_true, all_eq_true] at hall
      exact hall.2
    rcases hbin : bin.output with _ | output
    · refine ⟨fun u hu => .inl (holds_foldl_erase.mp hu).2, fun u hu => .inl hu.of_foldl_erase,
        fun h u hu hn => h u (holds_foldl_erase.mp hu).2 hn.of_foldl_erase⟩
    · obtain ⟨hfree, hunnamed⟩ := hout output hbin
      refine ⟨fun u hu => ?_, fun u hu => ?_, fun h u hu hn => ?_⟩
      · rcases holds_insert.mp hu with rfl | hu
        · exact .inr (by simp)
        · exact .inl (holds_foldl_erase.mp hu).2
      · exact hu.of_insert.imp Names.of_foldl_erase fun hin => .inl (hold u hin)
      · rcases holds_insert.mp hu with rfl | hu
        · exact hn.of_insert.elim (fun hn => hunnamed hn.of_foldl_erase) fun hin =>
            hfree (hold u hin)
        · obtain ⟨hnot, hu⟩ := holds_foldl_erase.mp hu
          exact hn.of_insert.elim (fun hn => h u hu hn.of_foldl_erase) hnot
  · exact ⟨fun _ h => .inl h, fun _ h => .inl h, fun h => h⟩

theorem packed_foldl (bins : List RepackBin) (hnodup : (bins.filterMap output).Nodup)
    (hout : ∀ o ∈ bins.filterMap output, ¬ Holds dir o ∧ ¬ Names dir o) :
    Packed dir (bins.foldl pack dir) (bins.filterMap output) := by
  induction bins generalizing dir with
  | nil => exact ⟨fun _ h => .inl h, fun _ h => .inl h, fun h => h⟩
  | cons bin bins ih =>
    have hsplit : (bin :: bins).filterMap output = bin.output.toList ++ bins.filterMap output := by
      rcases h : bin.output with _ | o <;> simp [h]
    rw [hsplit] at hnodup hout ⊢
    obtain ⟨-, hrest, hdisjoint⟩ := nodup_append.mp hnodup
    have h1 : Packed dir (pack dir bin) bin.output.toList := packed_pack bin fun o ho =>
      hout o (mem_append_left _ (by simpa using ho))
    have h2 : Packed (pack dir bin) (bins.foldl pack (pack dir bin))
        (bins.filterMap output) := ih hrest fun o ho => by
      obtain ⟨hfree, hunnamed⟩ := hout o (mem_append_right _ ho)
      refine ⟨fun hheld => ?_, fun hnamed => ?_⟩
      · exact (h1.holds o hheld).elim hfree fun hin => hdisjoint o hin o ho rfl
      · rcases h1.names o hnamed with h | h | h
        · exact hunnamed h
        · exact hfree h
        · exact hdisjoint o h o ho rfl
    refine ⟨fun u hu => ?_, fun u hu => ?_, fun h => h2.apart (h1.apart h)⟩
    · rcases h2.holds u hu with hu | hu
      · exact (h1.holds u hu).imp_right (mem_append_left _)
      · exact .inr (mem_append_right _ hu)
    · rcases h2.names u hu with hu | hu | hu
      · exact (h1.names u hu).imp_right (Or.imp_right (mem_append_left _))
      · exact .inr ((h1.holds u hu).imp_right (mem_append_left _))
      · exact .inr (.inr (mem_append_right _ hu))

end Directories

namespace Site

/-- A waiting edge, an edge or a tombstone of a body, a table, or a finished handoff (`gone`) names
`u` as an input. -/
def Retired (s : Site) (gone : List Ulid) (u : Ulid) : Prop :=
  (∃ head, (s.stored = .body head ∨ s.orch.headCache = some head) ∧ head.Excludes u) ∨
    u ∈ s.orch.tickSuperseded.map fst ∨ u ∈ gone ∨
    Names s.pendingOpen u ∨ Names s.pendingUpload u ∨ Names s.index u

/-- An outstanding handoff names `u` as an input. -/
def Consumed (s : Site) (u : Ulid) : Prop :=
  ∃ output handoff, s.gc.get? output = some handoff ∧ u ∈ handoff.inputs

/-- Each ULID is in one place. Only an output whose handoff could not be finalized is under `gc/` and
in the index, and only an input of an outstanding handoff is still indexed. -/
structure Tidy (s : Site) (gone : List Ulid) (free : Ulid → Prop) : Prop where
  free : ∀ u, free u → ¬ Holds s.pendingOpen u ∧ ¬ Holds s.pendingUpload u ∧ ¬ Holds s.gc u ∧
    ¬ Holds s.index u ∧ ¬ s.Consumed u ∧ ¬ s.Retired gone u
  opened : ∀ u, Holds s.pendingOpen u → ¬ Holds s.pendingUpload u ∧ ¬ Holds s.gc u ∧
    ¬ Holds s.index u ∧ ¬ s.Consumed u ∧ ¬ s.Retired gone u
  upload : ∀ u, Holds s.pendingUpload u → ¬ Holds s.gc u ∧ ¬ Holds s.index u ∧ ¬ s.Consumed u ∧
    ¬ s.Retired gone u
  gc : ∀ u, Holds s.gc u → ¬ s.Consumed u ∧ ¬ s.Retired gone u
  index : ∀ u, Holds s.index u → ¬ s.Retired gone u

/-- Where a ULID is met. -/
inductive Place where
  | free
  | opened
  | upload
  | gc
  | index
  | consumed
  | retired
  deriving DecidableEq

/-- The later places that have no ULID in common with this one. -/
def Place.apart : Place → List Place
  | free => [opened, upload, gc, index, consumed, retired]
  | opened => [upload, gc, index, consumed, retired]
  | upload => [gc, index, consumed, retired]
  | gc => [consumed, retired]
  | index => [retired]
  | consumed | retired => []

variable {s : Site} {gone : List Ulid}

theorem retired_of_names {u : Ulid}
    (hu : Names s.pendingOpen u ∨ Names s.pendingUpload u ∨ Names s.index u) : s.Retired gone u :=
  .inr (.inr (.inr hu))

/-- What a step of the files alone retires was retired, or a table names it afterwards. -/
theorem Retired.of_files {s' : Site} {u : Ulid} (hu : s'.Retired gone u)
    (hstored : s'.stored = s.stored) (horch : s'.orch = s.orch) :
    s.Retired gone u ∨ Names s'.pendingOpen u ∨ Names s'.pendingUpload u ∨ Names s'.index u := by
  rw [Retired, hstored, horch] at hu
  rcases hu with hu | hu | hu | hu
  · exact .inl (.inl hu)
  · exact .inl (.inr (.inl hu))
  · exact .inl (.inr (.inr (.inl hu)))
  · exact .inr hu

theorem names_of_confirmedInputs {anchor : Option Ulid} {u : Ulid}
    (hu : u ∈ s.forkFiles.confirmedInputs anchor) : Names s.index u := by
  obtain ⟨⟨input, output⟩, hedge, rfl⟩ := mem_map.mp hu
  obtain ⟨⟨o, inputs⟩, hconf, hin⟩ := mem_flatMap.mp hedge
  obtain ⟨i, hi, heq⟩ := mem_map.mp hin
  cases heq
  exact ⟨o, inputs, mem_entries_iff.mp (mem_filter.mp hconf).1, hi⟩

/-- A publish takes on no waiting edges. -/
theorem tickSuperseded_publish {env : PublishEnv} {seed : Seed} (hatt : s.attempts env = true)
    (hseed : s.seed env = some seed) (u : Ulid)
    (hu : u ∈ (s.publish env).orch.tickSuperseded.map fst) :
    u ∈ s.orch.tickSuperseded.map fst := by
  have hp := publishHeadDelta_of_attempts hatt
  rw [hseed] at hp
  obtain ⟨e, he, rfl⟩ := mem_map.mp hu
  refine mem_map_of_mem ?_
  simp only [publish, hp, publishFrom] at he
  split_ifs at he <;> simp only [cutLanded] at he
  · exact he
  · split_ifs at he
    · cases he
    · exact he
  · split_ifs at he
    · cases he
    · exact he
  · exact (mem_filter.mp he).1
  · exact he

/-- The ULID is at the place. -/
def At (s : Site) (gone : List Ulid) (free : Ulid → Prop) : Place → Ulid → Prop
  | .free => free
  | .opened => Holds s.pendingOpen
  | .upload => Holds s.pendingUpload
  | .gc => Holds s.gc
  | .index => Holds s.index
  | .consumed => s.Consumed
  | .retired => s.Retired gone

theorem tidy_iff {free : Ulid → Prop} :
    Tidy s gone free ↔ ∀ p u, s.At gone free p u → ∀ q ∈ p.apart, ¬ s.At gone free q u := by
  constructor
  · intro h p u hu
    cases p with
    | free => simpa [Place.apart, At] using h.free u hu
    | opened => simpa [Place.apart, At] using h.opened u hu
    | upload => simpa [Place.apart, At] using h.upload u hu
    | gc => simpa [Place.apart, At] using h.gc u hu
    | index => simpa [Place.apart, At] using h.index u hu
    | consumed | retired => nofun
  · intro h
    refine ⟨fun u hu => ?_, fun u hu => ?_, fun u hu => ?_, fun u hu => ?_, fun u hu => ?_⟩
    · simpa [Place.apart, At] using h .free u hu
    · simpa [Place.apart, At] using h .opened u hu
    · simpa [Place.apart, At] using h .upload u hu
    · simpa [Place.apart, At] using h .gc u hu
    · simpa [Place.apart, At] using h .index u hu

namespace Tidy

variable {s s' : Site} {gone gone' : List Ulid} {free free' : Ulid → Prop}

/-- A step that brings ULIDs to a place from others. Where the places they come from are apart, so are
the places they come to; the other pairs are to be looked at. -/
theorem move (h : Tidy s gone free) (extra : Place → List Place) (clash : List (Place × Place))
    (hfrom : ∀ p u, s'.At gone' free' p u → s.At gone free p u ∨ ∃ q ∈ extra p, s.At gone free q u)
    (hclash : ∀ c ∈ clash, ∀ u, s'.At gone' free' c.1 u → ¬ s'.At gone' free' c.2 u)
    (hapart : ∀ p, ∀ q ∈ p.apart, (p, q) ∈ clash ∨ ∀ p' ∈ p :: extra p, ∀ q' ∈ q :: extra q,
      q' ∈ p'.apart ∨ p' ∈ q'.apart) : Tidy s' gone' free' := by
  rw [tidy_iff] at h ⊢
  intro p u hp q hpq hq
  rcases hapart p q hpq with hmem | hmem
  · exact hclash _ hmem u hp hq
  · obtain ⟨p', hp', hpu⟩ := (exists_mem_cons_iff (s.At gone free · u) _ _).mpr (hfrom p u hp)
    obtain ⟨q', hq', hqu⟩ := (exists_mem_cons_iff (s.At gone free · u) _ _).mpr (hfrom q u hq)
    rcases hmem p' hp' q' hq' with hin | hin
    · exact h p' u hpu q' hin hqu
    · exact h q' u hqu p' hin hpu

/-- A step that moves no segment and retires none. -/
theorem mono (h : Tidy s gone free)
    (hfrom : ∀ p u, s'.At gone' free' p u → s.At gone free p u) : Tidy s' gone' free' :=
  h.move (fun _ => []) [] (fun p u hu => .inl (hfrom p u hu)) nofun fun p => by cases p <;> decide

theorem weaken (h : Tidy s gone free) (hfree : ∀ u, free' u → free u) : Tidy s gone free' :=
  ⟨fun u hu => h.free u (hfree u hu), h.opened, h.upload, h.gc, h.index⟩

/-- A step of the task or of HEAD. -/
theorem of_files (h : Tidy s gone free) (hopen : s'.pendingOpen = s.pendingOpen)
    (hupload : s'.pendingUpload = s.pendingUpload) (hgc : s'.gc = s.gc)
    (hindex : s'.index = s.index)
    (hhead : ∀ head u, (s'.stored = .body head ∨ s'.orch.headCache = some head) →
      head.Excludes u → s.Retired gone u)
    (htick : ∀ u ∈ s'.orch.tickSuperseded.map fst, s.Retired gone u)
    (hgone : ∀ u ∈ gone', s.Retired gone u) : Tidy s' gone' free := by
  refine h.mono fun p u hu => ?_
  cases p with
  | retired =>
    rcases hu with ⟨head, hwhere, hex⟩ | hu | hu | hu
    · exact hhead head u hwhere hex
    · exact htick u hu
    · exact hgone u hu
    · rw [hopen, hupload, hindex] at hu
      exact retired_of_names hu
  | _ => simpa only [At, Consumed, hopen, hupload, hgc, hindex] using hu

variable {u : Ulid}

section

variable (h : Tidy s gone free)
include h

theorem flush (hu : free u) : Tidy (s.flush u) gone fun v => free v ∧ v ≠ u := by
  have hretired : ∀ v, (s.flush u).Retired gone v → s.Retired gone v := by
    intro v hv
    rcases Retired.of_files (s := s) hv rfl rfl with hv | hv | hv
    · exact hv
    · exact retired_of_names (.inl (hv.of_insert.resolve_right not_mem_nil))
    · exact retired_of_names (.inr hv)
  refine h.move (fun | .opened => [.free] | _ => []) [(.free, .opened)] (fun p v hv => ?_)
    (forall_mem_singleton.mpr fun v hv hc => ?_) fun p => by cases p <;> decide
  · cases p with
    | free => exact .inl hv.1
    | opened => exact (holds_insert.mp hv).symm.imp_right fun (he : v = u) => ⟨.free, by simp, he ▸ hu⟩
    | retired => exact .inl (hretired v hv)
    | _ => exact .inl hv
  · exact (holds_insert.mp hc).elim hv.2 (h.free v hv.1).1

/-- Packing the open generation. -/
theorem packOpen {dir : OrdMap Ulid (List Ulid)} {outputs : List Ulid}
    (hp : Packed s.pendingOpen dir outputs) (hout : ∀ o ∈ outputs, free o) :
    Tidy { s with pendingOpen := dir } gone fun v => free v ∧ v ∉ outputs := by
  have hold : ∀ v, ({ s with pendingOpen := dir } : Site).Retired gone v →
      s.Retired gone v ∨ Names dir v := by
    intro v hv
    rcases Retired.of_files (s := s) hv rfl rfl with hv | hv | hv
    · exact .inl hv
    · exact .inr hv
    · exact .inl (retired_of_names (.inr hv))
  have hapart := hp.apart fun v hv hn => (h.opened v hv).2.2.2.2 (retired_of_names (.inl hn))
  have hnames : ∀ v, Names dir v → s.Retired gone v ∨ Holds s.pendingOpen v ∨ v ∈ outputs :=
    fun v hv => (hp.names v hv).imp_left fun hn => retired_of_names (.inl hn)
  refine h.move (fun | .opened => [.free] | .retired => [.opened, .free] | _ => [])
    [(.free, .opened), (.opened, .retired), (.free, .retired)] (fun p v hv => ?_) ?_ fun p => by
      cases p <;> decide
  · cases p with
    | free => exact .inl hv.1
    | opened => exact (hp.holds v hv).imp_right fun hv => ⟨.free, by simp, hout v hv⟩
    | retired =>
      rcases hold v hv with hv | hv
      · exact .inl hv
      · rcases hnames v hv with hv | hv | hv
        · exact .inl hv
        · exact .inr ⟨.opened, by simp, hv⟩
        · exact .inr ⟨.free, by simp, hout v hv⟩
    | _ => exact .inl hv
  · refine forall_mem_cons.mpr ⟨fun v hv hc => ?_, forall_mem_cons.mpr
      ⟨fun v hv hc => ?_, forall_mem_singleton.mpr fun v hv hc => ?_⟩⟩
    · exact (hp.holds v hc).elim (h.free v hv.1).1 hv.2
    · rcases hold v hc with hc | hc
      · exact (hp.holds v hv).elim (fun hv => (h.opened v hv).2.2.2.2 hc) fun hv =>
          (h.free v (hout v hv)).2.2.2.2.2 hc
      · exact hapart v hv hc
    · obtain ⟨h1, -, -, -, -, h6⟩ := h.free v hv.1
      rcases hold v hc with hc | hc
      · exact h6 hc
      · exact (hnames v hc).elim h6 fun hc => hc.elim h1 hv.2

/-- The rotate: the open generation becomes the upload generation. -/
theorem rotate :
    Tidy { s with pendingOpen := .empty, pendingUpload := s.pendingOpen } gone free := by
  refine h.move (fun | .upload => [.opened] | _ => []) [(.opened, .upload)] (fun p v hv => ?_)
    (forall_mem_singleton.mpr nofun) fun p => by cases p <;> decide
  cases p with
  | opened => cases hv
  | upload => exact .inr ⟨.opened, by simp, hv⟩
  | retired =>
    rcases Retired.of_files (s := s) hv rfl rfl with hv | ⟨_, _, hget, -⟩ | hv | hv
    · exact .inl hv
    · cases hget
    · exact .inl (retired_of_names (.inl hv))
    · exact .inl (retired_of_names (.inr (.inr hv)))
  | _ => exact .inl hv

theorem applyPlan {handoff : Handoff} (hu : free u) :
    Tidy (s.applyPlan u handoff) gone fun v => free v ∧ v ≠ u := by
  rw [Site.applyPlan]
  split_ifs with hguard
  swap
  · exact h.weaken fun _ h => h.1
  have hinputs : ∀ i ∈ handoff.inputs, Holds s.index i ∧ ¬ Holds s.gc i := by
    intro i hi
    simp only [Bool.and_eq_true, all_eq_true, Option.isNone_iff_eq_none] at hguard
    obtain ⟨hindexed, hnone⟩ := hguard.2 i hi
    refine ⟨hindexed, fun hc => ?_⟩
    rw [Holds, hnone] at hc
    cases hc
  have hconsumed : ∀ v, ({ s with gc := s.gc.insert u handoff } : Site).Consumed v →
      s.Consumed v ∨ v ∈ handoff.inputs := by
    rintro v ⟨output, ho, hget, hv⟩
    rw [get?_insert] at hget
    split_ifs at hget
    · cases hget
      exact .inr hv
    · exact .inl ⟨output, ho, hget, hv⟩
  refine h.move (fun | .gc => [.free] | .consumed => [.index] | _ => [])
    [(.free, .gc), (.gc, .consumed)] (fun p v hv => ?_) (forall_mem_cons.mpr
      ⟨fun v hv hc => ?_, forall_mem_singleton.mpr fun v hv hc => ?_⟩) fun p => by cases p <;> decide
  · cases p with
    | free => exact .inl hv.1
    | gc => exact (holds_insert.mp hv).symm.imp_right fun (he : v = u) => ⟨.free, by simp, he ▸ hu⟩
    | consumed =>
      exact (hconsumed v hv).imp_right fun hin => ⟨.index, by simp, (hinputs v hin).1⟩
    | _ => exact .inl hv
  · exact (holds_insert.mp hc).elim hv.2 (h.free v hv.1).2.2.1
  · rcases holds_insert.mp hv with rfl | hv
    · obtain ⟨-, -, -, h4, h5, -⟩ := h.free v hu
      exact (hconsumed v hc).elim h5 fun hin => h4 (hinputs v hin).1
    · exact (hconsumed v hc).elim (h.gc v hv).1 fun hin => (hinputs v hin).2 hv

/-- The drain indexes a sealed segment. -/
theorem drainOne {inputs : List Ulid} (hu : s.pendingUpload.get? u = some inputs)
    (answer : DrainAnswer) : Tidy (s.drainOne u inputs answer) gone free := by
  cases answer with
  | uploadFailed => exact h
  | promoteFailed => exact ⟨h.free, h.opened, h.upload, h.gc, h.index⟩
  | done =>
    have hheld : Holds s.pendingUpload u := by
      rw [Holds, hu]
      rfl
    have hretired : ∀ v, (s.drainOne u inputs .done).Retired gone v → s.Retired gone v := by
      intro v hv
      rcases Retired.of_files (s := s) hv rfl rfl with hv | hv | hv | hv
      · exact hv
      · exact retired_of_names (.inl hv)
      · exact retired_of_names (.inr (.inl hv.of_erase))
      · rcases hv.of_insert with hv | hv
        · exact retired_of_names (.inr (.inr hv))
        · exact retired_of_names (.inr (.inl ⟨u, inputs, hu, hv⟩))
    have hindex : ∀ v, Holds (s.drainOne u inputs .done).index v → v = u ∨ Holds s.index v :=
      fun v hv => holds_insert.mp hv
    refine h.move (fun | .index => [.upload] | _ => []) [(.upload, .index)] (fun p v hv => ?_)
      (forall_mem_singleton.mpr fun v hv hc => ?_) fun p => by cases p <;> decide
    · cases p with
      | upload => exact .inl (holds_erase.mp hv).2
      | index => exact (hindex v hv).symm.imp_right fun (he : v = u) => ⟨.upload, by simp, he ▸ hheld⟩
      | retired => exact .inl (hretired v hv)
      | _ => exact .inl hv
    · obtain ⟨hne, hv⟩ := holds_erase.mp hv
      exact (hindex v hc).elim hne (h.upload v hv).2.1

/-- The volume indexes the output of a handoff and retires the inputs. -/
theorem promoteHandoff {handoff : Handoff} (hu : s.gc.get? u = some handoff) :
    Tidy (s.promoteHandoff u handoff) (gone ++ handoff.inputs) free := by
  have hheld : Holds s.gc u := by
    rw [Holds, hu]
    rfl
  have hconsumed : ∀ v ∈ handoff.inputs, s.Consumed v := fun v hv => ⟨u, handoff, hu, hv⟩
  have hindex : ∀ v, Holds (s.promoteHandoff u handoff).index v →
      v ∉ handoff.inputs ∧ (v = u ∨ Holds s.index v) := by
    intro v hv
    obtain ⟨hnot, hv⟩ := holds_foldl_erase.mp hv
    split_ifs at hv
    · exact ⟨hnot, holds_insert.mp hv⟩
    · exact ⟨hnot, .inr hv⟩
  have hretired : ∀ v, (s.promoteHandoff u handoff).Retired (gone ++ handoff.inputs) v →
      s.Retired gone v ∨ v ∈ handoff.inputs := by
    rintro v (hv | hv | hv | hv | hv | hv)
    · exact .inl (.inl hv)
    · exact .inl (.inr (.inl hv))
    · exact (mem_append.mp hv).imp_left fun hv => .inr (.inr (.inl hv))
    · exact .inl (retired_of_names (.inl hv))
    · exact .inl (retired_of_names (.inr (.inl hv)))
    · have hn := Names.of_foldl_erase hv
      split_ifs at hn
      · exact hn.of_insert.imp_left fun hn => retired_of_names (.inr (.inr hn))
      · exact .inl (retired_of_names (.inr (.inr hn)))
  refine h.move (fun | .index => [.gc] | .retired => [.consumed] | _ => []) [(.index, .retired)]
    (fun p v hv => ?_) (forall_mem_singleton.mpr fun v hv hc => ?_) fun p => by cases p <;> decide
  · cases p with
    | index =>
      exact (hindex v hv).2.symm.imp_right fun (he : v = u) => ⟨.gc, by simp, he ▸ hheld⟩
    | retired => exact (hretired v hv).imp_right fun hin => ⟨.consumed, by simp, hconsumed v hin⟩
    | _ => exact .inl hv
  · obtain ⟨hnot, hv⟩ := hindex v hv
    rcases hretired v hc with hr | hr
    · rcases hv with rfl | hv
      · exact (h.gc v hheld).2 hr
      · exact h.index v hv hr
    · exact hnot hr

end

theorem drainLoop (answer : Ulid → DrainAnswer) (es : List (Ulid × List Ulid)) :
    ∀ {s : Site}, Tidy s gone free → es.Pairwise (fun a b => a.1 < b.1) →
      (∀ e ∈ es, s.pendingUpload.get? e.1 = some e.2) →
      Tidy (drainLoop answer es s).1 gone free := by
  induction es with
  | nil => exact fun h _ _ => h
  | cons e es ih =>
    intro s h hsorted hget
    obtain ⟨hlt, hsorted⟩ := pairwise_cons.mp hsorted
    have he := hget e mem_cons_self
    rw [Site.drainLoop]
    cases answer e.1 with
    | done =>
      refine ih (h.drainOne he .done) hsorted fun e' he' => ?_
      have hne : e'.1 ≠ e.1 := (hlt e' he').ne'
      simp only [Site.drainOne, get?_erase, if_neg hne]
      exact hget e' (mem_cons_of_mem _ he')
    | uploadFailed => exact h.drainOne he .uploadFailed
    | promoteFailed => exact h.drainOne he .promoteFailed

theorem drain (h : Tidy s [] free) (answer : Ulid → DrainAnswer) (records : Bool) :
    Tidy (s.drain answer records) [] free := by
  have hloop := drainLoop answer s.pendingUpload.entries h s.pendingUpload.sorted
    fun e he => mem_entries_iff.mp he
  rw [Site.drain]
  split_ifs
  · exact ⟨hloop.free, hloop.opened, hloop.upload, hloop.gc, hloop.index⟩
  · exact hloop

/-- What the handoff loop leaves, with the inputs of what it completed counted as gone. -/
theorem handoffLoop (answer : Ulid → HandoffAnswer) (es : List (Ulid × Handoff)) :
    ∀ {s : Site} {gone : List Ulid}, Tidy s gone free → es.Pairwise (fun a b => a.1 < b.1) →
      (∀ e ∈ es, s.gc.get? e.1 = some e.2) →
      ∃ gone', Tidy (handoffLoop answer es s).1 gone' free ∧ (∀ u ∈ gone, u ∈ gone') ∧
        ∀ outcomes, (handoffLoop answer es s).2 = some outcomes →
          ∀ e ∈ outcomes, ∀ u ∈ e.2.inputs, u ∈ gone' := by
  induction es with
  | nil =>
    intro s gone h _ _
    refine ⟨gone, h, fun _ hu => hu, fun outcomes ho e he => ?_⟩
    cases ho
    cases he
  | cons e es ih =>
    intro s gone h hsorted hget
    obtain ⟨hlt, hsorted⟩ := pairwise_cons.mp hsorted
    have he := hget e mem_cons_self
    have hrest : ∀ e' ∈ es, s.gc.get? e'.1 = some e'.2 := fun e' he' =>
      hget e' (mem_cons_of_mem _ he')
    have hup : Tidy (s.uploadHandoff e.1 e.2) gone free :=
      ⟨h.free, h.opened, h.upload, h.gc, h.index⟩
    rw [Site.handoffLoop]
    cases answer e.1 with
    | uploadFailed =>
      split_ifs
      · exact ⟨gone, h, fun _ hu => hu, fun outcomes ho => by cases ho⟩
      · exact ih h hsorted hrest
    | promoteFailed => exact ih hup hsorted hrest
    | finalizeFailed =>
      obtain ⟨gone', htidy, hsub, hout⟩ := ih (hup.promoteHandoff he) hsorted hrest
      exact ⟨gone', htidy, fun u hu => hsub u (mem_append_left _ hu), hout⟩
    | done =>
      have hdone : Tidy { (s.uploadHandoff e.1 e.2).promoteHandoff e.1 e.2 with
          gc := s.gc.erase e.1 } (gone ++ e.2.inputs) free := by
        refine (hup.promoteHandoff he).mono fun p u hu => ?_
        cases p with
        | gc => exact (holds_erase.mp hu).2
        | consumed =>
          obtain ⟨output, handoff, hgc, hin⟩ := hu
          simp only [get?_erase] at hgc
          split_ifs at hgc
          exact ⟨output, handoff, hgc, hin⟩
        | _ => exact hu
      have hrest' : ∀ e' ∈ es, (s.gc.erase e.1).get? e'.1 = some e'.2 := fun e' he' => by
        rw [get?_erase, if_neg (hlt e' he').ne']
        exact hrest e' he'
      obtain ⟨gone', htidy, hsub, hout⟩ := ih hdone hsorted hrest'
      refine ⟨gone', htidy, fun u hu => hsub u (mem_append_left _ hu), ?_⟩
      intro outcomes ho e' he' u hu
      obtain ⟨rest, hrestOut, rfl⟩ := Option.map_eq_some_iff.mp ho
      rcases mem_cons.mp he' with rfl | he'
      · exact hsub u (mem_append_right _ hu)
      · exact hout rest hrestOut e' he' u hu

/-- Counting fewer names as gone. -/
theorem forget (h : Tidy s gone free) : Tidy s [] free := by
  refine h.mono fun p u hu => ?_
  cases p with
  | retired =>
    rcases hu with hu | hu | hu | hu
    · exact .inl hu
    · exact .inr (.inl hu)
    · cases hu
    · exact .inr (.inr (.inr hu))
  | _ => exact hu

theorem handoffCleanup (h : Tidy s [] free) (answer : Ulid → HandoffAnswer) (since : ℕ)
    (records : Bool) : Tidy (s.handoffCleanup answer since records) [] free := by
  obtain ⟨gone, htidy, -, hout⟩ := handoffLoop answer s.gc.entries h s.gc.sorted
    fun e he => mem_entries_iff.mp he
  rw [Site.handoffCleanup]
  rcases ho : (Site.handoffLoop answer s.gc.entries s).2 with _ | outcomes
  · exact htidy.forget
  · split_ifs
    · refine htidy.of_files rfl rfl rfl rfl (fun head u hwhere hex => ?_) (fun u hu => ?_)
        (forall_mem_nil _)
      · exact .inl ⟨head, hwhere, hex⟩
      · rw [map_append, mem_append] at hu
        rcases hu with hu | hu
        · exact .inr (.inl hu)
        · -- the edges of the completed handoffs
          obtain ⟨e, he, rfl⟩ := mem_map.mp hu
          obtain ⟨outcome, houtcome, hin⟩ := mem_flatMap.mp he
          obtain ⟨i, hi, rfl⟩ := mem_map.mp hin
          exact .inr (.inr (.inl (hout outcomes ho outcome houtcome i hi)))
    · exact htidy.forget

variable {env : PublishEnv}

/-- The edges a publish looks at name retired segments. -/
theorem retired_of_reconciled {reconcileEdges : Bool} {anchor : Option Ulid}
    (hu : u ∈ (reconciled s.forkFiles env reconcileEdges anchor).map fst) :
    s.Retired gone u := by
  rw [reconciled] at hu
  split_ifs at hu
  · exact retired_of_names (.inr (.inr (names_of_confirmedInputs hu)))
  · cases hu

theorem retired_of_published {reconcileEdges : Bool} {anchor : Option Ulid}
    (hu : u ∈ s.orch.publishedInputs s.forkFiles env reconcileEdges anchor) : s.Retired gone u := by
  rcases mem_append.mp hu with hu | hu
  · exact retired_of_reconciled hu
  · obtain ⟨e, he, rfl⟩ := mem_map.mp hu
    exact .inr (.inl (mem_map_of_mem (mem_filter.mp he).1))

/-- What the seed of a publish excludes is retired. -/
theorem retired_of_seed {seed : Seed} (hseed : s.seed env = some seed)
    (hex : (seed.head s.orch.edgesEligible).Excludes u) : s.Retired gone u := by
  cases seed with
  | trusted head =>
    rcases trusted_cases hseed with hcache | hstored | ⟨rfl, -⟩
    · exact .inl ⟨head, .inr hcache, hex⟩
    · exact .inl ⟨head, .inl hstored, hex⟩
    · simp [Seed.head, SegmentHead.Excludes, SegmentHead.empty] at hex
  | regenerated head =>
    obtain rfl := eq_regenerate_of_seed hseed
    obtain ⟨-, -, hexcludes⟩ := head_regenerated s.forkFiles env.now s.orch.edgesEligible
    exact retired_of_names (.inr (.inr (names_of_confirmedInputs ((hexcludes u).mp hex).2)))

theorem publish (h : Tidy s [] free) (env : PublishEnv) : Tidy (s.publish env) [] free := by
  have htickNo : ∀ u ∈ s.orch.tickSuperseded.map fst, s.Retired [] u := fun u hu =>
    .inr (.inl hu)
  cases hatt : s.attempts env with
  | false =>
    obtain ⟨landed, hp⟩ := publishHeadDelta_of_not_attempts hatt
    refine h.of_files rfl rfl rfl rfl (fun head u hwhere hex => .inl ⟨head, ?_, hex⟩)
      (fun u hu => htickNo u ?_) (forall_mem_nil _)
    · simpa only [Site.publish, hp] using hwhere
    · simpa only [Site.publish, hp] using hu
  | true =>
    rcases hseed : s.seed env with _ | seed
    · have hp := publishHeadDelta_of_attempts hatt
      rw [hseed] at hp
      refine h.of_files rfl rfl rfl rfl (fun head u hwhere hex => .inl ⟨head, ?_, hex⟩)
        (fun u hu => htickNo u ?_) (forall_mem_nil _)
      · simp only [Site.publish, hp, reduceCtorEq, or_false] at hwhere
        exact .inl hwhere
      · simpa only [Site.publish, hp] using hu
    · have hbody : ∀ u, (s.merge env seed).1.Excludes u → s.Retired [] u := fun u hex => by
        rcases (s.orch.excludes_publishMerge s.forkFiles env seed).mp hex with hex | ⟨-, hpub⟩
        · exact retired_of_seed hseed hex
        · exact retired_of_published hpub
      obtain ⟨-, -, -, hcases⟩ := publish_cases hatt hseed
      refine h.of_files rfl rfl rfl rfl (fun head u hwhere hex => ?_) (fun u hu => ?_)
        (forall_mem_nil _)
      · have hbodies : s.stored = .body head ∨ head = (s.merge env seed).1 := by
          rcases hcases with ⟨-, hstored, hcache⟩ | ⟨-, -, hstored, hcache⟩ |
            ⟨-, -, -, hstored, hcache⟩
          all_goals
            grind
        rcases hbodies with hw | rfl
        · exact .inl ⟨head, .inl hw, hex⟩
        · exact hbody u hex
      · exact htickNo u (tickSuperseded_publish hatt hseed u hu)

/-- A step that leaves the files alone and lets HEAD and the task forget. -/
theorem of_less (h : Tidy s [] free) (hopen : s'.pendingOpen = s.pendingOpen)
    (hupload : s'.pendingUpload = s.pendingUpload) (hgc : s'.gc = s.gc) (hindex : s'.index = s.index)
    (hstored : ∀ head, s'.stored = .body head → s.stored = .body head ∨ ∀ u, ¬ head.Excludes u)
    (hcache : ∀ head, s'.orch.headCache = some head →
      s.orch.headCache = some head ∨ ∀ u, ¬ head.Excludes u)
    (htick : ∀ e ∈ s'.orch.tickSuperseded, e ∈ s.orch.tickSuperseded) : Tidy s' [] free := by
  refine h.of_files hopen hupload hgc hindex (fun head u hwhere hex => ?_) (fun u hu => ?_)
    (forall_mem_nil _)
  · rcases hwhere with hw | hw
    · rcases hstored head hw with hw | hno
      · exact .inl ⟨head, .inl hw, hex⟩
      · exact absurd hex (hno u)
    · rcases hcache head hw with hw | hno
      · exact .inl ⟨head, .inr hw, hex⟩
      · exact absurd hex (hno u)
  · obtain ⟨e, he, rfl⟩ := mem_map.mp hu
    exact .inr (.inl (mem_map_of_mem (htick e he)))

theorem uploadSnapshotMetadata (h : Tidy s [] free) (manifestOk : Ulid → Bool) (putOk : Bool) :
    Tidy (s.uploadSnapshotMetadata manifestOk putOk) [] free := by
  have hempty : ∀ snap u, ¬ (SegmentHead.empty (some snap)).Excludes u := by
    simp [SegmentHead.Excludes, SegmentHead.empty]
  simp only [Site.uploadSnapshotMetadata]
  rcases s.newestUploaded manifestOk with _ | snap
  · exact h.of_less rfl rfl rfl rfl (fun _ h => .inl h) (fun _ h => .inl h) fun _ h => h
  · cases putOk with
    | false => exact h.of_less rfl rfl rfl rfl (fun _ h => .inl h) (fun _ h => by cases h) fun _ h => h
    | true =>
      refine h.of_less rfl rfl rfl rfl (fun head hb => .inr ?_) (fun head hc => .inr ?_)
        fun _ h => h
      · cases hb
        exact hempty snap
      · cases hc
        exact hempty snap

theorem sign (h : Tidy s [] free) (user : Bool) (kept : Finset Ulid) (fresh : Ulid) :
    Tidy (s.sign user kept fresh) [] free := by
  simp only [Site.sign]
  split
  · exact h.of_less rfl rfl rfl rfl (fun _ h => .inl h) (fun _ h => .inl h) fun _ h => h
  · split_ifs
    · exact h
    · exact h
    · exact h.of_less rfl rfl rfl rfl (fun _ h => .inl h) (fun _ h => .inl h) fun _ h => h

end Tidy

end Site

/-- A site with the mint of its segment ULIDs. -/
structure Minting where
  site : Site
  /-- The next ULID. -/
  mint : Ulid
  /-- The ULIDs minted for segments that have not landed: promotes in flight or stashed, outputs of
  passes that have not committed. -/
  reserved : Finset Ulid

/-- The segments a step lands. -/
def Site.Action.outputs : Site.Action → List Ulid
  | .flush u => [u]
  | .repack bins => bins.filterMap output
  | .closeGeneration bins => bins.filterMap output
  | .applyPlan u _ => [u]
  | _ => []

namespace Minting

/-- A new volume. -/
def init : Minting := ⟨.init, 0, ∅⟩

/-- Mint a ULID for a segment to come, or take a step of the site. -/
inductive Action where
  | reserve
  | site (a : Site.Action)

/-- One step. A step lands segments under reserved ULIDs, each once. -/
def step (m : Minting) : Action → Minting
  | .reserve => { m with mint := m.mint + 1, reserved := insert m.mint m.reserved }
  | .site a =>
    if a.outputs.Nodup ∧ ∀ o ∈ a.outputs, o ∈ m.reserved then
      { m with site := m.site.step a, reserved := m.reserved.filter fun u => u ∉ a.outputs }
    else m

/-- No segment has `u` as its ULID yet. -/
def free (m : Minting) (u : Ulid) : Prop := u ∈ m.reserved ∨ m.mint ≤ u

/-- What the steps keep. -/
structure Ok (m : Minting) : Prop where
  reserved : ∀ u ∈ m.reserved, u < m.mint
  tidy : m.site.Tidy [] m.free

theorem ok_init : init.Ok := by
  have hnone : ∀ q u, q ≠ .free → ¬ Site.init.At [] init.free q u := by
    intro q u hq hu
    cases q with
    | free => exact hq rfl
    | opened | upload | gc | index => cases hu
    | consumed => obtain ⟨_, _, ⟨⟩, -⟩ := hu
    | retired =>
      rcases hu with ⟨_, hu | hu, -⟩ | hu | hu | ⟨_, _, hu, -⟩ | ⟨_, _, hu, -⟩ | ⟨_, _, hu, -⟩
      all_goals cases hu
  refine ⟨fun u hu => absurd hu (Finset.notMem_empty u),
    tidy_iff.mpr fun p u _ q hq => hnone q u ?_⟩
  rintro rfl
  cases p <;> simp [Place.apart] at hq

variable {m : Minting}

theorem Ok.reserve (h : m.Ok) : (m.step .reserve).Ok := by
  refine ⟨fun u hu => ?_, ?_⟩
  · rcases Finset.mem_insert.mp hu with rfl | hu
    · exact Nat.lt_succ_self _
    · exact Nat.lt_succ_of_lt (h.reserved u hu)
  · refine h.tidy.weaken fun u hu => ?_
    rcases hu with hu | hu
    · rcases Finset.mem_insert.mp hu with rfl | hu
      · exact .inr le_rfl
      · exact .inl hu
    · exact .inr (Nat.le_of_succ_le hu)

/-- The files a site step with outputs leaves. -/
theorem tidy_site (h : m.Ok) {a : Site.Action} (hnodup : a.outputs.Nodup)
    (hout : ∀ o ∈ a.outputs, o ∈ m.reserved) :
    (m.site.step a).Tidy [] fun u => m.free u ∧ u ∉ a.outputs := by
  have hfree : ∀ o ∈ a.outputs, m.free o := fun o ho => .inl (hout o ho)
  have hpacked : ∀ bins : List RepackBin, (bins.filterMap output).Nodup →
      (∀ o ∈ bins.filterMap output, m.free o) →
      Packed m.site.pendingOpen (bins.foldl pack m.site.pendingOpen)
        (bins.filterMap output) := fun bins hn ho =>
    packed_foldl bins hn fun o hmem => by
      obtain ⟨h1, -, -, -, -, h6⟩ := h.tidy.free o (ho o hmem)
      exact ⟨h1, fun hc => h6 (retired_of_names (.inl hc))⟩
  -- a step that lands no segment frees none
  have hsame : ∀ {s' : Site}, s'.Tidy [] m.free → s'.Tidy [] fun u => m.free u ∧ u ∉ [] :=
    fun h' => h'.weaken fun _ h => h.1
  cases a with
  | flush u =>
    refine (h.tidy.flush (hfree u mem_cons_self)).weaken fun v hv => ?_
    exact ⟨hv.1, fun he => hv.2 (he ▸ mem_cons_self)⟩
  | repack bins => exact h.tidy.packOpen (hpacked bins hnodup hfree) hfree
  | closeGeneration bins =>
    simp only [Site.step, Site.closeGeneration]
    split_ifs with hempty
    · have hopen := h.tidy.packOpen (hpacked bins hnodup hfree) hfree
      exact hopen.rotate
    · exact h.tidy.weaken fun _ h => h.1
  | applyPlan u handoff =>
    refine (h.tidy.applyPlan (hfree u mem_cons_self)).weaken fun v hv => ?_
    exact ⟨hv.1, fun he => hv.2 (he ▸ mem_cons_self)⟩
  | drain answer records => exact hsame (h.tidy.drain answer records)
  | handoffCleanup answer since records => exact hsame (h.tidy.handoffCleanup answer since records)
  | sign user kept fresh => exact hsame (h.tidy.sign user kept fresh)
  | uploadSnapshotMetadata manifestOk putOk =>
    exact hsame (h.tidy.uploadSnapshotMetadata manifestOk putOk)
  | publish env => exact hsame (h.tidy.publish env)
  | tick | planPass =>
    exact hsame (h.tidy.of_less rfl rfl rfl rfl (fun _ h => .inl h) (fun _ h => .inl h)
      fun _ h => h)
  | loseHead | damageHead =>
    exact hsame (h.tidy.of_less rfl rfl rfl rfl nofun (fun _ h => .inl h) fun _ h => h)
  | restart => exact hsame (h.tidy.of_less rfl rfl rfl rfl (fun _ h => .inl h) nofun nofun)

/-- **ULIDs are used once.** -/
theorem Ok.step (h : m.Ok) (a : Action) : (m.step a).Ok := by
  cases a with
  | reserve => exact h.reserve
  | site a =>
    simp only [Minting.step]
    split_ifs with hguard
    · refine ⟨fun u hu => h.reserved u (Finset.mem_filter.mp hu).1, ?_⟩
      refine (tidy_site h hguard.1 hguard.2).weaken fun u hu => ?_
      rcases hu with hu | hu
      · obtain ⟨hu, hnot⟩ := Finset.mem_filter.mp hu
        exact ⟨.inl hu, hnot⟩
      · refine ⟨.inr hu, fun hmem => ?_⟩
        exact absurd hu (not_le.mpr (h.reserved u (hguard.2 u hmem)))
    · exact h

end Minting

end Elide
