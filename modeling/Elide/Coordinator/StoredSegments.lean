import Elide.Coordinator.SitePublish

/-!
# Bodies over stored segments

A body is `Stored` when every segment its live set names is an object of the bucket. Steps that take
nothing away keep that (`Keeps`), which is all of them but publishes and truncations.
-/

namespace Elide

open Finset SegmentHead

namespace Site

/-- Everything the body calls live is an object of the bucket. -/
def Stored (s : Site) (head : SegmentHead) : Prop :=
  ∀ u ∈ liveSet (s.manifest head.anchor) head, u ∈ s.objects

/-- The HEAD object and the body the next publish starts from are stored. -/
structure HeadsStored (s : Site) : Prop where
  stored : ∀ head, s.stored = .body head → s.Stored head
  cached : ∀ head, s.orch.headCache = some head → s.Stored head

/-- What the steps keep: an indexed segment is in the bucket, and the cached body is the stored one
unless it has no edges that a reap could follow. -/
structure Ok (s : Site) : Prop where
  indexed : ∀ u, (s.index.get? u).isSome = true → u ∈ s.objects
  agree : ∀ body head, s.stored = .body body → s.orch.headCache = some head →
    body = head ∨ ∀ u, head.superseded.get? u = none

theorem ok_init : init.Ok := ⟨nofun, nofun⟩

theorem headsStored_init : init.HeadsStored := ⟨nofun, nofun⟩

variable {s s' s'' : Site}

/-! ### Steps that take nothing away -/

/-- A step that deletes no object, writes no body and grows manifests by stored segments only. -/
structure Keeps (s s' : Site) : Prop where
  stored : ∀ head, s'.stored = .body head → s.stored = .body head
  cache : ∀ head, s'.orch.headCache = some head → s.orch.headCache = some head
  objects : s.objects ⊆ s'.objects
  manifest : ∀ anchor, ∀ u ∈ s'.manifest anchor, u ∈ s.manifest anchor ∨ u ∈ s'.objects
  indexed : (∀ u, (s.index.get? u).isSome = true → u ∈ s.objects) →
    ∀ u, (s'.index.get? u).isSome = true → u ∈ s'.objects

namespace Keeps

theorem refl (s : Site) : Keeps s s :=
  ⟨fun _ h => h, fun _ h => h, fun _ h => h, fun _ _ h => .inl h, fun h => h⟩

theorem trans (h : Keeps s s') (h' : Keeps s' s'') : Keeps s s'' where
  stored head hb := h.stored head (h'.stored head hb)
  cache head hc := h.cache head (h'.cache head hc)
  objects := h.objects.trans h'.objects
  manifest anchor u hu := by
    rcases h'.manifest anchor u hu with hm | ho
    · exact (h.manifest anchor u hm).imp_right fun ho => h'.objects ho
    · exact .inr ho
  indexed hi := h'.indexed (h.indexed hi)

theorem isStored (h : Keeps s s') {head : SegmentHead} (hs : s.Stored head) : s'.Stored head := by
  intro u hu
  rw [mem_liveSet_iff] at hu
  obtain ⟨hmem, hex⟩ := hu
  have hold : u ∈ s.manifest head.anchor ∨ u ∈ head.added → u ∈ s'.objects := fun hmem =>
    h.objects (hs u (mem_liveSet_iff.mpr ⟨hmem, hex⟩))
  rcases hmem with hm | ha
  · exact (h.manifest _ u hm).elim (fun hm => hold (.inl hm)) id
  · exact hold (.inr ha)

theorem headsStored (h : Keeps s s') (hs : s.HeadsStored) : s'.HeadsStored :=
  ⟨fun head hb => h.isStored (hs.stored head (h.stored head hb)),
    fun head hc => h.isStored (hs.cached head (h.cache head hc))⟩

theorem ok (h : Keeps s s') (hs : s.Ok) : s'.Ok :=
  ⟨h.indexed hs.indexed, fun body head hb hc =>
    hs.agree body head (h.stored body hb) (h.cache head hc)⟩

end Keeps

/-- A step that changes neither bucket nor index nor manifests, and no cached body. -/
theorem keeps_of_eq (hstored : s'.stored = s.stored)
    (hcache : s'.orch.headCache = s.orch.headCache ∨ s'.orch.headCache = none)
    (hobjects : s'.objects = s.objects) (hsnap : s'.snapshots = s.snapshots)
    (hindex : s'.index = s.index) : Keeps s s' where
  stored head hb := hstored ▸ hb
  cache head hc := by
    rcases hcache with h | h
    · exact h ▸ hc
    · rw [h] at hc
      cases hc
  objects := hobjects ▸ Finset.Subset.refl _
  manifest anchor u hu := by
    rw [manifest, hsnap] at hu
    exact .inl hu
  indexed hi u hu := by
    rw [hindex] at hu
    rw [hobjects]
    exact hi u hu

theorem isSome_of_foldl_erase {us : List Ulid} {m : OrdMap Ulid (List Ulid)} {u : Ulid}
    (h : ((us.foldl OrdMap.erase m).get? u).isSome = true) : (m.get? u).isSome = true := by
  induction us generalizing m with
  | nil => exact h
  | cons v us ih =>
    have hv := ih h
    rw [OrdMap.get?_erase] at hv
    split_ifs at hv
    · cases hv
    · exact hv

theorem keeps_drainOne (u : Ulid) (inputs : List Ulid) (answer : DrainAnswer) :
    Keeps s (s.drainOne u inputs answer) := by
  cases answer with
  | uploadFailed => exact Keeps.refl s
  | promoteFailed =>
    exact ⟨fun _ h => h, fun _ h => h, subset_insert _ _, fun _ _ h => .inl h,
      fun hi v hv => mem_insert_of_mem (hi v hv)⟩
  | done =>
    refine ⟨fun _ h => h, fun _ h => h, subset_insert _ _, fun _ _ h => .inl h, fun hi v hv => ?_⟩
    simp only [drainOne, OrdMap.get?_insert] at hv
    split_ifs at hv with huv
    · exact mem_insert.mpr (.inl huv)
    · exact mem_insert_of_mem (hi v hv)

theorem keeps_drain (answer : Ulid → DrainAnswer) (records : Bool) :
    Keeps s (s.drain answer records) :=
  drain_of_each Keeps.refl Keeps.trans (fun _ _ _ => keeps_of_eq rfl (.inl rfl) rfl rfl rfl)
    (fun _ => keeps_drainOne) s answer records

theorem keeps_uploadHandoff (u : Ulid) (handoff : Handoff) : Keeps s (s.uploadHandoff u handoff) := by
  rw [uploadHandoff]
  split_ifs
  · exact ⟨fun _ h => h, fun _ h => h, subset_insert _ _, fun _ _ h => .inl h,
      fun hi v hv => mem_insert_of_mem (hi v hv)⟩
  · exact keeps_of_eq rfl (.inl rfl) rfl rfl rfl

/-- The output of a handoff is in the bucket when the volume indexes it. -/
theorem keeps_promoteHandoff (u : Ulid) (handoff : Handoff) :
    Keeps s ((s.uploadHandoff u handoff).promoteHandoff u handoff) := by
  have hup := keeps_uploadHandoff (s := s) u handoff
  refine ⟨hup.stored, hup.cache, hup.objects, hup.manifest, fun hi v hv => ?_⟩
  have hv' := isSome_of_foldl_erase hv
  split_ifs at hv' with hcarries
  · rw [OrdMap.get?_insert] at hv'
    split_ifs at hv' with huv
    · simp [promoteHandoff, uploadHandoff, hcarries, huv]
    · exact hup.objects (hi v hv')
  · exact hup.objects (hi v hv')

theorem keeps_handoffCleanup (answer : Ulid → HandoffAnswer) (since : ℕ) (records : Bool) :
    Keeps s (s.handoffCleanup answer since records) :=
  handoffCleanup_of_each Keeps.refl Keeps.trans
    (fun _ _ _ => keeps_of_eq rfl (.inl rfl) rfl rfl rfl) (fun _ => keeps_uploadHandoff)
    (fun _ => keeps_promoteHandoff) (fun _ _ => keeps_of_eq rfl (.inl rfl) rfl rfl rfl) s answer
    since records

theorem keeps_sign (user : Bool) (kept : Finset Ulid) (fresh : Ulid) (hs : s.Ok) :
    Keeps s (s.sign user kept fresh) := by
  have hsigned : Keeps s { s with
      snapshots := s.snapshots.insert (s.pickSnapshotUlid fresh)
        ⟨user, kept.filter fun u => (s.index.get? u).isSome = true⟩
      outstanding := s.pickSnapshotUlid fresh :: s.outstanding } := by
    refine ⟨fun _ h => h, fun _ h => h, fun _ h => h, fun anchor u hu => ?_, fun h => h⟩
    rcases anchor with _ | a
    · exact .inl hu
    · simp only [manifest, Option.bind_some, OrdMap.get?_insert] at hu
      split_ifs at hu
      · exact .inr (hs.indexed u (mem_filter.mp hu).2)
      · exact .inl hu
  simp only [sign]
  rcases s.snapshots.get? (s.pickSnapshotUlid fresh) with _ | existing
  · exact hsigned
  · simp only
    split_ifs
    · exact Keeps.refl s
    · exact Keeps.refl s
    · exact hsigned

end Site

end Elide
