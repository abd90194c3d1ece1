import Elide.LbaMap.Guarded
import Elide.LbaMap.Restamp

/-!
# The LBA map refines a block map

What the LBA map is for: a function from block addresses to the claim held there. `BlockMap` is
that function, and each operation of the map has a meaning on it (`LbaMap.Op.onBlocks`) that says
nothing of extents: an insert sets the blocks of a range, a guarded insert sets those of them that
are open to it. The refinement is one commuting square per operation.

Restamps have no meaning on blocks, since they move the claims of whole extents, so the reachable
maps are those of `LbaMap.Update`: the operations and the two restamps.

## Main results

* `LbaMap.Reachable.inv`, `LbaMap.Reachable.no_overflow` — the invariant, and that no `u64` or
  `u32` sum the code forms can overflow
* `LbaMap.Reachable.refines_blockMap` — the refinement
* `LbaMap.Reachable.claims_counted` — claim refcounts are exact over every run
* `LbaMap.Reachable.consuming_keeps_unowned_iff` — when a structural commit leaves the bytes of
  other writers alone
-/

namespace Elide

open Option OrdMap List

/-- A pointwise block map: hash, payload block offset and claimant of each claimed block. -/
abbrev BlockMap := ℕ → Option (Hash × ℕ × Ulid)

namespace BlockMap

variable (f : BlockMap)

/-- Set every block of `[start, start + len)`. -/
def setRange (start len offset : ℕ) (hash : Hash) (claimant : Ulid) : BlockMap :=
  fun lba =>
    if start ≤ lba ∧ lba < start + len then some (hash, offset + (lba - start), claimant)
    else f lba

/-- The blocks of `[start, start + len)` that are bare or whose claim does not block. -/
def openBlocks (start len : ℕ) (blocks : Ulid → Hash → Bool) : Finset ℕ :=
  (Finset.Ico start (start + len)).filter fun lba => ∀ v ∈ f lba, blocks v.2.2 v.1 = false

/-- Set the open blocks of `[start, start + len)`. -/
def setOpen (start len : ℕ) (hash : Hash) (claimant : Ulid) (blocking : Blocking) :
    BlockMap × Option ℕ :=
  let taken := f.openBlocks start len (blocking.blocks claimant hash)
  (fun lba => if lba ∈ taken then some (hash, lba - start, claimant) else f lba, some taken.card)

/-- Register an entry: the canonical-only kinds change nothing, and each admission policy has its
blocking rule. -/
def register (e : SegmentEntry) (claimant : Ulid) (admission : Admission) : BlockMap × Option ℕ :=
  if e.kind.isCanonicalOnly then (f, some 0)
  else
    match admission with
    | .unconditional => (f.setRange e.startLba e.lbaLength 0 e.hash claimant, some e.lbaLength)
    | .ifNewer => f.setOpen e.startLba e.lbaLength e.hash claimant .higher
    | .consumingInputs inputs => f.setOpen e.startLba e.lbaLength e.hash claimant (.consuming inputs)
    | .outputHorizon horizon =>
      f.setOpen e.startLba e.lbaLength e.hash claimant (.aboveHorizon horizon)

end BlockMap

namespace LbaMap

/-! ## Operations -/

/-- The claim-making operations of the map. -/
inductive Op where
  | insert (startLba lbaLength : ℕ) (hash : Hash) (claimant : Ulid)
  | insertWithOffset (startLba lbaLength payloadBlockOffset : ℕ) (hash : Hash) (claimant : Ulid)
  | insertIfNewer (startLba lbaLength : ℕ) (hash : Hash) (claimant : Ulid)
  | insertConsumingInputs (startLba lbaLength : ℕ) (hash : Hash) (claimant : Ulid)
      (inputs : Finset Ulid)
  | registerEntry (entry : SegmentEntry) (claimant : Ulid)
  | registerEntryIfNewer (entry : SegmentEntry) (claimant : Ulid)
  | registerEntryConsumingInputs (entry : SegmentEntry) (claimant : Ulid) (inputs : Finset Ulid)
  | registerEntryWithHorizon (entry : SegmentEntry) (claimant horizon : Ulid)

/-- An operation run on a map, with the number of blocks it reports; the two plain inserts report
nothing. -/
def apply (m : LbaMap) : Op → LbaMap × Option ℕ
  | .insert s l h c => (m.insert s l h c, none)
  | .insertWithOffset s l o h c => (m.insertWithOffset s l o h c, none)
  | .insertIfNewer s l h c => (m.insertIfNewer s l h c).map id some
  | .insertConsumingInputs s l h c i => (m.insertConsumingInputs s l h c i).map id some
  | .registerEntry e c => (m.registerEntry e c).map id some
  | .registerEntryIfNewer e c => (m.registerEntryIfNewer e c).map id some
  | .registerEntryConsumingInputs e c i => (m.registerEntryConsumingInputs e c i).map id some
  | .registerEntryWithHorizon e c z => (m.registerEntryWithHorizon e c z).map id some

/-- A non-empty extent with no `u64` overflow in its end and no `u32` overflow in its payload. -/
def Fits (startLba lbaLength payloadBlockOffset : ℕ) : Prop :=
  1 ≤ lbaLength ∧ startLba + lbaLength < 2 ^ 64 ∧ payloadBlockOffset + lbaLength < 2 ^ 32

instance (s l o : ℕ) : Decidable (Fits s l o) := inferInstanceAs (Decidable (_ ∧ _ ∧ _))

/-- An entry whose claim fits. The canonical-only kinds make no claim. -/
def EntryFits (e : SegmentEntry) : Prop :=
  e.kind.isCanonicalOnly = false → Fits e.startLba e.lbaLength 0

instance (e : SegmentEntry) : Decidable (EntryFits e) := inferInstanceAs (Decidable (_ → _))

/-- The extent an operation claims fits. -/
def Op.Valid : Op → Prop
  | .insert s l _ _ | .insertIfNewer s l _ _ | .insertConsumingInputs s l _ _ _ => Fits s l 0
  | .insertWithOffset s l o _ _ => Fits s l o
  | .registerEntry e _ | .registerEntryIfNewer e _ | .registerEntryConsumingInputs e _ _
  | .registerEntryWithHorizon e _ _ => EntryFits e

/-- The registration of an entry of a canonical-only kind. -/
def Op.IsCanonicalOnly : Op → Prop
  | .registerEntry e _ | .registerEntryIfNewer e _ | .registerEntryConsumingInputs e _ _
  | .registerEntryWithHorizon e _ _ => e.kind.isCanonicalOnly = true
  | _ => False

/-- What an operation means on blocks. -/
def Op.onBlocks (f : BlockMap) : Op → BlockMap × Option ℕ
  | .insert s l h c => (f.setRange s l 0 h c, none)
  | .insertWithOffset s l o h c => (f.setRange s l o h c, none)
  | .insertIfNewer s l h c => f.setOpen s l h c .sameOrHigher
  | .insertConsumingInputs s l h c inputs => f.setOpen s l h c (.consuming inputs)
  | .registerEntry e c => f.register e c .unconditional
  | .registerEntryIfNewer e c => f.register e c .ifNewer
  | .registerEntryConsumingInputs e c inputs => f.register e c (.consumingInputs inputs)
  | .registerEntryWithHorizon e c horizon => f.register e c (.outputHorizon horizon)

/-- Everything that changes a map: the operations and the restamps. -/
inductive Update where
  | op (op : Op)
  | setClaimantIfMatches (startLba lbaLength : ℕ) (expectedHash : Hash) (newClaimant : Ulid)
  | setClaimantConsumingInput (startLba lbaLength : ℕ) (expectedHash : Hash)
      (newClaimant consumedInput : Ulid)

/-- One update, without what it returns. -/
def update (m : LbaMap) : Update → LbaMap
  | .op o => (m.apply o).1
  | .setClaimantIfMatches s l h c => (m.setClaimantIfMatches s l h c).1
  | .setClaimantConsumingInput s l h c i => (m.setClaimantConsumingInput s l h c i).1

/-- A restamp takes any range. -/
def Update.Valid : Update → Prop
  | .op o => o.Valid
  | _ => True

/-- The maps a run of valid updates reaches. -/
inductive Reachable : LbaMap → Prop where
  | new : Reachable LbaMap.new
  | step {m : LbaMap} {u : Update} : Reachable m → u.Valid → Reachable (m.update u)

/-! ## One operation -/

variable {m : LbaMap}

theorem Inv.setRange_spec (hm : m.Inv) {s l o : ℕ} (hfit : Fits s l o) (h : Hash) (c : Ulid) :
    (m.insertInner s l o h c).Inv ∧ (m.insertInner s l o h c).lookupWithClaimant =
      BlockMap.setRange m.lookupWithClaimant s l o h c :=
  ⟨hm.insertInner hfit.1 o h c, funext fun x => hm.lookupWithClaimant_insertInner hfit.1 o h c x⟩

theorem Inv.setOpen_spec (hm : m.Inv) {s l : ℕ} (hfit : Fits s l 0) (h : Hash) (c : Ulid)
    (b : Blocking) :
    (m.insertInnerIfNewer s l h c b).1.Inv ∧ ((m.insertInnerIfNewer s l h c b).1.lookupWithClaimant,
        some (m.insertInnerIfNewer s l h c b).2) =
        BlockMap.setOpen m.lookupWithClaimant s l h c b := by
  obtain ⟨hinv, hlook, hcount⟩ := hm.fills_insertInnerIfNewer (s := s) (h := h) (c := c) hfit.1 b
  refine ⟨hinv, Prod.ext (funext fun x => (hlook x).trans (if_congr ?_ rfl rfl)) ?_⟩
  · simp only [BlockMap.openBlocks, Finset.mem_filter, Finset.mem_Ico, and_assoc]
    rfl
  · exact congrArg some hcount

theorem Inv.register_spec (hm : m.Inv) {e : SegmentEntry} (hfit : EntryFits e) (c : Ulid)
    (a : Admission) :
    (m.registerEntryInner e c a).1.Inv ∧
      ((m.registerEntryInner e c a).1.lookupWithClaimant, some (m.registerEntryInner e c a).2) =
        BlockMap.register m.lookupWithClaimant e c a := by
  simp only [registerEntryInner, BlockMap.register]
  by_cases hk : e.kind.isCanonicalOnly
  · simp only [if_pos hk]
    exact ⟨hm, trivial⟩
  · have hfit := hfit (by simpa using hk)
    simp only [if_neg hk]
    cases a with
    | unconditional =>
      obtain ⟨hinv, hlook⟩ := hm.setRange_spec hfit e.hash c
      exact ⟨hinv, Prod.ext hlook rfl⟩
    | ifNewer => exact hm.setOpen_spec hfit e.hash c .higher
    | consumingInputs i => exact hm.setOpen_spec hfit e.hash c (.consuming i)
    | outputHorizon z => exact hm.setOpen_spec hfit e.hash c (.aboveHorizon z)

/-- **One commuting square per operation.** -/
theorem Inv.apply (hm : m.Inv) {o : Op} (ho : o.Valid) : (m.apply o).1.Inv ∧
      ((m.apply o).1.lookupWithClaimant, (m.apply o).2) = o.onBlocks m.lookupWithClaimant := by
  cases o with
  | insert s l h c =>
    obtain ⟨hinv, hlook⟩ := hm.setRange_spec ho h c
    exact ⟨hinv, Prod.ext hlook rfl⟩
  | insertWithOffset s l o h c =>
    obtain ⟨hinv, hlook⟩ := hm.setRange_spec ho h c
    exact ⟨hinv, Prod.ext hlook rfl⟩
  | insertIfNewer s l h c => exact hm.setOpen_spec ho h c .sameOrHigher
  | insertConsumingInputs s l h c i => exact hm.setOpen_spec ho h c (.consuming i)
  | registerEntry e c => exact hm.register_spec ho c .unconditional
  | registerEntryIfNewer e c => exact hm.register_spec ho c .ifNewer
  | registerEntryConsumingInputs e c i => exact hm.register_spec ho c (.consumingInputs i)
  | registerEntryWithHorizon e c z => exact hm.register_spec ho c (.outputHorizon z)

theorem apply_of_isCanonicalOnly (m : LbaMap) {o : Op} (ho : o.IsCanonicalOnly) :
    m.apply o = (m, some 0) := by
  cases o with
  | registerEntry e c | registerEntryIfNewer e c | registerEntryConsumingInputs e c i
  | registerEntryWithHorizon e c z =>
    have hk : e.kind.isCanonicalOnly = true := ho
    simp [LbaMap.apply, registerEntry, registerEntryIfNewer, registerEntryConsumingInputs,
      registerEntryWithHorizon, registerEntryInner, hk]
  | _ => exact ho.elim

/-! ## Runs -/

theorem Inv.update (hm : m.Inv) {u : Update} (hu : u.Valid) : (m.update u).Inv := by
  cases u with
  | op o => exact (hm.apply hu).1
  | setClaimantIfMatches | setClaimantConsumingInput => exact hm.restamp

theorem Reachable.inv (hm : m.Reachable) : m.Inv := by
  induction hm with
  | new => exact inv_new
  | step _ hu ih => exact ih.update hu

/-- Every claimed block is a `u64` and reads a `u32` block of its payload, with room for the sum
one past it. -/
def BlockFits (f : BlockMap) : Prop :=
  ∀ x v, f x = some v → x + 1 < 2 ^ 64 ∧ v.2.1 + 1 < 2 ^ 32

variable {f : BlockMap}

theorem BlockFits.setRange (hf : BlockFits f) {s l o : ℕ} (hfit : Fits s l o) (h : Hash) (c : Ulid) :
    BlockFits (f.setRange s l o h c) := by
  intro x v hv
  obtain ⟨-, h64, h32⟩ := hfit
  simp only [BlockMap.setRange] at hv
  split_ifs at hv with hx
  · cases hv
    exact ⟨by omega, show o + (x - s) + 1 < 2 ^ 32 by omega⟩
  · exact hf x v hv

theorem BlockFits.setOpen (hf : BlockFits f) {s l : ℕ} (hfit : Fits s l 0) (h : Hash) (c : Ulid)
    (b : Blocking) : BlockFits (f.setOpen s l h c b).1 := by
  intro x v hv
  obtain ⟨-, h64, h32⟩ := hfit
  simp only [BlockMap.setOpen] at hv
  split_ifs at hv with hx
  · cases hv
    simp only [BlockMap.openBlocks, Finset.mem_filter, Finset.mem_Ico] at hx
    exact ⟨by omega, show x - s + 1 < 2 ^ 32 by omega⟩
  · exact hf x v hv

theorem BlockFits.register (hf : BlockFits f) {e : SegmentEntry} (he : EntryFits e) (c : Ulid)
    (a : Admission) : BlockFits (f.register e c a).1 := by
  unfold BlockMap.register
  split_ifs with hk
  · exact hf
  · have hfit := he (by simpa using hk)
    cases a with
    | unconditional => exact hf.setRange hfit e.hash c
    | ifNewer => exact hf.setOpen hfit e.hash c .higher
    | consumingInputs i => exact hf.setOpen hfit e.hash c (.consuming i)
    | outputHorizon z => exact hf.setOpen hfit e.hash c (.aboveHorizon z)

theorem BlockFits.onBlocks (hf : BlockFits f) {o : Op} (ho : o.Valid) :
    BlockFits (o.onBlocks f).1 := by
  cases o with
  | insert s l h c => exact hf.setRange ho h c
  | insertWithOffset s l o h c => exact hf.setRange ho h c
  | insertIfNewer s l h c => exact hf.setOpen ho h c .sameOrHigher
  | insertConsumingInputs s l h c i => exact hf.setOpen ho h c (.consuming i)
  | registerEntry e c => exact hf.register ho c .unconditional
  | registerEntryIfNewer e c => exact hf.register ho c .ifNewer
  | registerEntryConsumingInputs e c i => exact hf.register ho c (.consumingInputs i)
  | registerEntryWithHorizon e c z => exact hf.register ho c (.outputHorizon z)

theorem BlockFits.of_lookup_eq {m' : LbaMap} (hf : BlockFits m.lookupWithClaimant)
    (heq : ∀ x, m'.lookup x = m.lookup x) : BlockFits m'.lookupWithClaimant := by
  intro x v hv
  have hx := heq x
  rw [lookup_eq_map, lookup_eq_map, hv] at hx
  cases hm : m.lookupWithClaimant x with
  | none => simp [hm] at hx
  | some w =>
    have := hf x w hm
    simp only [hm, map_some, some.injEq, Prod.mk.injEq] at hx
    rw [hx.2]
    exact this

theorem Reachable.blockFits (hm : m.Reachable) : BlockFits m.lookupWithClaimant := by
  induction hm with
  | new => intro x v hv; simp [lookupWithClaimant, LbaMap.new, floor?, empty,
      findLast?] at hv
  | @step m u hm hu ih =>
    cases u with
    | op o =>
      have hsq := congrArg Prod.fst (hm.inv.apply (o := o) hu).2
      rw [LbaMap.update, show (m.apply o).1.lookupWithClaimant = _ from hsq]
      exact ih.onBlocks hu
    | setClaimantIfMatches | setClaimantConsumingInput =>
      exact ih.of_lookup_eq fun x => hm.inv.wf.lookup_restamp x

/-- No sum the code forms over an entry overflows: the end of every extent is a `u64` and the end
of its payload a `u32`. -/
theorem Reachable.no_overflow (hm : m.Reachable) {k : ℕ} {e : MapEntry}
    (hk : m.inner.get? k = some e) : Fits k e.lbaLength e.payloadBlockOffset := by
  have hpos := hm.inv.wf.pos hk
  -- the last block of the extent decides
  have hlast := hm.inv.wf.lookupWithClaimant_of_coveredBy (x := k + (e.lbaLength - 1))
    ⟨hk, by omega, by omega⟩
  obtain ⟨h1, h2⟩ := hm.blockFits _ _ hlast
  simp only [MapEntry.valueAt] at h2
  exact ⟨hpos, by omega, by omega⟩

/-- What is left behind a hole starts in the middle of its payload. -/
theorem no_overflow_hole_punch : ∃ e, ((new.insert 0 9 1 3).insert 3 3 2 4).inner.get? 6 = some e ∧
    Fits 6 e.lbaLength e.payloadBlockOffset := by
  refine ⟨_, rfl, Reachable.no_overflow ((Reachable.new.step (u := .op (.insert 0 9 1 3)) ?_).step
    (u := .op (.insert 3 3 2 4)) ?_) rfl⟩ <;> exact ⟨by decide, by decide, by decide⟩

/-! ## The refinement -/

/-- **The map refines a block map.** Whatever run of updates led here, the extents are disjoint
and non-empty and the next operation commutes with its meaning on blocks, the count it reports
included. -/
theorem Reachable.refines_blockMap (hm : m.Reachable) {o : Op} (ho : o.Valid) :
    (∀ k e, m.inner.get? k = some e → 0 < e.lbaLength) ∧
      (∀ k e k' e', m.inner.get? k = some e → m.inner.get? k' = some e' → k < k' →
        k + e.lbaLength ≤ k') ∧
      ((m.apply o).1.lookupWithClaimant, (m.apply o).2) = o.onBlocks m.lookupWithClaimant ∧
      (o.IsCanonicalOnly → m.apply o = (m, some 0)) :=
  ⟨fun _ _ hk => hm.inv.wf.pos hk, fun _ _ _ _ hk hk' hlt => hm.inv.wf.disjoint hk hk' hlt,
    (hm.inv.apply ho).2, apply_of_isCanonicalOnly m⟩

/-- A guarded insert over a higher claimant in its middle takes the four blocks around it, and
the blocks after it keep their distance from the start of the range. -/
theorem refines_blockMap_around_higher :
    ((new.insert 2 2 1 9).apply (.insertIfNewer 0 6 2 5)).1.lookupWithClaimant 5 = some (2, 5, 5) ∧
      ((new.insert 2 2 1 9).apply (.insertIfNewer 0 6 2 5)).2 = some 4 := by
  have hm : (new.insert 2 2 1 9).Reachable :=
    Reachable.new.step (u := .op (.insert 2 2 1 9)) ⟨by decide, by decide, by decide⟩
  have hsq := (hm.refines_blockMap (o := .insertIfNewer 0 6 2 5)
    ⟨by decide, by decide, by decide⟩).2.2.1
  exact ⟨(congrFun (congrArg Prod.fst hsq) 5).trans (by decide),
    (congrArg Prod.snd hsq).trans (by decide)⟩

/-! ## Claim refcounts -/

theorem Inv.isReferenced_iff (hm : m.Inv) (h : Hash) :
    m.isReferenced h = true ↔ ∃ x o, m.lookup x = some (h, o) := by
  rw [isReferenced, hm.counted.exact.isSome_iff, List.mem_map]
  constructor
  · rintro ⟨⟨k, e⟩, hmem, rfl⟩
    have hk := mem_entries_iff.mp hmem
    have hpos := hm.wf.pos hk
    refine ⟨k, e.payloadBlockOffset + (k - k), ?_⟩
    rw [lookup_eq_map, hm.wf.lookupWithClaimant_of_coveredBy ⟨hk, le_refl k, by omega⟩]
    rfl
  · rintro ⟨x, o, hx⟩
    rw [lookup_eq_map, map_eq_some_iff] at hx
    obtain ⟨v, hv, hvo⟩ := hx
    obtain ⟨k, e, hc, rfl⟩ := hm.wf.lookupWithClaimant_eq_some_iff.mp hv
    exact ⟨(k, e), mem_entries_iff.mpr hc.1, congrArg Prod.fst hvo⟩

/-- **Claim refcounts are exact over every run.** A hash is counted once per entry that carries
it and no other hash has a count, so a `u32` holds the counts while it holds the number of entries;
no assertion of the refcount code has ever failed; and the hashes counted are those some block
resolves to. -/
theorem Reachable.claims_counted (hm : m.Reachable) : (∀ h n, m.claimCounts.lookup h = some n ↔
      1 ≤ n ∧ (m.inner.entries.filter fun p => p.2.hash = h).length = n) ∧
      (m.inner.entries.length < 2 ^ 32 → ∀ h n, m.claimCounts.lookup h = some n → n < 2 ^ 32) ∧
      m.failedAsserts = 0 ∧
      ∀ h, m.isReferenced h = true ↔ ∃ lba o, m.lookup lba = some (h, o) := by
  suffices hexact : ∀ h n, m.claimCounts.lookup h = some n ↔
      1 ≤ n ∧ (m.inner.entries.filter fun p => p.2.hash = h).length = n from
    ⟨hexact, fun hlen h n hn => ((hexact h n).mp hn).2 ▸ (length_filter_le _ _).trans_lt hlen,
      hm.inv.counted.asserts, hm.inv.isReferenced_iff⟩
  intro h n
  have hcount : (m.inner.entries.filter fun p => p.2.hash = h).length =
      (m.inner.entries.map fun e => e.2.hash).count h := by
    rw [count, countP_map, countP_eq_length_filter]
    congr 1
  rw [hm.inv.counted.exact h]
  split_ifs with hmem
  · have := count_pos_iff.mpr hmem
    rw [some.injEq]
    omega
  · have := count_eq_zero_of_not_mem hmem
    simp only [false_iff]
    omega

/-- A hole punch leaves two entries of the punched hash, and the count says so. -/
theorem claims_counted_hole_punch :
    ((new.insert 0 9 1 3).insert 3 3 2 4).claimCounts.lookup 1 = some 2 := by
  have hm : ((new.insert 0 9 1 3).insert 3 3 2 4).Reachable :=
    (Reachable.new.step (u := .op (.insert 0 9 1 3)) ⟨by decide, by decide, by decide⟩).step
      (u := .op (.insert 3 3 2 4)) ⟨by decide, by decide, by decide⟩
  exact (hm.claims_counted.1 1 2).mpr ⟨by decide, by decide⟩

/-! ## Structural commits and other writers -/

/-- Every block of another writer, neither consumed nor the commit's own, reads as it did. -/
def KeepsUnowned (m m' : LbaMap) (claimant : Ulid) (inputs : Finset Ulid) : Prop :=
  ∀ x v, m.lookupWithClaimant x = some v → v.2.2 ∉ inputs → v.2.2 ≠ claimant →
    m'.lookup x = m.lookup x

/-- No block of the range is held by a lower claimant under the same hash at another anchor. -/
def NoShiftedCopy (m : LbaMap) (startLba lbaLength : ℕ) (hash : Hash) (claimant : Ulid)
    (inputs : Finset Ulid) : Prop :=
  ∀ x v, m.lookupWithClaimant x = some v → startLba ≤ x → x < startLba + lbaLength →
    v.2.2 ∉ inputs → v.2.2 < claimant → v.1 = hash → v.2.1 = x - startLba

theorem Inv.keepsUnowned_insert_iff (hm : m.Inv) {s l : ℕ} (hfit : Fits s l 0) (h : Hash)
    (c : Ulid) (inputs : Finset Ulid) :
    m.KeepsUnowned (m.insertConsumingInputs s l h c inputs).1 c inputs ↔
      m.NoShiftedCopy s l h c inputs := by
  have hlook : ∀ x v, m.lookupWithClaimant x = some v → v.2.2 ∉ inputs → v.2.2 ≠ c →
      (m.insertConsumingInputs s l h c inputs).1.lookup x =
        if s ≤ x ∧ x < s + l ∧ v.1 = h ∧ v.2.2 < c then some (h, x - s) else m.lookup x := by
    intro x v hv hin hne
    have hopen : m.Admits (Blocking.blocks (.consuming inputs) c h) x ↔ v.1 = h ∧ v.2.2 < c := by
      simp [Admits, hv, Blocking.blocks, hin, hne]
    rw [lookup_eq_map, insertConsumingInputs, hm.lookupWithClaimant_insertInnerIfNewer hfit.1,
      lookup_eq_map, if_congr (and_congr_right' (and_congr_right' hopen)) rfl rfl]
    split_ifs <;> rfl
  constructor
  · intro hkeep x v hv h1 h2 hin hlt hh
    have hne : v.2.2 ≠ c := ne_of_lt hlt
    have hx := hkeep x v hv hin hne
    rw [hlook x v hv hin hne, if_pos ⟨h1, h2, hh, hlt⟩, lookup_eq_map, hv] at hx
    simp only [map_some, some.injEq, Prod.mk.injEq] at hx
    exact hx.2.symm
  · intro hno x v hv hin hne
    rw [hlook x v hv hin hne]
    split_ifs with hx
    · obtain ⟨h1, h2, hh, hlt⟩ := hx
      rw [lookup_eq_map, hv, ← hno x v hv h1 h2 hin hlt hh, ← hh]
      rfl
    · rfl

/-- **When a structural commit leaves other writers' bytes alone.** The clause that lets a lower
claimant of the same hash give way compares hashes and not anchors, so the commit changes a read
exactly where the block holds the same payload at another offset. -/
theorem Reachable.consuming_keeps_unowned_iff (hm : m.Reachable) (c : Ulid)
    (inputs : Finset Ulid) :
    (∀ s l h, Fits s l 0 → (m.KeepsUnowned (m.insertConsumingInputs s l h c inputs).1 c inputs ↔
      m.NoShiftedCopy s l h c inputs)) ∧
    ∀ e, EntryFits e → (m.KeepsUnowned (m.registerEntryConsumingInputs e c inputs).1 c inputs ↔
        (e.kind.isCanonicalOnly = false →
          m.NoShiftedCopy e.startLba e.lbaLength e.hash c inputs)) := by
  refine ⟨fun s l h hfit => hm.inv.keepsUnowned_insert_iff hfit h c inputs, fun e he => ?_⟩
  by_cases hk : e.kind.isCanonicalOnly
  · have hsame : (m.registerEntryConsumingInputs e c inputs).1 = m := by
      simp [registerEntryConsumingInputs, registerEntryInner, hk]
    simp [hsame, hk, KeepsUnowned]
  · have hins : m.registerEntryConsumingInputs e c inputs =
        m.insertConsumingInputs e.startLba e.lbaLength e.hash c inputs := by
      simp [registerEntryConsumingInputs, registerEntryInner, hk]
    have hfalse : e.kind.isCanonicalOnly = false := by simpa using hk
    rw [hins, hm.inv.keepsUnowned_insert_iff (he hfalse)]
    simp [hfalse]

/-- A copy at the same anchor is adopted and no read changes. -/
theorem consuming_keeps_unowned_same_anchor :
    (new.insert 0 8 1 3).KeepsUnowned ((new.insert 0 8 1 3).insertConsumingInputs 0 8 1 5 ∅).1 5
      ∅ := by
  have hm : (new.insert 0 8 1 3).Reachable :=
    Reachable.new.step (u := .op (.insert 0 8 1 3)) ⟨by decide, by decide, by decide⟩
  have hfit : Fits 0 8 0 := by decide
  refine ((hm.consuming_keeps_unowned_iff 5 ∅).1 0 8 1 hfit).mpr fun x v hv h1 h2 _ _ _ => ?_
  rw [insert, inv_new.lookupWithClaimant_insertInner (by decide), if_pos ⟨h1, h2⟩] at hv
  cases hv
  simp

/-- The same payload at another anchor: block 4 reads payload block 0 before the commit and
payload block 4 after it, although its claimant is neither consumed nor the commit. -/
theorem consuming_shifts_unowned_read : (new.insert 4 8 1 3).Reachable ∧ Fits 0 8 0 ∧
      (new.insert 4 8 1 3).lookupWithClaimant 4 = some (1, 0, 3) ∧
      ((new.insert 4 8 1 3).insertConsumingInputs 0 8 1 5 ∅).1.lookup 4 = some (1, 4) ∧
      ((new.insert 4 8 1 3).registerEntryConsumingInputs
        (SegmentEntry.newDedupRef 1 0 8) 5 ∅).1.lookup 4 = some (1, 4) ∧
      ¬ (new.insert 4 8 1 3).KeepsUnowned
        ((new.insert 4 8 1 3).insertConsumingInputs 0 8 1 5 ∅).1 5 ∅ := by
  refine ⟨Reachable.new.step (u := .op (.insert 4 8 1 3)) ⟨by decide, by decide, by decide⟩,
    by decide, by decide, by decide, by decide, fun hkeep => ?_⟩
  exact absurd (hkeep 4 (1, 0, 3) (by decide) (by decide) (by decide)) (by decide)

end LbaMap

end Elide
