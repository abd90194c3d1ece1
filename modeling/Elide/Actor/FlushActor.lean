import Elide.Actor.Pipeline
import Elide.Lib.Run
import Mathlib.Data.Finset.Basic
import Mathlib.Data.Finset.Range

/-!
# Flush requests and parked replies

`PromoteWal` and `GcCheckpoint` ask the actor to get the WAL into `pending/`. The actor takes the
current epoch into a promote and parks the reply on that promote's segment; with an empty WAL it
parks it on the stashed promote it re-dispatched, on a generation barrier, or replies at once. Older
epochs can be in flight or stashed meanwhile.

The state here is the promote pipeline, the parked replies, and the epochs whose segments are
committed. An epoch counts as committed once the worker has written its files. Every `Ok` reply is
kept as the set of epochs acknowledged before its request and still missing on disk.

A parked request is `Reliable` when the epochs missing on disk are those it waits for. Steps that
are no requests keep that (`Advances` for those that only add work, `Sound.handle` for a result), so
a sound actor answers no parked request wrongly (`FlushActor.Sound.safe`).
-/

namespace Elide

open List Pipeline

/-- What a parked reply waits for: the segment of one epoch, or the generation of a checkpoint's
barrier. -/
inductive Wait where
  | segment (epoch : ℕ)
  | barrier (neededGen : ℕ)
  deriving DecidableEq, Repr

namespace Wait

/-- The promote of `epoch` has applied, and `done` results have been handled. -/
def satisfiedBy (done epoch : ℕ) : Wait → Bool
  | segment e => e = epoch
  | barrier neededGen => neededGen ≤ done

/-- The promote of `epoch` has failed; a barrier covers every result that arrives. -/
def failedBy (epoch : ℕ) : Wait → Bool
  | segment e => e = epoch
  | barrier _ => true

end Wait

/-- A parked reply. The request was received after the epochs below `upto`. -/
structure Parked where
  /-- A `GcCheckpoint`; there is one at a time. -/
  checkpoint : Bool
  wait : Wait
  upto : ℕ
  deriving DecidableEq, Repr

/-- The jobs in flight in the order of their results. -/
def Pipeline.fifo {J R : Type*} (p : Pipeline J R) : List J :=
  p.results.map Prod.fst ++ (p.running.toList ++ p.queue)

/-- The actor and its worker, as far as flush requests depend on them. -/
structure FlushActor where
  /-- The epoch of the current WAL. -/
  next : ℕ
  /-- The current WAL has acknowledged writes. -/
  dirty : Bool
  pipeline : Pipeline ℕ Unit
  /-- Epochs whose segments are in `pending/`. -/
  committed : Finset ℕ
  promoteGen : ℕ
  completedGen : ℕ
  /-- `parked_gc` and `parked_promote_wal`. -/
  parked : List Parked
  /-- The epochs missing on disk at each `Ok` reply. -/
  answers : List (Finset ℕ)

namespace FlushActor

/-- An opened volume, whose recovery has promoted every WAL. -/
def init : FlushActor where
  next := 0
  dirty := false
  pipeline := Pipeline.empty
  committed := ∅
  promoteGen := 0
  completedGen := 0
  parked := []
  answers := []

variable (s : FlushActor)

/-- The epochs below `upto` that are not on disk. -/
def missing (upto : ℕ) : Finset ℕ := (Finset.range upto).filter (· ∉ s.committed)

/-- Every acknowledged epoch is below this. -/
def upto : ℕ := if s.dirty then s.next + 1 else s.next

/-- Answer a request with the epochs below `upto` that are not on disk. -/
def reply (upto : ℕ) : FlushActor :=
  { s with answers := s.answers ++ [s.missing upto] }

/-- Hold a request until a promote comes back. -/
def park (p : Parked) : FlushActor := { s with parked := s.parked ++ [p] }

/-- Hand a job to the worker, and count it if it was sent. -/
def sendPromoteJob (epoch : ℕ) (sent : Bool) : FlushActor :=
  { s with
    pipeline := s.pipeline.sendPromoteJob epoch sent
    promoteGen := if sent then s.promoteGen + 1 else s.promoteGen }

/-- The stashed promote a trigger re-dispatches. -/
def retried (sent : Bool) : Option ℕ :=
  if sent then s.pipeline.failedPromotes.head? else none

/-- Send the oldest stashed promote again. -/
def retryFailedPromote (sent : Bool) : FlushActor :=
  match s.pipeline.failedPromotes with
  | [] => s
  | epoch :: rest =>
    { s with pipeline := { s.pipeline with failedPromotes := rest } }.sendPromoteJob epoch sent

/-- Take the WAL of the current epoch. -/
def takeWal : FlushActor := { s with next := s.next + 1, dirty := false }

/-- `dispatch_promote`. `prepared` is the outcome of taking a WAL that has entries. -/
def dispatchPromote (resent prepared sent : Bool) : FlushActor :=
  let s := s.retryFailedPromote resent
  if s.dirty && prepared then s.takeWal.sendPromoteJob s.next sent else s

/-- A `PromoteWal` request. -/
def promoteWal (resent prepared sent : Bool) : FlushActor :=
  let upto := s.upto
  let retried := s.retried resent
  let s := s.retryFailedPromote resent
  if s.dirty then
    if prepared then
      let s' := s.takeWal.sendPromoteJob s.next sent
      -- an epoch that could not be dispatched is stashed, and the reply is the error
      if sent then s'.park ⟨false, .segment s.next, upto⟩ else s'
    else s
  else
    match retried with
    | some epoch => s.park ⟨false, .segment epoch, upto⟩
    | none => s.reply upto

/-- A `GcCheckpoint` request; a second one is refused while one is parked. -/
def gcCheckpoint (resent prepared sent : Bool) : FlushActor :=
  if s.parked.any (·.checkpoint) then s
  else
    let upto := s.upto
    let s := s.retryFailedPromote resent
    if s.dirty then
      if prepared then
        let s' := s.takeWal.sendPromoteJob s.next sent
        if sent then s'.park ⟨true, .segment s.next, upto⟩ else s'
      else s
    else if s.completedGen ≥ s.promoteGen then s.reply upto
    else s.park ⟨true, .barrier s.promoteGen, upto⟩

/-- The worker is done with its job; on success the epoch's files are in `pending/`. -/
def finish (ok : Bool) : FlushActor :=
  { s with
    pipeline := s.pipeline.finish (if ok then some () else none)
    committed := if ok then s.committed ∪ s.pipeline.running.toList.toFinset else s.committed }

/-- `handle_worker_result` on a promote. -/
def handle (applied : Bool) : FlushActor :=
  match s.pipeline.results with
  | [] => s
  | (epoch, some ()) :: _ =>
    let done := s.completedGen + 1
    let satisfied := s.parked.filter (·.wait.satisfiedBy done epoch)
    { s with
      pipeline := s.pipeline.settle
      completedGen := done
      parked := s.parked.filter (!·.wait.satisfiedBy done epoch)
      answers := s.answers ++ if applied then satisfied.map (s.missing ·.upto) else [] }
  | (epoch, none) :: _ =>
    { s with
      pipeline := s.pipeline.settle
      completedGen := s.completedGen + 1
      parked := s.parked.filter (!·.wait.failedBy epoch) }

/-- The events of the actor's loop. -/
inductive Action where
  | write
  /-- a full WAL, or the idle tick -/
  | trigger (resent prepared sent : Bool)
  | promoteWal (resent prepared sent : Bool)
  | gcCheckpoint (resent prepared sent : Bool)
  | start
  | finish (ok : Bool)
  | handle (applied : Bool)
  deriving DecidableEq, Repr

/-- Whether the event is a request that is owed an answer. -/
def Action.isRequest : Action → Bool
  | promoteWal .. | gcCheckpoint .. => true
  | _ => false

/-- One event. Its flags say how the sends and the apply went. -/
def step : Action → FlushActor
  | .write => { s with dirty := true }
  | .trigger resent prepared sent => s.dispatchPromote resent prepared sent
  | .promoteWal resent prepared sent => s.promoteWal resent prepared sent
  | .gcCheckpoint resent prepared sent => s.gcCheckpoint resent prepared sent
  | .start => { s with pipeline := s.pipeline.start }
  | .finish ok => s.finish ok
  | .handle applied => s.handle applied

/-! ### What is said about replies -/

/-- Every epoch acknowledged before a request was on disk when the request was answered `Ok`. -/
def Truthful : Prop := ∀ missing ∈ s.answers, missing = ∅

/-- No reply was wrong, and whatever the writers and the worker do next, no parked request is
answered wrongly. -/
def Safe : Prop :=
  ∀ as : List Action, (∀ a ∈ as, a.isRequest = false) → (as.foldl step s).Truthful

/-- The state in which a request can be answered correctly whatever follows. -/
def Covers : Action → Prop
  | .promoteWal resent prepared sent =>
    if s.dirty then prepared = true → sent = true → s.missing s.next = ∅
    else
      match s.retried resent with
      | some epoch => ∀ e ∈ s.missing s.next, e = epoch
      | none => s.missing s.next = ∅
  | .gcCheckpoint resent prepared sent =>
    s.parked.any (·.checkpoint) = false →
      if s.dirty then prepared = true → sent = true → s.missing s.next = ∅
      else (∃ epoch, (epoch, none) ∈ s.pipeline.results) ∨
        ∀ e ∈ s.missing s.next, e ∈ s.pipeline.fifo ∨ s.retried resent = some e
  | _ => True

/-- The parked reply is an error already, or the epochs missing on disk are those it waits for. -/
def Reliable (p : Parked) : Prop :=
  match p.wait with
  | .segment epoch =>
    s.pipeline.results.lookup epoch = some none ∨ ∀ e ∈ s.missing p.upto, e = epoch
  | .barrier neededGen =>
    (∃ epoch, (epoch, none) ∈ s.pipeline.results.take (neededGen - s.completedGen)) ∨
      ∀ e ∈ s.missing p.upto, e ∈ s.pipeline.fifo.take (neededGen - s.completedGen)

/-- The invariant: no answer was wrong, and no held request will get a wrong one. -/
structure Sound (s : FlushActor) : Prop where
  truthful : s.Truthful
  reliable : ∀ p ∈ s.parked, s.Reliable p

/-- The bookkeeping of the pipeline. -/
structure Kept (s : FlushActor) : Prop where
  gens : s.promoteGen = s.completedGen + s.pipeline.fifo.length
  committed : ∀ epoch, (epoch, some ()) ∈ s.pipeline.results → epoch ∈ s.committed
  segment : ∀ p ∈ s.parked, ∀ epoch, p.wait = .segment epoch → epoch ∈ s.pipeline.fifo
  barrier : ∀ p ∈ s.parked, ∀ neededGen, p.wait = .barrier neededGen →
    s.completedGen < neededGen ∧ neededGen ≤ s.promoteGen

variable {s s' s'' : FlushActor} {p : Parked}

/-! ### The order of results -/

variable (q : Pipeline ℕ Unit)

@[simp] theorem fifo_sendPromoteJob (epoch : ℕ) (sent : Bool) :
    (q.sendPromoteJob epoch sent).fifo = q.fifo ++ if sent then [epoch] else [] := by
  cases sent <;> simp [Pipeline.sendPromoteJob, Pipeline.fifo]

@[simp] theorem fifo_start : q.start.fifo = q.fifo := by
  unfold start
  split
  case h_1 job rest hr hq => simp [fifo, hr, hq]
  case h_2 => rfl

theorem results_finish (r : Option Unit) :
    (q.finish r).results = q.results ++ q.running.toList.map (·, r) := by
  cases hr : q.running <;> simp [Pipeline.finish, hr]

variable {rest : List (ℕ × Option Unit)}

@[simp] theorem fifo_finish (r : Option Unit) : (q.finish r).fifo = q.fifo := by
  cases hr : q.running <;> simp [Pipeline.finish, Pipeline.fifo, hr]

theorem fifo_settle {q : Pipeline ℕ Unit} {x : ℕ × Option Unit} (h : q.results = x :: rest) :
    q.fifo = x.1 :: q.settle.fifo ∧ q.settle.results = rest := by
  simp [settle, fifo, h]

/-! ### Steps that only add work -/

theorem mem_missing {upto e : ℕ} : e ∈ s.missing upto ↔ e < upto ∧ e ∉ s.committed := by
  simp [missing]

variable {epoch : ℕ}

theorem reliable_segment (hw : p.wait = .segment epoch) :
    s.Reliable p ↔ s.pipeline.results.lookup epoch = some none ∨
      ∀ e ∈ s.missing p.upto, e = epoch := by
  simp [Reliable, hw]

theorem reliable_barrier {neededGen : ℕ} (hw : p.wait = .barrier neededGen) : s.Reliable p ↔
      (∃ epoch, (epoch, none) ∈ s.pipeline.results.take (neededGen - s.completedGen)) ∨
        ∀ e ∈ s.missing p.upto, e ∈ s.pipeline.fifo.take (neededGen - s.completedGen) := by
  simp [Reliable, hw]

/-- Jobs and results are added, epochs are committed; no result is handled. -/
structure Advances (s s' : FlushActor) : Prop where
  committed : s.committed ⊆ s'.committed
  results : s.pipeline.results <+: s'.pipeline.results
  fifo : s.pipeline.fifo <+: s'.pipeline.fifo
  completedGen : s'.completedGen = s.completedGen
  parked : s'.parked = s.parked
  answers : s'.answers = s.answers
  gens : s'.promoteGen + s.pipeline.fifo.length = s.promoteGen + s'.pipeline.fifo.length
  done : ∀ epoch, (epoch, some ()) ∈ s'.pipeline.results →
    (epoch, some ()) ∈ s.pipeline.results ∨ epoch ∈ s'.committed

namespace Advances

theorem refl (s : FlushActor) : Advances s s :=
  ⟨Finset.Subset.refl _, prefix_rfl, prefix_rfl, rfl, rfl, rfl, rfl, fun _ => .inl⟩

theorem trans (h : Advances s s') (h' : Advances s' s'') : Advances s s'' where
  committed := h.committed.trans h'.committed
  results := h.results.trans h'.results
  fifo := h.fifo.trans h'.fifo
  completedGen := h'.completedGen.trans h.completedGen
  parked := h'.parked.trans h.parked
  answers := h'.answers.trans h.answers
  gens := by
    have h1 := h.gens
    have h2 := h'.gens
    omega
  done := by
    intro epoch hmem
    rcases h'.done epoch hmem with hmem | hmem
    · exact (h.done epoch hmem).imp_right fun hc => h'.committed hc
    · exact .inr hmem

variable (s)

theorem write : Advances s { s with dirty := true } :=
  ⟨Finset.Subset.refl _, prefix_rfl, prefix_rfl, rfl, rfl, rfl, rfl, fun _ => .inl⟩

theorem takeWal : Advances s s.takeWal :=
  ⟨Finset.Subset.refl _, prefix_rfl, prefix_rfl, rfl, rfl, rfl, rfl, fun _ => .inl⟩

theorem sendPromoteJob (epoch : ℕ) (sent : Bool) :
    Advances s (s.sendPromoteJob epoch sent) where
  committed := Finset.Subset.refl _
  results := by simp [FlushActor.sendPromoteJob]
  fifo := by simp [FlushActor.sendPromoteJob]
  completedGen := rfl
  parked := rfl
  answers := rfl
  gens := by cases sent <;> simp [FlushActor.sendPromoteJob]; omega
  done := fun epoch h => .inl (by simpa [FlushActor.sendPromoteJob] using h)

theorem retryFailedPromote (sent : Bool) : Advances s (s.retryFailedPromote sent) := by
  unfold FlushActor.retryFailedPromote
  split
  · exact refl s
  case h_2 epoch rest _ =>
    have hpop : Advances s { s with pipeline := { s.pipeline with failedPromotes := rest } } :=
      ⟨Finset.Subset.refl _, prefix_rfl, prefix_rfl, rfl, rfl, rfl, rfl, fun _ => .inl⟩
    exact hpop.trans (sendPromoteJob _ epoch sent)

theorem dispatchPromote (resent prepared sent : Bool) :
    Advances s (s.dispatchPromote resent prepared sent) := by
  have hretry := retryFailedPromote s resent
  simp only [FlushActor.dispatchPromote]
  split_ifs
  · exact hretry.trans ((takeWal _).trans (sendPromoteJob _ _ sent))
  · exact hretry

theorem start : Advances s { s with pipeline := s.pipeline.start } where
  committed := Finset.Subset.refl _
  results := by simp
  fifo := by simp
  completedGen := rfl
  parked := rfl
  answers := rfl
  gens := by simp
  done := fun epoch h => .inl (by simpa using h)

theorem finish (ok : Bool) : Advances s (s.finish ok) where
  committed := by cases ok <;> simp [FlushActor.finish]
  results := by simp [FlushActor.finish, results_finish]
  fifo := by simp [FlushActor.finish]
  completedGen := rfl
  parked := rfl
  answers := rfl
  gens := by simp [FlushActor.finish]
  done := by
    intro epoch h
    rw [FlushActor.finish] at h
    simp only [results_finish, mem_append, mem_map] at h
    rcases h with h | ⟨j, hj, heq⟩
    · exact .inl h
    · obtain ⟨rfl, hr⟩ := Prod.mk.inj heq
      cases ok with
      | false => cases hr
      | true =>
        refine .inr (Finset.mem_union_right _ ?_)
        exact mem_toFinset.mpr hj

variable {s}

theorem missing_subset (h : Advances s s') (upto : ℕ) : s'.missing upto ⊆ s.missing upto := by
  intro e he
  obtain ⟨hlt, hc⟩ := mem_missing.mp he
  exact mem_missing.mpr ⟨hlt, fun hc' => hc (h.committed hc')⟩

theorem kept (h : Advances s s') (hk : s.Kept) : s'.Kept where
  gens := by
    have h1 := h.gens
    have h2 := hk.gens
    have h3 := h.completedGen
    omega
  committed := by
    intro epoch hmem
    rcases h.done epoch hmem with hmem | hmem
    · exact h.committed (hk.committed epoch hmem)
    · exact hmem
  segment := by
    intro p hp epoch hw
    exact h.fifo.subset (hk.segment p (h.parked ▸ hp) epoch hw)
  barrier := by
    intro p hp neededGen hw
    have hb := hk.barrier p (h.parked ▸ hp) neededGen hw
    have h1 := h.gens
    have h2 := h.completedGen
    have h3 := h.fifo.length_le
    omega

theorem reliable (h : Advances s s') (hr : s.Reliable p) : s'.Reliable p := by
  cases hw : p.wait with
  | segment epoch =>
    rw [reliable_segment hw] at hr ⊢
    rcases hr with hr | hr
    · obtain ⟨more, hmore⟩ := h.results
      exact .inl (by rw [← hmore, lookup_append, hr, Option.some_or])
    · exact .inr fun e he => hr e (h.missing_subset p.upto he)
  | barrier neededGen =>
    rw [reliable_barrier hw] at hr ⊢
    rw [h.completedGen]
    rcases hr with ⟨epoch, hr⟩ | hr
    · exact .inl ⟨epoch, (h.results.take _).subset hr⟩
    · exact .inr fun e he => (h.fifo.take _).subset (hr e (h.missing_subset p.upto he))

theorem sound (h : Advances s s') (hs : s.Sound) : s'.Sound where
  truthful := by
    rw [Truthful, h.answers]
    exact hs.truthful
  reliable := by
    rw [h.parked]
    exact fun p hp => h.reliable (hs.reliable p hp)

end Advances

/-! ### Handling a result -/

theorem handle_of_nil (h : s.pipeline.results = []) (applied : Bool) : s.handle applied = s := by
  simp [handle, h]

/-- The epochs missing before and after a result is handled are the same. -/
@[simp] theorem committed_handle (s : FlushActor) (applied : Bool) :
    (s.handle applied).committed = s.committed := by
  unfold handle
  split <;> rfl

@[simp] theorem missing_handle (s : FlushActor) (applied : Bool) (upto : ℕ) :
    (s.handle applied).missing upto = s.missing upto := by
  simp [missing]

/-- Who is left parked after a result was not parked on it. -/
theorem mem_parked_handle {r : Option Unit} (h : s.pipeline.results = (epoch, r) :: rest)
    {applied : Bool} :
    p ∈ (s.handle applied).parked ↔ p ∈ s.parked ∧
      match r with
      | some () => p.wait.satisfiedBy (s.completedGen + 1) epoch = false
      | none => p.wait.failedBy epoch = false := by
  cases r <;> simp [handle, h]

theorem handle_gens {x : ℕ × Option Unit} (h : s.pipeline.results = x :: rest) (applied : Bool) :
    (s.handle applied).pipeline = s.pipeline.settle ∧
      (s.handle applied).completedGen = s.completedGen + 1 ∧
      (s.handle applied).promoteGen = s.promoteGen := by
  obtain ⟨epoch, r⟩ := x
  cases r <;> simp [handle, h]

theorem Kept.handle (hk : s.Kept) (applied : Bool) : (s.handle applied).Kept := by
  cases hres : s.pipeline.results with
  | nil => rwa [handle_of_nil hres]
  | cons x rest =>
    obtain ⟨epoch, r⟩ := x
    obtain ⟨hfifo, hrest⟩ := fifo_settle hres
    obtain ⟨hpipe, hdone, hgen⟩ := handle_gens hres applied
    have hgens := hk.gens
    rw [hfifo, length_cons] at hgens
    refine ⟨?_, ?_, ?_, ?_⟩
    · rw [hpipe]
      omega
    · intro e he
      rw [hpipe, hrest] at he
      rw [committed_handle]
      exact hk.committed e (hres ▸ mem_cons_of_mem _ he)
    · intro p hp e hw
      obtain ⟨hp, hleft⟩ := (mem_parked_handle hres).mp hp
      have hne : e ≠ epoch := by
        rintro rfl
        cases r <;> simp [hw, Wait.satisfiedBy, Wait.failedBy] at hleft
      have hmem := hk.segment p hp e hw
      rw [hfifo, mem_cons] at hmem
      rw [hpipe]
      exact hmem.resolve_left hne
    · intro p hp neededGen hw
      obtain ⟨hp, hleft⟩ := (mem_parked_handle hres).mp hp
      have hb := hk.barrier p hp neededGen hw
      cases r with
      | none => simp [hw, Wait.failedBy] at hleft
      | some u =>
        simp only [hw, Wait.satisfiedBy, decide_eq_false_iff_not] at hleft
        omega

/-- A request that a result satisfies waited for the only epoch still missing. -/
theorem Sound.missing_eq_empty (hs : s.Sound) (hk : s.Kept)
    (hres : s.pipeline.results = (epoch, some ()) :: rest) (hp : p ∈ s.parked)
    (hsat : p.wait.satisfiedBy (s.completedGen + 1) epoch = true) : s.missing p.upto = ∅ := by
  have hcommitted : epoch ∈ s.committed := hk.committed epoch (by simp [hres])
  have hr := hs.reliable p hp
  refine Finset.eq_empty_of_forall_notMem fun e he => ?_
  have hne : e ≠ epoch := fun heq => (mem_missing.mp he).2 (heq ▸ hcommitted)
  cases hw : p.wait with
  | segment e' =>
    rw [hw] at hsat
    obtain rfl : e' = epoch := of_decide_eq_true hsat
    rcases (reliable_segment hw).mp hr with hr | hr
    · simp [hres] at hr
    · exact hne (hr e he)
  | barrier neededGen =>
    rw [hw] at hsat
    have hle : neededGen ≤ s.completedGen + 1 := of_decide_eq_true hsat
    obtain ⟨hlt, -⟩ := hk.barrier p hp neededGen hw
    have hone : neededGen - s.completedGen = 1 := by omega
    rw [reliable_barrier hw, hone] at hr
    rcases hr with ⟨e', he'⟩ | hr
    · simp [hres] at he'
    · have hfirst := hr e he
      rw [(fifo_settle hres).1] at hfirst
      exact hne (by simpa using hfirst)

/-- A request that is still parked is as reliable as before. -/
theorem Reliable.handle {r : Option Unit} (hk : s.Kept)
    (hres : s.pipeline.results = (epoch, r) :: rest) {applied : Bool}
    (hp : p ∈ (s.handle applied).parked) (hr : s.Reliable p) : (s.handle applied).Reliable p := by
  obtain ⟨hfifo, hrest⟩ := fifo_settle hres
  obtain ⟨hpipe, hdone, -⟩ := handle_gens hres applied
  obtain ⟨hp, hleft⟩ := (mem_parked_handle hres).mp hp
  cases hw : p.wait with
  | segment e =>
    have hne : (e == epoch) = false := by
      cases r <;> simpa [hw, Wait.satisfiedBy, Wait.failedBy] using hleft
    rw [reliable_segment hw, hres, lookup_cons, hne] at hr
    rw [reliable_segment hw, hpipe, hrest, missing_handle]
    exact hr
  | barrier neededGen =>
    cases r with
    | none => simp [hw, Wait.failedBy] at hleft
    | some u =>
      simp only [hw, Wait.satisfiedBy, decide_eq_false_iff_not] at hleft
      have hsucc : neededGen - s.completedGen = neededGen - (s.completedGen + 1) + 1 := by omega
      rw [reliable_barrier hw, hsucc, hres, hfifo] at hr
      rw [reliable_barrier hw, hpipe, hdone, hrest, missing_handle]
      rcases hr with ⟨e, he⟩ | hr
      · exact .inl ⟨e, by simpa using he⟩
      · refine .inr fun e he => (mem_cons.mp (hr e he)).resolve_left ?_
        rintro rfl
        exact (mem_missing.mp he).2 (hk.committed e (by simp [hres]))

theorem Sound.handle (hs : s.Sound) (hk : s.Kept) (applied : Bool) : (s.handle applied).Sound := by
  cases hres : s.pipeline.results with
  | nil => rwa [handle_of_nil hres]
  | cons x rest =>
    obtain ⟨epoch, r⟩ := x
    refine ⟨?_, fun p hp => (hs.reliable p ((mem_parked_handle hres).mp hp).1).handle hk hres hp⟩
    cases r with
    | none =>
      intro m hm
      exact hs.truthful m (by simpa [FlushActor.handle, hres] using hm)
    | some u =>
      intro m hm
      simp only [FlushActor.handle, hres, mem_append] at hm
      rcases hm with hm | hm
      · exact hs.truthful m hm
      · cases applied with
        | false => simp at hm
        | true =>
          obtain ⟨p, hp, rfl⟩ := mem_map.mp hm
          obtain ⟨hp, hsat⟩ := mem_filter.mp hp
          exact hs.missing_eq_empty hk hres hp hsat

/-! ### Steps that are no requests -/

variable {a : Action}

theorem advances_of_not_request (ha : a.isRequest = false) :
    (∃ applied, a = .handle applied) ∨ Advances s (s.step a) := by
  cases a with
  | write => exact .inr (Advances.write s)
  | trigger resent prepared sent => exact .inr (Advances.dispatchPromote s resent prepared sent)
  | promoteWal | gcCheckpoint => cases ha
  | start => exact .inr (Advances.start s)
  | finish ok => exact .inr (Advances.finish s ok)
  | handle applied => exact .inl ⟨applied, rfl⟩

theorem Kept.step_of_not_request (hk : s.Kept) (ha : a.isRequest = false) : (s.step a).Kept := by
  rcases advances_of_not_request ha with ⟨applied, rfl⟩ | h
  · exact hk.handle applied
  · exact h.kept hk

theorem Sound.step_of_not_request (hs : s.Sound) (hk : s.Kept) (ha : a.isRequest = false) :
    (s.step a).Sound := by
  rcases advances_of_not_request ha with ⟨applied, rfl⟩ | h
  · exact hs.handle hk applied
  · exact h.sound hs

theorem Sound.safe (hs : s.Sound) (hk : s.Kept) : s.Safe := by
  intro as has
  induction as generalizing s with
  | nil => exact hs.truthful
  | cons a as ih =>
    obtain ⟨ha, has⟩ := forall_mem_cons.mp has
    exact ih (hs.step_of_not_request hk ha) (hk.step_of_not_request ha) has

end FlushActor

end Elide
