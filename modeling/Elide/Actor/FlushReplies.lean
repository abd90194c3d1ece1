import Elide.Actor.FlushActor

/-!
# What the reply to a flush request means

A parked request is answered wrongly by some continuation as soon as an epoch it does not wait for
is missing on disk: let the worker succeed on what the request waits for and fail on that epoch.
With the converse of the previous module this makes the state in which a request arrives decide.

## Main results

* `FlushActor.safe_iff_sound`: no continuation answers a parked request wrongly exactly when every
  parked request is reliable.
* `FlushActor.replies_true_iff`: a run answers no request wrongly, whatever follows, exactly when
  every request arrives in a state that covers it.
-/

namespace Elide

open List Pipeline Wait Nat

namespace FlushActor

variable {s s' s'' : FlushActor} {p : Parked}

/-! ### What follows from safety -/

theorem Safe.foldl (h : s.Safe) {as : List Action} (has : ∀ a ∈ as, a.isRequest = false) :
    (as.foldl step s).Safe := by
  intro bs hbs
  rw [← foldl_append]
  refine h (as ++ bs) fun a ha => ?_
  rcases mem_append.mp ha with ha | ha
  · exact has a ha
  · exact hbs a ha

theorem Safe.handle (h : s.Safe) (applied : Bool) : (s.handle applied).Safe := by
  have hone : ∀ a ∈ [Action.handle applied], a.isRequest = false := by simp [Action.isRequest]
  exact h.foldl hone

/-- The results of a worker that succeeds on the epochs `ok` and fails on the others. -/
def outcomes (ok : ℕ → Bool) (epochs : List ℕ) : List (ℕ × Option Unit) :=
  epochs.map fun e => (e, if ok e then some () else none)

/-- Between `s` and `s'` the worker has executed `jobs`, and nothing else has happened. -/
structure Driven (ok : ℕ → Bool) (jobs : List ℕ) (s s' : FlushActor) : Prop where
  results : s'.pipeline.results = s.pipeline.results ++ outcomes ok jobs
  parked : s'.parked = s.parked
  completedGen : s'.completedGen = s.completedGen
  committed : ∀ e ∈ s'.committed, e ∈ s.committed ∨ ok e = true

variable {ok : ℕ → Bool}

theorem Driven.trans {jobs jobs' : List ℕ} (h : Driven ok jobs s s') (h' : Driven ok jobs' s' s'') :
    Driven ok (jobs ++ jobs') s s'' where
  results := by rw [h'.results, h.results, outcomes, outcomes, outcomes, map_append, append_assoc]
  parked := h'.parked.trans h.parked
  completedGen := h'.completedGen.trans h.completedGen
  committed := by
    intro e he
    rcases h'.committed e he with hc | hc
    · exact h.committed e hc
    · exact .inr hc

variable (ok) {e : ℕ}

/-- The worker finishes its job as `ok` says. -/
theorem driven_finish (hrun : s.pipeline.running = some e) :
    Driven ok [e] s (s.step (.finish (ok e))) where
  results := by simp [step, finish, Pipeline.finish, hrun, outcomes]
  parked := rfl
  completedGen := rfl
  committed := by
    intro e' he'
    cases hok : ok e with
    | false => exact .inl (by simpa [step, finish, hok] using he')
    | true =>
      simp only [step, finish, hok, hrun, if_true, Option.toList_some, toFinset_cons,
        toFinset_nil, insert_empty_eq, Finset.mem_union, Finset.mem_singleton] at he'
      rcases he' with he' | rfl
      · exact .inl he'
      · exact .inr hok

theorem exists_driven_queue (hidle : s.pipeline.running = none) :
    ∃ as : List Action, (∀ a ∈ as, a.isRequest = false) ∧
      Driven ok s.pipeline.queue s (as.foldl step s) := by
  induction hq : s.pipeline.queue generalizing s with
  | nil => exact ⟨[], by simp, by simp [outcomes], rfl, rfl, fun e he => .inl he⟩
  | cons e queue ih =>
    have hpipe : (s.step .start).pipeline =
        { s.pipeline with queue := queue, running := some e } := by
      simp [step, Pipeline.start, hidle, hq]
    have hstart : Driven ok [] s (s.step .start) :=
      ⟨by rw [hpipe]; simp [outcomes], rfl, rfl, fun e he => .inl he⟩
    have hfinish : Driven ok [e] (s.step .start) ((s.step .start).step (.finish (ok e))) :=
      driven_finish ok (by rw [hpipe])
    have hqueue : ((s.step .start).step (.finish (ok e))).pipeline.queue = queue := by
      simp [step, finish, Pipeline.finish, Pipeline.start, hidle, hq]
    obtain ⟨as, has, hrest⟩ := ih (Pipeline.running_finish _ _) hqueue
    refine ⟨.start :: .finish (ok e) :: as, ?_, hstart.trans (hfinish.trans hrest)⟩
    exact forall_mem_cons.mpr ⟨rfl, forall_mem_cons.mpr ⟨rfl, has⟩⟩

theorem exists_driven (s : FlushActor) : ∃ as : List Action, (∀ a ∈ as, a.isRequest = false) ∧
      Driven ok (s.pipeline.running.toList ++ s.pipeline.queue) s (as.foldl step s) := by
  cases hrun : s.pipeline.running with
  | none => exact exists_driven_queue ok hrun
  | some e =>
    have hidle : (s.step (.finish (ok e))).pipeline.running = none := Pipeline.running_finish _ _
    have hqueue : (s.step (.finish (ok e))).pipeline.queue = s.pipeline.queue := by
      simp [step, finish, Pipeline.finish, hrun]
    obtain ⟨as, has, hrest⟩ := exists_driven_queue ok hidle
    rw [hqueue] at hrest
    exact ⟨.finish (ok e) :: as, forall_mem_cons.mpr ⟨rfl, has⟩,
      (driven_finish ok hrun).trans hrest⟩

variable {ok} {epoch : ℕ}

/-- A result that satisfies a request with a missing epoch answers it wrongly. -/
theorem Safe.not_missing (h : s.Safe) {rest : List (ℕ × Option Unit)}
    (hres : s.pipeline.results = (epoch, some ()) :: rest) (hp : p ∈ s.parked)
    (hsat : p.wait.satisfiedBy (s.completedGen + 1) epoch = true) : e ∉ s.missing p.upto := by
  intro he
  have hanswer : s.missing p.upto ∈ (s.handle true).answers := by
    simp only [FlushActor.handle, hres, if_true, mem_append, mem_map, mem_filter]
    exact .inr ⟨p, ⟨hp, hsat⟩, rfl⟩
  have hempty := (h.handle true) [] (by simp) _ hanswer
  rw [hempty] at he
  exact absurd he (Finset.notMem_empty e)

theorem Safe.not_missing_of_segment (h : s.Safe) (hp : p ∈ s.parked)
    (hw : p.wait = .segment epoch) (hok : s.pipeline.results.lookup epoch = some (some ())) :
    e ∉ s.missing p.upto := by
  induction hres : s.pipeline.results generalizing s with
  | nil => simp [hres] at hok
  | cons x rest ih =>
    obtain ⟨j, r⟩ := x
    rw [hres, lookup_cons] at hok
    by_cases hj : epoch = j
    · subst hj
      obtain rfl : r = some () := by simpa using hok
      exact h.not_missing hres hp (by simp [hw, satisfiedBy])
    · have hne : (epoch == j) = false := by simpa using hj
      have hpipe := (handle_gens hres true).1
      have hstays : p ∈ (s.handle true).parked := by
        refine (mem_parked_handle hres).mpr ⟨hp, ?_⟩
        cases r <;> simp [hw, satisfiedBy, failedBy, hj]
      have hrest : (s.handle true).pipeline.results = rest := by
        rw [hpipe, (fifo_settle hres).2]
      have hlookup : (s.handle true).pipeline.results.lookup epoch = some (some ()) := by
        rw [hrest]
        simpa [hne] using hok
      have hih := ih (h.handle true) hstays hlookup hrest
      rwa [missing_handle] at hih

theorem Safe.not_missing_of_barrier (h : s.Safe) {neededGen e : ℕ} (hp : p ∈ s.parked)
    (hw : p.wait = .barrier neededGen) (hlt : s.completedGen < neededGen)
    (hlen : neededGen - s.completedGen ≤ s.pipeline.results.length)
    (hok : ∀ j, (j, none) ∉ s.pipeline.results.take (neededGen - s.completedGen)) :
    e ∉ s.missing p.upto := by
  induction hres : s.pipeline.results generalizing s with
  | nil =>
    rw [hres, length_nil] at hlen
    omega
  | cons x rest ih =>
    obtain ⟨j, r⟩ := x
    have hsucc : neededGen - s.completedGen = neededGen - (s.completedGen + 1) + 1 := by omega
    rw [hres, hsucc] at hok
    obtain rfl : r = some () := by
      cases r with
      | none => exact absurd mem_cons_self (hok j)
      | some u => rfl
    by_cases hlast : neededGen ≤ s.completedGen + 1
    · exact h.not_missing hres hp (by simpa [hw, satisfiedBy] using hlast)
    · obtain ⟨hpipe, hdone, -⟩ := handle_gens hres true
      have hstays : p ∈ (s.handle true).parked :=
        (mem_parked_handle hres).mpr ⟨hp, by simpa [hw, satisfiedBy] using hlast⟩
      have hrest : (s.handle true).pipeline.results = rest := by
        rw [hpipe, (fifo_settle hres).2]
      have hih := ih (h.handle true) hstays (by rw [hdone]; omega)
        (by rw [hrest]; rw [hres, length_cons] at hlen; omega)
        (by
          rw [hdone, hrest]
          exact fun i hi => hok i (mem_cons_of_mem _ hi)) hrest
      rwa [missing_handle] at hih

theorem lookup_outcomes {epochs : List ℕ} (he : e ∈ epochs) :
    (outcomes ok epochs).lookup e = some (if ok e then some () else none) := by
  induction epochs with
  | nil => cases he
  | cons j js ih =>
    rw [outcomes, map_cons, lookup_cons]
    by_cases hj : e = j
    · simp [hj]
    · have hne : (e == j) = false := by simpa using hj
      rw [hne]
      exact ih ((mem_cons.mp he).resolve_left hj)

/-- An epoch that is missing and that the worker does not commit stays missing. -/
theorem Driven.mem_missing {jobs : List ℕ} (h : Driven ok jobs s s') {upto e : ℕ}
    (he : e ∈ s.missing upto) (hok : ok e = false) : e ∈ s'.missing upto := by
  obtain ⟨hlt, hc⟩ := FlushActor.mem_missing.mp he
  refine FlushActor.mem_missing.mpr ⟨hlt, fun hc' => ?_⟩
  rcases h.committed e hc' with hc' | hc'
  · exact hc hc'
  · rw [hok] at hc'
    cases hc'

/-- The worker commits the awaited epoch and no other. -/
theorem Safe.reliable_of_segment (h : s.Safe) (hk : s.Kept) (hp : p ∈ s.parked)
    (hw : p.wait = .segment epoch) : s.Reliable p := by
  rw [reliable_segment hw, or_iff_not_imp_left]
  intro hfail e he
  by_contra hne
  obtain ⟨as, has, hd⟩ := exists_driven (fun j => decide (j = epoch)) s
  have hlookup : (as.foldl step s).pipeline.results.lookup epoch = some (some ()) := by
    rw [hd.results, lookup_append]
    cases hlook : s.pipeline.results.lookup epoch with
    | some r =>
      cases r with
      | none => exact absurd hlook hfail
      | some u => rfl
    | none =>
      have hout : epoch ∉ s.pipeline.results.map Prod.fst := by
        intro hmem
        obtain ⟨x, hx, rfl⟩ := mem_map.mp hmem
        simpa using lookup_eq_none_iff.mp hlook x hx
      have hmem := hk.segment p hp epoch hw
      rw [fifo, mem_append] at hmem
      rw [lookup_outcomes (hmem.resolve_left hout)]
      simp
  have hparked : p ∈ (as.foldl step s).parked := hd.parked ▸ hp
  exact (h.foldl has).not_missing_of_segment hparked hw hlookup
    (hd.mem_missing he (by simpa using hne))

/-- The worker commits every epoch but one the barrier does not wait for. -/
theorem Safe.reliable_of_barrier (h : s.Safe) (hk : s.Kept) (hp : p ∈ s.parked) {neededGen : ℕ}
    (hw : p.wait = .barrier neededGen) : s.Reliable p := by
  rw [reliable_barrier hw, or_iff_not_imp_left]
  intro hfail e he
  by_contra hout
  obtain ⟨as, has, hd⟩ := exists_driven (fun j => decide (j ≠ e)) s
  obtain ⟨hlt, hle⟩ := hk.barrier p hp neededGen hw
  have hlength : (as.foldl step s).pipeline.results.length = s.pipeline.fifo.length := by
    rw [hd.results, fifo]
    simp [outcomes]
  have hgens := hk.gens
  have hparked : p ∈ (as.foldl step s).parked := hd.parked ▸ hp
  refine (h.foldl has).not_missing_of_barrier hparked hw (by rw [hd.completedGen]; exact hlt)
    (by rw [hd.completedGen]; omega) ?_ (hd.mem_missing he (by simp))
  intro j hj
  rw [hd.completedGen, hd.results, take_append, mem_append] at hj
  rcases hj with hj | hj
  · exact hfail ⟨j, hj⟩
  · -- the only failure of the worker is the epoch behind the barrier
    rw [outcomes, ← map_take] at hj
    obtain ⟨i, hi, heq⟩ := mem_map.mp hj
    have hie : i = e := by
      by_contra hie
      simp [hie] at heq
    refine hout ?_
    rw [fifo, take_append, length_map, mem_append]
    exact .inr (hie ▸ hi)

/-- **A parked request is never answered wrongly exactly when each one is reliable.** -/
theorem safe_iff_sound (hk : s.Kept) : s.Safe ↔ s.Sound := by
  refine ⟨fun h => ⟨h [] (by simp), fun p hp => ?_⟩, fun h => h.safe hk⟩
  cases hw : p.wait with
  | segment epoch => exact h.reliable_of_segment hk hp hw
  | barrier neededGen => exact h.reliable_of_barrier hk hp hw

/-! ### Every promote is in one place -/

/-- The promotes taken and not applied, those in flight first. -/
def jobs (s : FlushActor) : List ℕ := s.pipeline.fifo ++ s.pipeline.failedPromotes

/-- No promote is in two places, and the current epoch is not taken yet. -/
structure Distinct (s : FlushActor) : Prop where
  nodup : s.jobs.Nodup
  taken : ∀ e ∈ s.jobs, e < s.next

theorem Distinct.of_perm (h : s.Distinct) (hjobs : s'.jobs.Perm s.jobs) (hnext : s'.next = s.next) :
    s'.Distinct :=
  ⟨hjobs.nodup_iff.mpr h.nodup, fun e he => hnext ▸ h.taken e (hjobs.mem_iff.mp he)⟩

theorem jobs_sendPromoteJob (s : FlushActor) (epoch : ℕ) (sent : Bool) :
    (s.sendPromoteJob epoch sent).jobs.Perm (epoch :: s.jobs) := by
  have hfifo : (s.sendPromoteJob epoch sent).pipeline.fifo =
      s.pipeline.fifo ++ if sent then [epoch] else [] := fifo_sendPromoteJob ..
  rw [jobs, hfifo]
  cases sent with
  | true =>
    rw [append_assoc]
    exact perm_middle
  | false =>
    have hstash : (s.sendPromoteJob epoch false).pipeline.failedPromotes =
        s.pipeline.failedPromotes ++ [epoch] := rfl
    rw [hstash, if_neg Bool.false_ne_true, append_nil, ← append_assoc]
    exact perm_append_singleton epoch _

theorem Distinct.retryFailedPromote (h : s.Distinct) (sent : Bool) :
    (s.retryFailedPromote sent).Distinct := by
  unfold FlushActor.retryFailedPromote
  split
  · exact h
  case h_2 epoch rest hstash =>
    refine h.of_perm ((jobs_sendPromoteJob _ epoch sent).trans ?_) rfl
    rw [jobs, jobs, hstash]
    exact perm_middle.symm

theorem Distinct.takeWal (h : s.Distinct) (sent : Bool) :
    (s.takeWal.sendPromoteJob s.next sent).Distinct := by
  have hperm := jobs_sendPromoteJob s.takeWal s.next sent
  constructor
  · rw [hperm.nodup_iff, nodup_cons]
    exact ⟨fun hmem => absurd (h.taken _ hmem) (lt_irrefl _), h.nodup⟩
  · intro e he
    rcases mem_cons.mp (hperm.mem_iff.mp he) with rfl | he
    · exact lt_succ_self _
    · exact lt_succ_of_lt (h.taken e he)

theorem Distinct.handle (h : s.Distinct) (applied : Bool) : (s.handle applied).Distinct := by
  cases hres : s.pipeline.results with
  | nil => rwa [handle_of_nil hres]
  | cons x rest =>
    obtain ⟨epoch, r⟩ := x
    obtain ⟨hfifo, -⟩ := fifo_settle hres
    have hpipe := (handle_gens hres applied).1
    have hnext : (s.handle applied).next = s.next := by
      cases r <;> simp [FlushActor.handle, hres]
    have hnodup := h.nodup
    have htaken := h.taken
    rw [jobs, hfifo] at hnodup htaken
    cases r with
    | some u =>
      have hjobs : (s.handle applied).jobs =
          s.pipeline.settle.fifo ++ s.pipeline.failedPromotes := by
        rw [jobs, hpipe]
        simp [settle, hres]
      refine ⟨by rw [hjobs]; exact (nodup_cons.mp hnodup).2, ?_⟩
      rw [hjobs, hnext]
      exact fun e he => htaken e (mem_cons_of_mem _ he)
    | none =>
      refine h.of_perm ?_ hnext
      have hjobs : (s.handle applied).jobs =
          s.pipeline.settle.fifo ++ (s.pipeline.failedPromotes ++ [epoch]) := by
        rw [jobs, hpipe]
        simp [settle, hres]
      rw [hjobs, jobs, hfifo, ← append_assoc]
      exact perm_append_singleton epoch _

/-! ### Requests -/

/-- What a retry leaves alone, and where the job goes. -/
theorem retryFailedPromote_frame (s : FlushActor) (sent : Bool) :
    (s.retryFailedPromote sent).dirty = s.dirty ∧ (s.retryFailedPromote sent).next = s.next ∧
      (s.retryFailedPromote sent).committed = s.committed ∧
      (s.retryFailedPromote sent).pipeline.results = s.pipeline.results ∧
      (s.retryFailedPromote sent).pipeline.fifo = s.pipeline.fifo ++ (s.retried sent).toList := by
  unfold retryFailedPromote retried
  cases hstash : s.pipeline.failedPromotes with
  | nil => simp
  | cons epoch rest =>
    cases sent <;> simp [sendPromoteJob, Pipeline.sendPromoteJob, Pipeline.fifo]

theorem sound_park_iff : (s.park p).Sound ↔ s.Sound ∧ s.Reliable p := by
  constructor
  · intro h
    exact ⟨⟨h.truthful, fun q hq => h.reliable q (mem_append_left _ hq)⟩,
      h.reliable p (mem_append_right _ mem_cons_self)⟩
  · rintro ⟨h, hp⟩
    exact ⟨h.truthful, forall_mem_append.mpr ⟨h.reliable, forall_mem_singleton.mpr hp⟩⟩

theorem sound_reply_iff {upto : ℕ} : (s.reply upto).Sound ↔ s.Sound ∧ s.missing upto = ∅ := by
  constructor
  · intro h
    exact ⟨⟨fun m hm => h.truthful m (mem_append_left _ hm), h.reliable⟩,
      h.truthful _ (mem_append_right _ mem_cons_self)⟩
  · rintro ⟨h, hempty⟩
    exact ⟨forall_mem_append.mpr ⟨h.truthful, forall_mem_singleton.mpr hempty⟩, h.reliable⟩

theorem missing_congr (h : s'.committed = s.committed) (upto : ℕ) :
    s'.missing upto = s.missing upto := by
  rw [missing, missing, h]

theorem lookup_ne_of_notMem (h : epoch ∉ s.pipeline.fifo) :
    s.pipeline.results.lookup epoch ≠ some none := by
  intro hlook
  refine h (mem_append_left _ ?_)
  by_contra hout
  have hnone : s.pipeline.results.lookup epoch = none := by
    refine lookup_eq_none_iff.mpr fun x hx => ?_
    have hne : epoch ≠ x.1 := fun heq => hout (mem_map.mpr ⟨x, hx, heq.symm⟩)
    simpa using hne
  rw [hnone] at hlook
  cases hlook

/-- The epoch of the WAL is taken: all older ones have to be on disk. -/
theorem sound_taken_iff (hs : s.Sound) (hd : s.Distinct) (hdirty : s.dirty = true) (resent : Bool)
    (checkpoint : Bool) :
    (((s.retryFailedPromote resent).takeWal.sendPromoteJob s.next true).park
      ⟨checkpoint, .segment s.next, s.upto⟩).Sound ↔ s.missing s.next = ∅ := by
  obtain ⟨-, -, hcommitted, hresults, -⟩ := retryFailedPromote_frame s resent
  have hsound := (((Advances.retryFailedPromote s resent).trans (Advances.takeWal _)).trans
    (Advances.sendPromoteJob _ s.next true)).sound hs
  have hout : s.next ∉ s.pipeline.fifo := fun hmem =>
    lt_irrefl _ (hd.taken s.next (mem_append_left _ hmem))
  have hlook : ((s.retryFailedPromote resent).takeWal.sendPromoteJob s.next
      true).pipeline.results = s.pipeline.results := by
    simpa [sendPromoteJob, takeWal] using hresults
  have hmissing : ∀ n, ((s.retryFailedPromote resent).takeWal.sendPromoteJob s.next
      true).missing n = s.missing n := fun n => missing_congr hcommitted n
  rw [sound_park_iff, and_iff_right hsound, reliable_segment rfl, hlook, hmissing,
    or_iff_right (lookup_ne_of_notMem hout), upto, if_pos hdirty]
  constructor
  · intro h
    refine Finset.eq_empty_of_forall_notMem fun e he => ?_
    obtain ⟨hlt, hc⟩ := mem_missing.mp he
    have heq := h e (mem_missing.mpr ⟨lt_succ_of_lt hlt, hc⟩)
    omega
  · intro h e he
    obtain ⟨hlt, hc⟩ := mem_missing.mp he
    by_contra hne
    have hbelow : e < s.next := lt_of_le_of_ne (Nat.lt_succ_iff.mp hlt) hne
    have hmem : e ∈ s.missing s.next := mem_missing.mpr ⟨hbelow, hc⟩
    rw [h] at hmem
    exact absurd hmem (Finset.notMem_empty e)

/-- The WAL is empty and the reply waits for the re-dispatched epoch. -/
theorem sound_retried_iff (hs : s.Sound) (hd : s.Distinct) (hdirty : s.dirty = false)
    {resent : Bool} (hretried : s.retried resent = some epoch) :
    ((s.retryFailedPromote resent).park ⟨false, .segment epoch, s.upto⟩).Sound ↔
      ∀ e ∈ s.missing s.next, e = epoch := by
  obtain ⟨-, -, hcommitted, hresults, -⟩ := retryFailedPromote_frame s resent
  have hsound := (Advances.retryFailedPromote s resent).sound hs
  have hout : epoch ∉ s.pipeline.fifo := by
    intro hmem
    have hstash : epoch ∈ s.pipeline.failedPromotes := by
      rw [retried] at hretried
      split_ifs at hretried
      exact mem_of_mem_head? hretried
    exact (disjoint_of_nodup_append hd.nodup) hmem hstash
  rw [sound_park_iff, and_iff_right hsound, reliable_segment rfl, hresults,
    missing_congr hcommitted, or_iff_right (lookup_ne_of_notMem hout), upto, hdirty]
  rfl

/-- A checkpoint on an empty WAL: what is missing has to be in flight. -/
theorem sound_barrier_iff (hs : s.Sound) (hk : s.Kept) (hdirty : s.dirty = false) (resent : Bool) :
    (if (s.retryFailedPromote resent).completedGen ≥ (s.retryFailedPromote resent).promoteGen then
        (s.retryFailedPromote resent).reply s.upto
      else (s.retryFailedPromote resent).park
        ⟨true, .barrier (s.retryFailedPromote resent).promoteGen, s.upto⟩).Sound ↔
      (∃ epoch, (epoch, none) ∈ s.pipeline.results) ∨
        ∀ e ∈ s.missing s.next, e ∈ s.pipeline.fifo ∨ s.retried resent = some e := by
  obtain ⟨-, -, hcommitted, hresults, hfifo⟩ := retryFailedPromote_frame s resent
  have hadv := Advances.retryFailedPromote s resent
  have hgens := (hadv.kept hk).gens
  have hupto : s.upto = s.next := by rw [upto, hdirty]; rfl
  generalize s.retryFailedPromote resent = s' at *
  have hmem : ∀ e, e ∈ s'.pipeline.fifo ↔ e ∈ s.pipeline.fifo ∨ s.retried resent = some e := by
    intro e
    rw [hfifo, mem_append, Option.mem_toList]
  split_ifs with hall
  · -- nothing is in flight, so nothing may be missing
    have hnil : s'.pipeline.fifo = [] := length_eq_zero_iff.mp (by omega)
    have hnone : ¬ ∃ epoch, (epoch, none) ∈ s.pipeline.results := by
      rintro ⟨epoch, hres⟩
      have hin : epoch ∈ s.pipeline.fifo :=
        mem_append_left _ (mem_map.mpr ⟨_, hres, rfl⟩)
      have hin' := (hmem epoch).mpr (.inl hin)
      rw [hnil] at hin'
      cases hin'
    rw [sound_reply_iff, and_iff_right (hadv.sound hs), missing_congr hcommitted, hupto,
      or_iff_right hnone]
    simp only [← hmem, hnil, not_mem_nil]
    exact ⟨fun h e he => absurd (h ▸ he) (Finset.notMem_empty e),
      fun h => Finset.eq_empty_of_forall_notMem h⟩
  · have hlen : s'.promoteGen - s'.completedGen = s'.pipeline.fifo.length := by omega
    have hres : s'.pipeline.results.length ≤ s'.pipeline.fifo.length := by
      rw [fifo, length_append, length_map]
      omega
    rw [sound_park_iff, and_iff_right (hadv.sound hs), reliable_barrier rfl, hlen,
      take_of_length_le hres, take_length, hresults, missing_congr hcommitted, hupto]
    simp only [hmem]

/-- **A request keeps the actor sound exactly when it arrives in a state that covers it.** -/
theorem sound_request_iff (hs : s.Sound) (hk : s.Kept) (hd : s.Distinct) {a : Action}
    (ha : a.isRequest = true) : (s.step a).Sound ↔ s.Covers a := by
  have hretry := fun resent => (Advances.retryFailedPromote s resent).sound hs
  have hsent := fun resent sent => ((Advances.takeWal (s.retryFailedPromote resent)).trans
    (Advances.sendPromoteJob _ s.next sent)).sound (hretry resent)
  cases a with
  | promoteWal resent prepared sent =>
    obtain ⟨hdirty, hnext, -⟩ := retryFailedPromote_frame s resent
    simp only [step, promoteWal, Covers, hdirty, hnext]
    cases hd' : s.dirty with
    | true =>
      cases prepared with
      | false => simpa using hretry resent
      | true =>
        cases sent with
        | false => simpa using hsent resent false
        | true => simpa using sound_taken_iff hs hd hd' resent false
    | false =>
      cases hretried : s.retried resent with
      | some epoch => simpa using sound_retried_iff hs hd hd' hretried
      | none =>
        have hupto : s.upto = s.next := by rw [upto, hd']; rfl
        have hcommitted := (retryFailedPromote_frame s resent).2.2.1
        simp only [Bool.false_eq_true, if_false]
        rw [sound_reply_iff, and_iff_right (hretry resent), missing_congr hcommitted, hupto]
  | gcCheckpoint resent prepared sent =>
    obtain ⟨hdirty, hnext, -⟩ := retryFailedPromote_frame s resent
    simp only [step, gcCheckpoint, Covers, hdirty, hnext]
    cases hparked : s.parked.any (·.checkpoint) with
    | true => simpa using hs
    | false =>
      cases hd' : s.dirty with
      | true =>
        cases prepared with
        | false => simpa using hretry resent
        | true =>
          cases sent with
          | false => simpa using hsent resent false
          | true => simpa using sound_taken_iff hs hd hd' resent true
      | false => simpa using sound_barrier_iff hs hk hd' resent
  | write | trigger | start | finish | handle => cases ha

/-! ### Bookkeeping of a request -/

theorem Kept.park (hk : s.Kept) (hsegment : ∀ e, p.wait = .segment e → e ∈ s.pipeline.fifo)
    (hbarrier : ∀ n, p.wait = .barrier n → s.completedGen < n ∧ n ≤ s.promoteGen) :
    (s.park p).Kept :=
  ⟨hk.gens, hk.committed, forall_mem_append.mpr ⟨hk.segment, forall_mem_singleton.mpr hsegment⟩,
    forall_mem_append.mpr ⟨hk.barrier, forall_mem_singleton.mpr hbarrier⟩⟩

theorem Kept.reply (hk : s.Kept) (upto : ℕ) : (s.reply upto).Kept :=
  ⟨hk.gens, hk.committed, hk.segment, hk.barrier⟩

theorem Kept.parkTaken (hk : s.Kept) (epoch : ℕ) (checkpoint : Bool) (upto : ℕ) :
    ((s.takeWal.sendPromoteJob epoch true).park ⟨checkpoint, .segment epoch, upto⟩).Kept := by
  refine (((Advances.takeWal s).trans (Advances.sendPromoteJob _ epoch true)).kept hk).park ?_ ?_
  · intro e he
    obtain rfl := segment.inj he
    simp [sendPromoteJob]
  · intro n hn
    cases hn

theorem Kept.step (hk : s.Kept) (a : Action) : (s.step a).Kept := by
  cases ha : a.isRequest with
  | false => exact hk.step_of_not_request ha
  | true =>
    have hretry := fun resent => (Advances.retryFailedPromote s resent).kept hk
    have hsent := fun resent epoch sent => ((Advances.takeWal (s.retryFailedPromote resent)).trans
      (Advances.sendPromoteJob _ epoch sent)).kept (hretry resent)
    cases a with
    | promoteWal resent prepared sent =>
      simp only [FlushActor.step, promoteWal]
      split_ifs with hdirty hprepared hsent'
      · subst hsent'
        exact (hretry resent).parkTaken _ _ _
      · exact hsent resent _ sent
      · exact hretry resent
      · cases hretried : s.retried resent with
        | none => exact (hretry resent).reply _
        | some epoch =>
          refine (hretry resent).park (fun e he => ?_) (fun n hn => by cases hn)
          obtain rfl := segment.inj he
          rw [(retryFailedPromote_frame s resent).2.2.2.2, hretried]
          simp
    | gcCheckpoint resent prepared sent =>
      simp only [FlushActor.step, gcCheckpoint]
      split_ifs with hparked hdirty hprepared hsent' hall
      · exact hk
      · subst hsent'
        exact (hretry resent).parkTaken _ _ _
      · exact hsent resent _ sent
      · exact hretry resent
      · exact (hretry resent).reply _
      · refine (hretry resent).park (fun e he => by cases he) (fun n hn => ?_)
        obtain rfl := barrier.inj hn
        omega
    | write | trigger | start | finish | handle => cases ha

theorem Distinct.step (hd : s.Distinct) (a : Action) : (s.step a).Distinct := by
  have hretry := fun resent => hd.retryFailedPromote resent
  have htake := fun resent sent => (hretry resent).takeWal sent
  -- parking and answering leave the jobs alone
  have hsame : ∀ {t t' : FlushActor}, t.Distinct → t'.pipeline = t.pipeline → t'.next = t.next →
      t'.Distinct := fun {t t'} h hp hn => h.of_perm (by rw [jobs, jobs, hp]) hn
  cases a with
  | write => exact hsame hd rfl rfl
  | trigger resent prepared sent =>
    simp only [FlushActor.step, dispatchPromote]
    split_ifs
    · exact htake resent sent
    · exact hretry resent
  | promoteWal resent prepared sent =>
    simp only [FlushActor.step, promoteWal]
    split_ifs
    · exact hsame (htake resent sent) rfl rfl
    · exact htake resent sent
    · exact hretry resent
    · cases s.retried resent with
      | none | some => exact hsame (hretry resent) rfl rfl
  | gcCheckpoint resent prepared sent =>
    simp only [FlushActor.step, gcCheckpoint]
    split_ifs
    · exact hd
    · exact hsame (htake resent sent) rfl rfl
    · exact htake resent sent
    · exact hretry resent
    · exact hsame (hretry resent) rfl rfl
    · exact hsame (hretry resent) rfl rfl
  | start =>
    refine hd.of_perm ?_ rfl
    have hstash : s.pipeline.start.failedPromotes = s.pipeline.failedPromotes := by
      unfold start
      split <;> rfl
    simp [FlushActor.step, jobs, hstash]
  | finish ok =>
    refine hd.of_perm ?_ rfl
    have hstash : ∀ r, (s.pipeline.finish r).failedPromotes = s.pipeline.failedPromotes := by
      intro r
      unfold Pipeline.finish
      split <;> rfl
    simp [FlushActor.step, FlushActor.finish, jobs, hstash]
  | handle applied => exact hd.handle applied

/-! ### Runs -/

theorem kept_init : init.Kept :=
  ⟨rfl, nofun, nofun, nofun⟩

theorem distinct_init : init.Distinct :=
  ⟨nodup_nil, nofun⟩

/-- **Every `Ok` means that all epochs acknowledged before the request are on disk, in this run and
whatever follows it, exactly when every request arrives in a state that covers it.** -/
theorem replies_true_iff (actions : List Action) :
    Run.Always step Safe init actions ↔ Run.Each step Covers init actions := by
  have hstep : ∀ (s : FlushActor) (a : Action), s.Kept ∧ s.Distinct → True → s.Safe →
      ((s.step a).Safe ↔ s.Covers a) := by
    rintro s a ⟨hk, hd⟩ - hsafe
    have hs := (safe_iff_sound hk).mp hsafe
    rw [safe_iff_sound (hk.step a)]
    cases ha : a.isRequest with
    | true => exact sound_request_iff hs hk hd ha
    | false =>
      refine iff_of_true (hs.step_of_not_request hk ha) ?_
      cases a <;> trivial
  have hinit : init.Safe := (safe_iff_sound kept_init).mpr ⟨nofun, nofun⟩
  exact Run.always_iff_each (fun s a h _ => ⟨h.1.step a, h.2.step a⟩) hstep
    ⟨kept_init, distinct_init⟩ hinit (Run.each_of_forall (by simp) _ _)

/-- A full WAL is being promoted when `PromoteWal` arrives. The WAL is empty and nothing is stashed,
so the reply is `Ok` at once. -/
theorem ok_while_promote_in_flight : ¬ Run.Always step Safe init
      [.write, .trigger true true true, .promoteWal true true true] := by
  intro h
  have htrue := h.last [] (by simp)
  have hanswer : ({0} : Finset ℕ) ∈ (([.write, .trigger true true true,
      .promoteWal true true true] : List Action).foldl step init).answers := by decide
  exact absurd (htrue _ hanswer) (by decide)

end FlushActor

end Elide
