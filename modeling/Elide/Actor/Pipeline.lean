import Mathlib.Data.List.Basic
import Mathlib.Tactic.Tauto

/-!
# The promote pipeline of the volume actor

The actor hands promote jobs to one worker thread over a FIFO channel, counts the jobs it has sent
and not yet seen a result of, and keeps every job that failed in a stash (`failed_promotes`) from
which each promote trigger re-sends the oldest. A job is therefore in exactly one of four places:
in the channel, on the worker, among the results the actor has not yet handled, or in the stash.
Only the first three are counted by `promotes_in_flight`.

The pipeline is generic in the job `J` and in what a successful attempt returns, `R`.
-/

namespace Elide

open List

/-- The promote half of `ActorPipeline` together with the worker it feeds. A result carries the
job it is the result of: a failed one (`none`) hands the job back. -/
structure Pipeline (J R : Type*) where
  /-- Jobs sent and not yet picked up, oldest first. -/
  queue : List J
  /-- The job the worker is executing. -/
  running : Option J
  /-- Results sent by the worker and not yet handled, oldest first. -/
  results : List (J × Option R)
  failedPromotes : List J
  promotesInFlight : ℕ

namespace Pipeline

variable {J R : Type*}

/-- The pipeline of a freshly started actor. -/
def empty : Pipeline J R :=
  { queue := [], running := none, results := [], failedPromotes := [], promotesInFlight := 0 }

variable (p : Pipeline J R)

/-- `send_promote_job`. `sent` is the outcome of the channel send: a job that could not be
dispatched is stashed. -/
def sendPromoteJob (job : J) (sent : Bool) : Pipeline J R :=
  if sent then
    { p with queue := p.queue ++ [job], promotesInFlight := p.promotesInFlight + 1 }
  else
    { p with failedPromotes := p.failedPromotes ++ [job] }

/-- `retry_failed_promote`: re-dispatch the oldest stashed promote, if there is one. -/
def retryFailedPromote (sent : Bool) : Pipeline J R :=
  match p.failedPromotes with
  | [] => p
  | job :: rest => { p with failedPromotes := rest }.sendPromoteJob job sent

/-- The worker picks the next job up; it executes one at a time. -/
def start : Pipeline J R :=
  match p.running, p.queue with
  | none, job :: rest => { p with queue := rest, running := some job }
  | _, _ => p

/-- The worker sends the result of the job it was executing. -/
def finish (r : Option R) : Pipeline J R :=
  match p.running with
  | none => p
  | some job => { p with running := none, results := p.results ++ [(job, r)] }

/-- `handle_worker_result` on a `Promote` result: the count drops whatever the outcome, and a
failed job goes to the back of the stash. -/
def settle : Pipeline J R :=
  match p.results with
  | [] => p
  | (job, r) :: rest =>
    { p with
      results := rest
      promotesInFlight := p.promotesInFlight - 1
      failedPromotes := if r.isSome then p.failedPromotes else p.failedPromotes ++ [job] }

/-- The jobs `promotes_in_flight` counts. -/
def inFlight : List J :=
  p.queue ++ p.running.toList ++ p.results.map Prod.fst

/-- Every promote taken and not yet applied: in flight, or waiting in the stash. -/
def outstanding : List J := p.inFlight ++ p.failedPromotes

variable {p : Pipeline J R} {j : J}

theorem mem_inFlight :
    j ∈ p.inFlight ↔ j ∈ p.queue ∨ p.running = some j ∨ ∃ r, (j, r) ∈ p.results := by
  simp [inFlight]

theorem mem_outstanding : j ∈ p.outstanding ↔ j ∈ p.inFlight ∨ j ∈ p.failedPromotes := by
  simp [outstanding]

theorem mem_outstanding_of_running (h : p.running = some j) : j ∈ p.outstanding :=
  mem_outstanding.mpr (.inl (mem_inFlight.mpr (.inr (.inl h))))

variable {r : Option R}

theorem mem_outstanding_of_result (h : (j, r) ∈ p.results) : j ∈ p.outstanding :=
  mem_outstanding.mpr (.inl (mem_inFlight.mpr (.inr (.inr ⟨r, h⟩))))

/-! ### What each operation leaves alone -/

variable (p)

@[simp]
theorem running_sendPromoteJob (job : J) (sent : Bool) :
    (p.sendPromoteJob job sent).running = p.running := by
  cases sent <;> rfl

@[simp]
theorem results_sendPromoteJob (job : J) (sent : Bool) :
    (p.sendPromoteJob job sent).results = p.results := by
  cases sent <;> rfl

@[simp]
theorem running_retryFailedPromote (sent : Bool) :
    (p.retryFailedPromote sent).running = p.running := by
  unfold retryFailedPromote
  split <;> simp

@[simp]
theorem results_retryFailedPromote (sent : Bool) :
    (p.retryFailedPromote sent).results = p.results := by
  unfold retryFailedPromote
  split <;> simp

@[simp]
theorem results_start : p.start.results = p.results := by
  unfold start
  split <;> rfl

@[simp]
theorem running_finish (r : Option R) : (p.finish r).running = none := by
  unfold finish
  split
  case h_1 h => exact h
  case h_2 => rfl

variable {p}

theorem mem_results_finish {x : J × Option R} (h : x ∈ (p.finish r).results) :
    x ∈ p.results ∨ p.running = some x.1 ∧ x.2 = r := by
  unfold finish at h
  cases hr : p.running with
  | none => exact .inl (by rwa [hr] at h)
  | some job =>
    simp only [hr, mem_append, mem_singleton] at h
    rcases h with h | rfl
    · exact .inl h
    · exact .inr ⟨rfl, rfl⟩

@[simp]
theorem running_settle (p : Pipeline J R) : p.settle.running = p.running := by
  unfold settle
  split <;> rfl

theorem mem_results_of_mem_settle {x : J × Option R} (h : x ∈ p.settle.results) :
    x ∈ p.results := by
  unfold settle at h
  match hp : p.results with
  | [] => simp [hp] at h
  | y :: rest => exact mem_cons_of_mem y (by simpa [hp] using h)

/-! ### What each operation does to the outstanding jobs -/

@[simp]
theorem outstanding_empty : (empty : Pipeline J R).outstanding = [] := rfl

theorem mem_outstanding_sendPromoteJob {job : J} {sent : Bool} :
    j ∈ (p.sendPromoteJob job sent).outstanding ↔ j = job ∨ j ∈ p.outstanding := by
  cases sent <;> simp [sendPromoteJob, outstanding, inFlight] <;> tauto

/-- A retry moves a job, it neither drops nor adds one. -/
theorem mem_outstanding_retryFailedPromote {sent : Bool} :
    j ∈ (p.retryFailedPromote sent).outstanding ↔ j ∈ p.outstanding := by
  unfold retryFailedPromote
  cases hf : p.failedPromotes with
  | nil => exact Iff.rfl
  | cons job rest =>
    rw [mem_outstanding_sendPromoteJob]
    simp only [mem_outstanding, hf, mem_cons]
    tauto

theorem mem_outstanding_start : j ∈ p.start.outstanding ↔ j ∈ p.outstanding := by
  unfold start
  split
  case h_1 job rest hr hq => simp [outstanding, inFlight, hr, hq]; tauto
  case h_2 => exact Iff.rfl

theorem mem_outstanding_finish : j ∈ (p.finish r).outstanding ↔ j ∈ p.outstanding := by
  unfold finish
  cases hr : p.running with
  | none => exact Iff.rfl
  | some job => simp [outstanding, inFlight, hr]; tauto

/-- Handling a result drops a job only when that job succeeded. -/
theorem mem_outstanding_of_mem_settle (h : j ∈ p.settle.outstanding) : j ∈ p.outstanding := by
  unfold settle at h
  match hp : p.results with
  | [] => rwa [hp] at h
  | (job, r) :: rest =>
    cases r <;> simp [outstanding, inFlight, hp] at h ⊢ <;> tauto

theorem mem_settle_or_result (h : j ∈ p.outstanding) :
    j ∈ p.settle.outstanding ∨ ∃ r rest, p.results = (j, some r) :: rest := by
  unfold settle
  match hp : p.results with
  | [] => exact .inl h
  | (job, none) :: rest =>
    simp [outstanding, inFlight, hp] at h ⊢
    tauto
  | (job, some r) :: rest =>
    simp [outstanding, inFlight] at h ⊢
    grind

/-! ### What the count counts -/

/-- `promotes_in_flight` is the number of promotes in flight. -/
def Counted (p : Pipeline J R) : Prop := p.promotesInFlight = p.inFlight.length

namespace Counted

variable {p : Pipeline J R}

section

variable (h : p.Counted)
include h

theorem sendPromoteJob (job : J) (sent : Bool) : (p.sendPromoteJob job sent).Counted := by
  unfold Counted inFlight at *
  cases sent <;> simp [Pipeline.sendPromoteJob, h]
  omega

theorem retryFailedPromote (sent : Bool) : (p.retryFailedPromote sent).Counted := by
  unfold Pipeline.retryFailedPromote
  split
  case h_1 => exact h
  case h_2 job rest _ =>
    have hrest : ({ p with failedPromotes := rest } : Pipeline J R).Counted := h
    exact hrest.sendPromoteJob job sent

theorem start : p.start.Counted := by
  unfold Pipeline.start
  split
  case h_1 job rest hr hq =>
    simp only [Counted, inFlight, hr, hq] at *
    simp at *
    omega
  case h_2 => exact h

theorem finish (r : Option R) : (p.finish r).Counted := by
  unfold Pipeline.finish
  cases hr : p.running with
  | none => exact h
  | some job =>
    simp only [Counted, inFlight, hr] at *
    simp at *
    omega

theorem settle : p.settle.Counted := by
  unfold Pipeline.settle
  match hres : p.results with
  | [] => exact h
  | (job, r) :: rest =>
    simp only [Counted, inFlight, hres] at *
    simp at *
    omega

/-- With the count at zero no result waits. -/
theorem results_eq_nil (h0 : p.promotesInFlight = 0) : p.results = [] := by
  rw [Counted, h0, eq_comm, length_eq_zero_iff] at h
  simpa using (append_eq_nil_iff.mp h).2

end

end Counted

end Pipeline

end Elide
