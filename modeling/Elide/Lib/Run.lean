import Mathlib.Data.List.Basic

/-!
# Runs of a deterministic machine

A machine is a step function `σ → α → σ`. A run is a list of actions, and what is said about a
run is said state by state (`Run.Always`) or step by step (`Run.Each`). The rule that connects the
two is `Run.always_iff_each`: when one step keeps a property exactly under a condition on that
step, a run keeps it in every state exactly when every step meets the condition. A step that can
fail is taken apart by `Run.exists_of_bind_ok`.
-/

namespace Run

theorem ok_bind {ε α β : Type} (a : α) (f : α → Except ε β) : (Except.ok a >>= f) = f a := rfl

theorem exists_of_bind_ok {ε α β : Type} {x : Except ε α} {f : α → Except ε β} {b : β}
    (h : x >>= f = .ok b) : ∃ a, x = .ok a ∧ f a = .ok b := by
  cases x with
  | error e => cases h
  | ok a => exact ⟨a, rfl, h⟩

/-- A fold whose steps succeed and keep `P`, which may speak of what the steps have added. -/
theorem exists_foldlM_ok {ε σ α β : Type} {f : σ → α → Except ε σ} {g : α → List β}
    {P : List β → σ → Prop} {l : List α}
    (hstep : ∀ a ∈ l, ∀ bs s, P bs s → ∃ t, f s a = .ok t ∧ P (bs ++ g a) t) (bs : List β) {s : σ}
    (hs : P bs s) : ∃ t, l.foldlM f s = .ok t ∧ P (bs ++ l.flatMap g) t := by
  induction l generalizing bs s with
  | nil => exact ⟨s, rfl, by simpa using hs⟩
  | cons a l ih =>
    obtain ⟨t, ht, hP⟩ := hstep a List.mem_cons_self bs s hs
    obtain ⟨u, hu, hQ⟩ := ih (fun b hb => hstep b (List.mem_cons_of_mem _ hb)) _ hP
    refine ⟨u, ?_, by simpa using hQ⟩
    rw [List.foldlM_cons, ht]
    exact hu

variable {σ α : Type*} (step : σ → α → σ)

/-- `P` holds in every state of the run, the first and the last included. -/
def Always (P : σ → Prop) : σ → List α → Prop
  | s, [] => P s
  | s, a :: as => P s ∧ Always P (step s a) as

/-- `C` holds of every step of the run, in the state the step is taken from. -/
def Each (C : σ → α → Prop) : σ → List α → Prop
  | _, [] => True
  | s, a :: as => C s a ∧ Each C (step s a) as

instance Each.decidable (C : σ → α → Prop) [∀ s a, Decidable (C s a)] :
    ∀ s as, Decidable (Each step C s as)
  | _, [] => isTrue trivial
  | s, a :: as =>
    have := Each.decidable C (step s a) as
    inferInstanceAs (Decidable (C s a ∧ Each step C (step s a) as))

variable {step} {P : σ → Prop} {s : σ} {as : List α}

theorem Always.head (h : Always step P s as) : P s := by
  cases as with
  | nil => exact h
  | cons a as => exact h.1

/-- The last state is one of them. -/
theorem Always.last (h : Always step P s as) : P (as.foldl step s) := by
  induction as generalizing s with
  | nil => exact h
  | cons a as ih => exact ih h.2

theorem Always.mono {Q : σ → Prop} (hPQ : ∀ s, P s → Q s) (h : Always step P s as) :
    Always step Q s as := by
  induction as generalizing s with
  | nil => exact hPQ s h
  | cons a as ih => exact ⟨hPQ s h.1, ih h.2⟩

theorem Always.and {Q : σ → Prop} (hP : Always step P s as) (hQ : Always step Q s as) :
    Always step (fun s => P s ∧ Q s) s as := by
  induction as generalizing s with
  | nil => exact ⟨hP, hQ⟩
  | cons a as ih => exact ⟨⟨hP.1, hQ.1⟩, ih hP.2 hQ.2⟩

variable {C : σ → α → Prop}

/-- What every state of a run guarantees of its next step holds of each step. -/
theorem Always.each (hPC : ∀ s a, P s → C s a) (h : Always step P s as) : Each step C s as := by
  induction as generalizing s with
  | nil => trivial
  | cons a as ih => exact ⟨hPC s a h.1, ih h.2⟩

theorem Each.mono {D : σ → α → Prop} (hCD : ∀ s a, C s a → D s a) (h : Each step C s as) :
    Each step D s as := by
  induction as generalizing s with
  | nil => trivial
  | cons a as ih => exact ⟨hCD s a h.1, ih h.2⟩

theorem each_of_forall (hC : ∀ s a, C s a) (s : σ) (as : List α) : Each step C s as := by
  induction as generalizing s with
  | nil => trivial
  | cons a as ih => exact ⟨hC s a, ih (step s a)⟩

/-- **Invariant rule.** What each step keeps holds in every state. -/
theorem always_of_each (hstep : ∀ s a, P s → C s a → P (step s a)) (hs : P s)
    (hC : Each step C s as) : Always step P s as := by
  induction as generalizing s with
  | nil => exact hs
  | cons a as ih => exact ⟨hs, ih (hstep s a hs hC.1) hC.2⟩

variable {I : σ → Prop}

/-- A condition that follows under an invariant holds of the steps. -/
theorem each_of_keeps {L D : σ → α → Prop} (hI : ∀ s a, I s → L s a → I (step s a))
    (hD : ∀ s a, I s → L s a → C s a → D s a) (hs : I s) (hL : Each step L s as)
    (hC : Each step C s as) : Each step D s as := by
  induction as generalizing s with
  | nil => trivial
  | cons a as ih => exact ⟨hD s a hs hL.1 hC.1, ih (hI s a hs hL.1) hL.2 hC.2⟩

/-- Two conditions that agree under an invariant hold of the same runs. -/
theorem each_iff_each {D : σ → α → Prop} (hI : ∀ s a, I s → I (step s a))
    (hCD : ∀ s a, I s → (C s a ↔ D s a)) (hs : I s) (as : List α) :
    Each step C s as ↔ Each step D s as := by
  induction as generalizing s with
  | nil => exact Iff.rfl
  | cons a as ih => exact and_congr (hCD s a hs) (ih (hI s a hs))

/-- **Exact conditions lift to runs.** Along legal steps that keep `I`, if a step keeps `P`
exactly under `C`, a run keeps `P` in every state exactly when every step meets `C`. The help `Q`
holds as long as the steps meet `C`. -/
theorem always_iff_each_of_keeps {I Q : σ → Prop} {L : σ → α → Prop}
    (hI : ∀ s a, I s → L s a → I (step s a))
    (hP : ∀ s a, I s → L s a → P s → Q s → (P (step s a) ↔ C s a))
    (hQ : ∀ s a, I s → L s a → P s → Q s → C s a → Q (step s a)) (hIs : I s) (hPs : P s) (hQs : Q s)
    (hL : Each step L s as) : Always step P s as ↔ Each step C s as := by
  induction as generalizing s with
  | nil => exact iff_of_true hPs trivial
  | cons a as ih =>
    have hiff := hP s a hIs hL.1 hPs hQs
    have hrest := fun hc : C s a =>
      ih (hI s a hIs hL.1) (hiff.mpr hc) (hQ s a hIs hL.1 hPs hQs hc) hL.2
    constructor
    · rintro ⟨-, h⟩
      exact ⟨hiff.mp h.head, (hrest (hiff.mp h.head)).mp h⟩
    · rintro ⟨hc, h⟩
      exact ⟨hPs, (hrest hc).mpr h⟩

/-- The same without a help. -/
theorem always_iff_each {L : σ → α → Prop} (hI : ∀ s a, I s → L s a → I (step s a))
    (hP : ∀ s a, I s → L s a → P s → (P (step s a) ↔ C s a)) (hIs : I s) (hPs : P s)
    (hL : Each step L s as) : Always step P s as ↔ Each step C s as :=
  always_iff_each_of_keeps (Q := fun _ => True) hI (fun s a hIs hL hPs _ => hP s a hIs hL hPs)
    (fun _ _ _ _ _ _ _ => trivial) hIs hPs trivial hL

end Run
