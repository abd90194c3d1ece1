import Mathlib.Data.List.Basic

/-!
# Duels

Candidates come up one after the other, and each challenges the one that stands. Whether the
challenger takes the place is decided between the two alone, by a relation that need not be
transitive, so the last one standing is in general not the greatest of anything. But one who takes
the place of every candidate before it and keeps it against every one after it does stand at the
end (`Duel.standing_eq`).
-/

namespace Duel

open List

variable {α : Type*} (takes : α → α → Prop) [DecidableRel takes]

/-- Who stands after the challengers, if `cur` stood before them. `takes b a` says that the
challenger `b` takes the place of `a`. -/
def standing : Option α → List α → Option α
  | cur, [] => cur
  | none, b :: l => standing (some b) l
  | some a, b :: l => standing (if takes b a then some b else some a) l

variable {takes}

theorem standing_append (cur : Option α) (l l' : List α) :
    standing takes cur (l ++ l') = standing takes (standing takes cur l) l' := by
  induction l generalizing cur with
  | nil => rfl
  | cons b l ih => cases cur <;> exact ih _

variable {l : List α}

/-- Who stands was standing before or has challenged. -/
theorem mem_of_standing {cur : Option α} {a : α} (h : standing takes cur l = some a) :
    cur = some a ∨ a ∈ l := by
  induction l generalizing cur with
  | nil => exact .inl h
  | cons b l ih =>
    have hcons : ∀ {cur' : Option α}, (cur' = some b ∨ cur' = cur) → (cur' = some a ∨ a ∈ l) →
        cur = some a ∨ a ∈ b :: l := by
      rintro cur' (rfl | rfl) (h | h)
      · exact .inr (Option.some.inj h ▸ mem_cons_self)
      · exact .inr (mem_cons_of_mem _ h)
      · exact .inl h
      · exact .inr (mem_cons_of_mem _ h)
    cases cur with
    | none => exact hcons (.inl rfl) (ih h)
    | some c =>
      have hcur : (if takes b c then some b else some c) = some b ∨
          (if takes b c then some b else some c) = some c := by
        split_ifs
        · exact .inl rfl
        · exact .inr rfl
      exact hcons hcur (ih h)

/-- The place is kept against challengers who do not take it. -/
theorem standing_keeps {w : α} (h : ∀ b ∈ l, b = w ∨ ¬ takes b w) :
    standing takes (some w) l = some w := by
  induction l with
  | nil => rfl
  | cons b l ih =>
    have hb : (if takes b w then some b else some w) = some w := by
      rcases h b mem_cons_self with rfl | hb
      · exact ite_self _
      · exact if_neg hb
    rw [standing, hb]
    exact ih fun c hc => h c (mem_cons_of_mem _ hc)

/-- **Who beats everyone stands at the end.** -/
theorem standing_eq {w : α} {l' : List α} (hbefore : ∀ a ∈ l, takes w a)
    (hafter : ∀ b ∈ l', b = w ∨ ¬ takes b w) : standing takes none (l ++ w :: l') = some w := by
  rw [standing_append]
  cases hcur : standing takes none l with
  | none => exact standing_keeps hafter
  | some a =>
    rcases mem_of_standing hcur with h | ha
    · cases h
    · rw [standing, if_pos (hbefore a ha)]
      exact standing_keeps hafter

/-- The same, of a list that is not taken apart; so who beats everyone in a list stands at the end of
every part of it that has them. -/
theorem standing_of_pairwise {w : α} (hw : w ∈ l)
    (h : l.Pairwise fun a b => (b = w → takes w a) ∧ (a = w → b = w ∨ ¬ takes b w)) :
    standing takes none l = some w := by
  obtain ⟨before, after, rfl⟩ := append_of_mem hw
  obtain ⟨-, hafter, hbefore⟩ := pairwise_append.mp h
  exact standing_eq (fun a ha => (hbefore a ha w mem_cons_self).1 rfl)
    fun b hb => ((pairwise_cons.mp hafter).1 b hb).2 rfl

/-- Where there is a challenger somebody stands. -/
theorem standing_eq_none_iff : standing takes none l = none ↔ l = [] := by
  have hsome : ∀ (l : List α) (a : α), standing takes (some a) l ≠ none := by
    intro l
    induction l with
    | nil => exact fun a => nofun
    | cons b l ih =>
      intro a
      rw [standing]
      split_ifs
      · exact ih b
      · exact ih a
  cases l with
  | nil => exact iff_of_true rfl rfl
  | cons b l => exact iff_of_false (hsome l b) nofun

/-- Who loses to every challenger might as well not have stood. -/
theorem standing_of_forall_takes {a : α} (hl : l ≠ []) (h : ∀ b ∈ l, takes b a) :
    standing takes (some a) l = standing takes none l := by
  cases l with
  | nil => exact absurd rfl hl
  | cons b l =>
    change standing takes (if takes b a then some b else some a) l = standing takes (some b) l
    rw [if_pos (h b mem_cons_self)]

end Duel
