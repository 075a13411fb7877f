import Mathlib.Data.List.Induction

/-!
# What a history began and did not end

`Since start begins ends history` says that something holds after a history of events: it held at
the start, or an event began it, and no later event ended it.  `since_concat` is its step: the
newest event begins it, or does not end what held before.
-/

namespace Dynarec

variable {α : Type} {start : Prop} {begins : List α → α → Prop} {ends : α → Prop}

/-- **It began and has not ended since.**  Whether an event begins it may depend on the events before. -/
def Since (start : Prop) (begins : List α → α → Prop) (ends : α → Prop) (history : List α) : Prop :=
  (start ∧ ∀ y ∈ history, ¬ ends y) ∨
    ∃ before x after, history = before ++ x :: after ∧ begins before x ∧ ∀ y ∈ after, ¬ ends y

@[simp] theorem since_nil : Since start begins ends [] ↔ start := by
  simp [Since]

/-- **One more event**: it begins it, or it held before and is not ended. -/
theorem since_concat {history : List α} {x : α} :
    Since start begins ends (history ++ [x]) ↔
      begins history x ∨ Since start begins ends history ∧ ¬ ends x := by
  constructor
  · rintro (⟨hstart, hnone⟩ | ⟨before, y, after, heq, hbegins, hnone⟩)
    · exact .inr ⟨.inl ⟨hstart, fun y hy => hnone y (List.mem_append_left _ hy)⟩,
        hnone x (List.mem_append_right _ (List.mem_singleton_self x))⟩
    · -- the event that began it is the newest one, or lies in the history before that
      rcases List.eq_nil_or_concat after with rfl | ⟨after, z, rfl⟩
      · obtain ⟨rfl, hx⟩ := List.append_inj' heq rfl
        cases hx
        exact .inl hbegins
      · rw [List.concat_eq_append] at heq hnone
        rw [← List.cons_append, ← List.append_assoc] at heq
        obtain ⟨rfl, hz⟩ := List.append_inj' heq rfl
        cases hz
        exact .inr ⟨.inr ⟨before, y, after, rfl, hbegins,
          fun y hy => hnone y (List.mem_append_left _ hy)⟩,
          hnone x (List.mem_append_right _ (List.mem_singleton_self x))⟩
  · rintro (hbegins | ⟨⟨hstart, hnone⟩ | ⟨before, y, after, rfl, hbegins, hnone⟩, hx⟩)
    · exact .inr ⟨history, x, [], rfl, hbegins, fun y hy => absurd hy List.not_mem_nil⟩
    · refine .inl ⟨hstart, fun y hy => ?_⟩
      rcases List.mem_append.mp hy with hy | hy
      · exact hnone y hy
      · rwa [List.mem_singleton.mp hy]
    · refine .inr ⟨before, y, after ++ [x], by simp, hbegins, fun y hy => ?_⟩
      rcases List.mem_append.mp hy with hy | hy
      · exact hnone y hy
      · rwa [List.mem_singleton.mp hy]

/-- An event that neither begins nor ends it. -/
theorem since_concat_of_not {history : List α} {x : α} (hbegins : ¬ begins history x)
    (hends : ¬ ends x) :
    Since start begins ends (history ++ [x]) ↔ Since start begins ends history := by
  rw [since_concat, or_iff_right hbegins, and_iff_left hends]

/-- An event that ends it. -/
theorem not_since_concat {history : List α} {x : α} (hbegins : ¬ begins history x) (hends : ends x) :
    ¬ Since start begins ends (history ++ [x]) := by
  rw [since_concat]
  rintro (h | ⟨-, h⟩)
  · exact hbegins h
  · exact h hends

/-- Events that do not end it. -/
theorem Since.append {history rest : List α} (h : Since start begins ends history)
    (hends : ∀ y ∈ rest, ¬ ends y) : Since start begins ends (history ++ rest) := by
  induction rest generalizing history with
  | nil => rwa [List.append_nil]
  | cons x rest ih =>
    rw [List.append_cons]
    exact ih (since_concat.mpr (.inr ⟨h, hends x List.mem_cons_self⟩))
      fun y hy => hends y (List.mem_cons_of_mem _ hy)

end Dynarec
