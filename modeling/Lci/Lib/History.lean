/-
Histories: lists that only grow, with a property of every entry and of what stands before it. That one
event comes after another is such a property.
-/
import Mathlib.Data.List.Basic

namespace History

variable {α : Type}

/-- `P l v` for every entry `v` of the history, `l` being what stands before it. -/
def Each (P : List α → α → Prop) (h : List α) : Prop := ∀ l v l', h = l ++ v :: l' → P l v

variable {P : List α → α → Prop} {h : List α}

theorem each_nil : Each P [] := by
  intro l v l' he
  simp at he

theorem Each.snoc {v : α} (hE : Each P h) (hv : P h v) : Each P (h ++ [v]) := by
  intro l u l' he
  rcases List.eq_nil_or_concat l' with rfl | ⟨k, w, rfl⟩
  · obtain ⟨rfl, hu⟩ := List.append_inj' he rfl
    cases hu
    exact hv
  · rw [List.concat_eq_append, ← List.cons_append, ← List.append_assoc] at he
    exact hE l u k (List.append_inj' he rfl).1

/-- Entries that have the property wherever they stand. -/
theorem Each.append_of_forall {k : List α} (hE : Each P h) (hk : ∀ v ∈ k, ∀ l, P l v) : Each P (h ++ k) := by
  induction k generalizing h with
  | nil => rwa [List.append_nil]
  | cons v k ih =>
    rw [← List.singleton_append, ← List.append_assoc]
    exact ih (hE.snoc (hk v List.mem_cons_self h)) fun u hu => hk u (List.mem_cons_of_mem _ hu)

end History
