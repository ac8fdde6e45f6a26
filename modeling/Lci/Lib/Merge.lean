/-
Merges of streams, over arbitrary items and sources: a list in which the items of each source stand
in the order of that source's stream. Two merges of the same streams are the same as far as the
sources of their items are.
-/
import Mathlib.Data.List.Basic
import Mathlib.Tactic

namespace Merge

variable {α κ : Type} [DecidableEq κ] {src : α → κ} {stream : κ → List α} {l r : List α}

/-- The items of `l` that come from `k`, in order. -/
def ofSource (src : α → κ) (k : κ) (l : List α) : List α := l.filter fun x => src x = k

/-- The items of each source are the first of its stream. -/
def Merges (src : α → κ) (stream : κ → List α) (l : List α) : Prop := ∀ k, ofSource src k l <+: stream k

theorem ofSource_append (k : κ) (l r : List α) : ofSource src k (l ++ r) = ofSource src k l ++ ofSource src k r :=
  List.filter_append l r

theorem ofSource_self {x : α} : ofSource src (src x) [x] = [x] := by simp [ofSource]

theorem ofSource_of_ne {x : α} {k : κ} (h : src x ≠ k) : ofSource src k [x] = [] := by simp [ofSource, h]

theorem Merges.of_prefix (h : Merges src stream l) (hr : r <+: l) : Merges src stream r := by
  intro k
  exact (hr.filter _).trans (h k)

/-- What is left of the streams after the first item of a merge. -/
theorem Merges.tail {x : α} (h : Merges src stream (x :: l)) :
    (stream (src x)).head? = some x ∧ Merges src (Function.update stream (src x) (stream (src x)).tail) l := by
  have hx := h (src x)
  rw [ofSource, List.filter_cons_of_pos (by simp)] at hx
  obtain ⟨t, ht⟩ := hx
  refine ⟨by rw [← ht]; rfl, fun k => ?_⟩
  by_cases hk : k = src x
  · subst hk
    rw [Function.update_self, ← ht]
    exact ⟨t, rfl⟩
  · rw [Function.update_of_ne hk]
    have := h k
    rwa [ofSource, List.filter_cons_of_neg (by simpa using fun he => hk he.symm)] at this

/-- Two merges of the same streams have the same items as far as their items have the same sources. -/
theorem zip_eq_iff (hl : Merges src stream l) (hr : Merges src stream r) :
    (∀ x ∈ l.zip r, x.1 = x.2) ↔ ∀ x ∈ l.zip r, src x.1 = src x.2 := by
  refine ⟨fun h x hx => congrArg src (h x hx), fun h => ?_⟩
  induction l generalizing r stream with
  | nil => simp
  | cons a l ih =>
    cases r with
    | nil => simp
    | cons b r =>
      obtain ⟨ha, hl'⟩ := hl.tail
      obtain ⟨hb, hr'⟩ := hr.tail
      have hs : src a = src b := h (a, b) (by simp)
      rw [← hs] at hb hr'
      have hab : a = b := Option.some.inj (ha.symm.trans hb)
      intro x hx
      rcases List.mem_cons.1 hx with rfl | hx
      · exact hab
      · exact ih hl' hr' (fun y hy => h y (List.mem_cons_of_mem _ hy)) x hx

end Merge
