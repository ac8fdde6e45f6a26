/-
Items and where they are. A map gives every item its place; a list stands for a set of places when it
holds exactly the items that are there, each once. An item that moves leaves one list and enters
another, and the other lists stay as they are.
-/
import Mathlib.Data.List.Perm.Basic
import Mathlib.Data.List.Nodup
import Mathlib.Logic.Function.Basic

namespace Ledger

variable {α ι : Type}

/-- The list holds exactly the items with a property, each once. -/
structure Holds (l : List α) (p : α → Prop) : Prop where
  nodup : l.Nodup
  mem_iff : ∀ a, a ∈ l ↔ p a

namespace Holds

theorem nil {p : α → Prop} (h : ∀ a, ¬ p a) : Holds [] p := ⟨List.nodup_nil, fun a => by simp [h a]⟩

theorem perm {l l' : List α} {p : α → Prop} (h : Holds l p) (hl : l.Perm l') : Holds l' p :=
  ⟨hl.nodup_iff.1 h.nodup, fun a => hl.mem_iff.symm.trans (h.mem_iff a)⟩

theorem congr {l : List α} {p q : α → Prop} (h : Holds l p) (hpq : ∀ a, p a ↔ q a) : Holds l q :=
  ⟨h.nodup, fun a => (h.mem_iff a).trans (hpq a)⟩

theorem mem {l : List α} {p : α → Prop} (h : Holds l p) {a : α} (ha : a ∈ l) : p a := (h.mem_iff a).1 ha

theorem not_mem {l : List α} {p : α → Prop} (h : Holds l p) {a : α} (ha : ¬ p a) : a ∉ l := fun hm => ha (h.mem hm)

variable [DecidableEq α] {l l' : List α} {f : ι → Prop} {loc : α → ι} {a : α} {i : ι}

/-- An item enters. -/
theorem put (h : Holds l fun b => f (loc b)) (ha : ¬ f (loc a)) (hi : f i) (hl : l'.Perm (a :: l)) :
    Holds l' fun b => f (Function.update loc a i b) := by
  refine perm ⟨List.nodup_cons.2 ⟨h.not_mem ha, h.nodup⟩, fun b => ?_⟩ hl.symm
  rw [List.mem_cons, h.mem_iff]
  by_cases hb : b = a
  · subst hb
    simp [hi]
  · simp [hb]

/-- An item leaves. -/
theorem take (h : Holds l fun b => f (loc b)) (hi : ¬ f i) (hl : l.Perm (a :: l')) :
    Holds l' fun b => f (Function.update loc a i b) := by
  have h' := h.perm hl
  obtain ⟨ha, hn⟩ := List.nodup_cons.1 h'.nodup
  refine ⟨hn, fun b => ?_⟩
  by_cases hb : b = a
  · subst hb
    simp [hi, ha]
  · have := h'.mem_iff b
    rw [List.mem_cons] at this
    simpa [hb] using this

/-- An item moves elsewhere. -/
theorem keep (h : Holds l fun b => f (loc b)) (hi : f (loc a) ↔ f i) :
    Holds l fun b => f (Function.update loc a i b) := by
  refine h.congr fun b => ?_
  by_cases hb : b = a
  · subst hb
    simp [hi]
  · simp [hb]

/-! ## One place -/

theorem putAt (h : Holds l fun b => loc b = i) (ha : loc a ≠ i) (hl : l'.Perm (a :: l)) :
    Holds l' fun b => Function.update loc a i b = i :=
  put (f := fun j => j = i) h ha rfl hl

theorem takeAt {j : ι} (h : Holds l fun b => loc b = i) (hj : j ≠ i) (hl : l.Perm (a :: l')) :
    Holds l' fun b => Function.update loc a j b = i :=
  take (f := fun k => k = i) h hj hl

theorem keepAt {j : ι} (h : Holds l fun b => loc b = i) (ha : loc a ≠ i) (hj : j ≠ i) :
    Holds l fun b => Function.update loc a j b = i :=
  keep (f := fun k => k = i) h (by simp [ha, hj])

end Holds

end Ledger
