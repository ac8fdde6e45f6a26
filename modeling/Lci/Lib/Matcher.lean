/-
Two-sided matching stores, over arbitrary keys, sides and values: a call names a key, the side it
comes from and a value; it either takes the oldest outstanding entry of the opposite side of its
key, or becomes outstanding itself. The laws a client needs: the two outcomes of a call, that a
key is never outstanding on both sides, that a store restricted to some keys is the store of the
calls on these keys, that what was stored on one side of a key is, in order, what was taken
from it followed by what is still there, and that the n-th call of one side of a key meets the n-th
call of the other.
-/
import Mathlib.Data.List.Basic
import Mathlib.Tactic

namespace Matcher

/-- An entry of the store, and a call to it: the call of a key from a side with a value. -/
structure Entry (K S V : Type) where
  key : K
  side : S
  val : V
deriving DecidableEq, Repr

/-- What a call returns: the value it was matched with, or that it is now outstanding. -/
inductive Outcome (V : Type)
  | matched (v : V)
  | stored
deriving DecidableEq, Repr

section

variable {K S V : Type} [DecidableEq K] [DecidableEq S] (opp : S → S)

/-- `e` is an entry that the call `c` looks for: its key, from the opposite side. -/
def Meets (c e : Entry K S V) : Prop := e.key = c.key ∧ e.side = opp c.side

instance (c : Entry K S V) : DecidablePred (Meets opp c) := fun _ => inferInstanceAs (Decidable (_ ∧ _))

/-- One call on the outstanding entries, oldest first. -/
def insert (q : List (Entry K S V)) (c : Entry K S V) : Outcome V × List (Entry K S V) :=
  match q.find? (fun e => decide (Meets opp c e)) with
  | some e => (.matched e.val, q.eraseP (fun e => decide (Meets opp c e)))
  | none => (.stored, q ++ [c])

/-- A sequence of calls: the outcome of each one and the entries left outstanding. -/
def run : List (Entry K S V) → List (Entry K S V) → List (Outcome V) × List (Entry K S V)
  | q, [] => ([], q)
  | q, c :: cs => ((insert opp q c).1 :: (run (insert opp q c).2 cs).1, (run (insert opp q c).2 cs).2)

/-! ## The outcomes of one call -/

theorem insert_matched {q : List (Entry K S V)} {c e : Entry K S V}
    (h : q.find? (fun e => decide (Meets opp c e)) = some e) :
    insert opp q c = (.matched e.val, q.eraseP (fun e => decide (Meets opp c e))) := by
  unfold insert; rw [h]

theorem insert_stored {q : List (Entry K S V)} {c : Entry K S V}
    (h : ∀ e ∈ q, ¬ Meets opp c e) : insert opp q c = (.stored, q ++ [c]) := by
  have hn : q.find? (fun e => decide (Meets opp c e)) = none := by
    rw [List.find?_eq_none]; intro e he; simpa using h e he
  unfold insert; rw [hn]

/-- The two cases of a call: the oldest entry it looks for is taken out, or there is none and the
call is appended. -/
theorem insert_cases (q : List (Entry K S V)) (c : Entry K S V) :
    (∃ l e r, q = l ++ e :: r ∧ (∀ x ∈ l, ¬ Meets opp c x) ∧ Meets opp c e ∧
      insert opp q c = (.matched e.val, l ++ r)) ∨
    ((∀ x ∈ q, ¬ Meets opp c x) ∧ insert opp q c = (.stored, q ++ [c])) := by
  by_cases h : ∃ x ∈ q, Meets opp c x
  · left
    obtain ⟨x, hx, hm⟩ := h
    obtain ⟨e, l, r, hl, he, hq, her⟩ :=
      List.exists_of_eraseP (p := fun e => decide (Meets opp c e)) hx (by simpa using hm)
    refine ⟨l, e, r, hq, fun x hx => by simpa using hl x hx, by simpa using he, ?_⟩
    have hf : q.find? (fun e => decide (Meets opp c e)) = some e := by
      rw [hq, List.find?_append, List.find?_eq_none.2 (fun x hx => by simpa using hl x hx)]
      simp [he]
    rw [insert_matched opp hf, her]
  · right
    push Not at h
    exact ⟨h, insert_stored opp h⟩

/-! ## A key is outstanding on one side only -/

/-- No key has entries on two opposite sides. -/
def OneSided (q : List (Entry K S V)) : Prop :=
  ∀ e ∈ q, ∀ e' ∈ q, e'.key = e.key → e'.side ≠ opp e.side

theorem insert_oneSided (hopp : ∀ s, opp (opp s) = s) (hne : ∀ s, opp s ≠ s)
    {q : List (Entry K S V)} (h : OneSided opp q) (c : Entry K S V) : OneSided opp (insert opp q c).2 := by
  rcases insert_cases opp q c with ⟨l, e, r, rfl, -, -, he⟩ | ⟨hno, he⟩
  · rw [he]
    have hsub : ∀ x ∈ l ++ r, x ∈ l ++ e :: r := by
      intro x hx; simp only [List.mem_append, List.mem_cons] at hx ⊢; tauto
    exact fun a ha b hb => h a (hsub a ha) b (hsub b hb)
  · rw [he]
    intro a ha b hb hk hs
    simp only [List.mem_append, List.mem_singleton] at ha hb
    rcases ha with ha | rfl <;> rcases hb with hb | rfl
    · exact h a ha b hb hk hs
    · exact hno a ha ⟨hk.symm, by rw [hs, hopp]⟩
    · exact hno b hb ⟨hk, hs⟩
    · exact hne _ hs.symm

theorem run_oneSided (hopp : ∀ s, opp (opp s) = s) (hne : ∀ s, opp s ≠ s) :
    ∀ (cs q : List (Entry K S V)), OneSided opp q → OneSided opp (run opp q cs).2
  | [], _, h => h
  | c :: cs, _, h => run_oneSided hopp hne cs _ (insert_oneSided opp hopp hne h c)

/-! ## Restricting a store to some keys -/

section Restrict

variable (f : K → Bool)

/-- The entries whose key satisfies `f`. -/
def restrict (q : List (Entry K S V)) : List (Entry K S V) := q.filter (fun e => f e.key)

/-- A call on a selected key acts on the selected entries alone. -/
theorem insert_restrict_of_true (q : List (Entry K S V)) (c : Entry K S V) (hc : f c.key = true) :
    (insert opp q c).1 = (insert opp (restrict f q) c).1 ∧
      restrict f (insert opp q c).2 = (insert opp (restrict f q) c).2 := by
  rcases insert_cases opp q c with ⟨l, e, r, rfl, hl, hm, he⟩ | ⟨hno, he⟩
  · have hfe : f e.key = true := by rw [hm.1]; exact hc
    have hq : restrict f (l ++ e :: r) = restrict f l ++ e :: restrict f r := by simp [restrict, hfe]
    have hl' : ∀ x ∈ restrict f l, ¬ Meets opp c x := fun x hx => hl x (List.mem_of_mem_filter hx)
    have hf : (restrict f (l ++ e :: r)).find? (fun e => decide (Meets opp c e)) = some e := by
      rw [hq, List.find?_append, List.find?_eq_none.2 (fun x hx => by simpa using hl' x hx)]
      simp [hm]
    have her : (restrict f l ++ e :: restrict f r).eraseP (fun e => decide (Meets opp c e)) =
        restrict f l ++ restrict f r := by
      rw [List.eraseP_append_right _ (fun x hx => by simpa using hl' x hx)]
      simp [hm]
    rw [he, insert_matched opp hf, hq, her]
    exact ⟨rfl, by simp [restrict]⟩
  · have hno' : ∀ x ∈ restrict f q, ¬ Meets opp c x := fun x hx => hno x (List.mem_of_mem_filter hx)
    rw [he, insert_stored opp hno']
    exact ⟨rfl, by simp [restrict, hc]⟩

/-- A call on another key leaves the selected entries as they are. -/
theorem insert_restrict_of_false (q : List (Entry K S V)) (c : Entry K S V) (hc : f c.key = false) :
    restrict f (insert opp q c).2 = restrict f q := by
  rcases insert_cases opp q c with ⟨l, e, r, rfl, -, hm, he⟩ | ⟨-, he⟩
  · have hfe : f e.key = false := by rw [hm.1]; exact hc
    rw [he]; simp [restrict, hfe]
  · rw [he]; simp [restrict, hc]

/-- The outcomes of the calls whose key satisfies `f`. -/
def outcomesOn : List (Entry K S V) → List (Outcome V) → List (Outcome V)
  | c :: cs, o :: os => if f c.key then o :: outcomesOn cs os else outcomesOn cs os
  | _, _ => []

/-- What happens on the selected keys is what happens when only the calls on these keys are made. -/
theorem run_restrict : ∀ (cs q : List (Entry K S V)),
    outcomesOn f cs (run opp q cs).1 = (run opp (restrict f q) (restrict f cs)).1 ∧
      restrict f (run opp q cs).2 = (run opp (restrict f q) (restrict f cs)).2
  | [], q => ⟨rfl, rfl⟩
  | c :: cs, q => by
    obtain ⟨h1, h2⟩ := run_restrict cs (insert opp q c).2
    cases hc : f c.key with
    | true =>
      obtain ⟨i1, i2⟩ := insert_restrict_of_true opp f q c hc
      have hr : restrict f (c :: cs) = c :: restrict f cs := by simp [restrict, hc]
      rw [hr]
      simp only [run, outcomesOn, hc, if_true, i1, ← i2, h1, h2, and_self]
    | false =>
      have i := insert_restrict_of_false opp f q c hc
      have hr : restrict f (c :: cs) = restrict f cs := by simp [restrict, hc]
      rw [hr]
      simp only [run, outcomesOn, hc, Bool.false_eq_true, if_false, h1, h2, i, and_self]

end Restrict

/-! ## Renaming keys -/

section Rename

variable {K' : Type} [DecidableEq K'] (φ : K → K')

/-- An entry under another name of its key. -/
def Entry.rekey (e : Entry K S V) : Entry K' S V := ⟨φ e.key, e.side, e.val⟩

/-- Names that are distinct on the keys in use do not change a call. -/
theorem insert_rekey {D : K → Prop} (hφ : ∀ k k', D k → D k' → φ k = φ k' → k = k')
    (q : List (Entry K S V)) (c : Entry K S V) (hq : ∀ e ∈ q, D e.key) (hc : D c.key) :
    insert opp (q.map (Entry.rekey φ)) (c.rekey φ) =
      ((insert opp q c).1, (insert opp q c).2.map (Entry.rekey φ)) := by
  have hm : ∀ e ∈ q, Meets opp (c.rekey φ) (e.rekey φ) ↔ Meets opp c e := fun e he =>
    ⟨fun h => ⟨hφ _ _ (hq e he) hc h.1, h.2⟩, fun h => ⟨congrArg φ h.1, h.2⟩⟩
  rcases insert_cases opp q c with ⟨l, e, r, rfl, hl, hme, hi⟩ | ⟨hno, hi⟩
  · have hl' : ∀ x ∈ l.map (Entry.rekey φ), ¬ Meets opp (c.rekey φ) x := by
      intro x hx
      obtain ⟨y, hy, rfl⟩ := List.mem_map.1 hx
      rw [hm y (by simp [hy])]; exact hl y hy
    have he' : Meets opp (c.rekey φ) (e.rekey φ) := (hm e (by simp)).2 hme
    have hf : ((l ++ e :: r).map (Entry.rekey φ)).find? (fun e => decide (Meets opp (c.rekey φ) e)) =
        some (e.rekey φ) := by
      rw [List.map_append, List.find?_append, List.find?_eq_none.2 (fun x hx => by simpa using hl' x hx)]
      simp [he']
    rw [insert_matched opp hf, hi, List.map_append,
      List.eraseP_append_right _ (fun x hx => by simpa using hl' x hx)]
    have her : (List.map (Entry.rekey φ) (e :: r)).eraseP (fun e => decide (Meets opp (c.rekey φ) e)) =
        r.map (Entry.rekey φ) := by simp [he']
    rw [her, List.map_append]
    rfl
  · have hno' : ∀ x ∈ q.map (Entry.rekey φ), ¬ Meets opp (c.rekey φ) x := by
      intro x hx
      obtain ⟨y, hy, rfl⟩ := List.mem_map.1 hx
      rw [hm y hy]; exact hno y hy
    rw [insert_stored opp hno', hi]
    simp

theorem insert_mem {q : List (Entry K S V)} {c e : Entry K S V} (h : e ∈ (insert opp q c).2) :
    e ∈ q ∨ e = c := by
  rcases insert_cases opp q c with ⟨l, x, r, rfl, -, -, hi⟩ | ⟨-, hi⟩
  · rw [hi] at h
    simp only [List.mem_append, List.mem_cons] at h ⊢; tauto
  · rw [hi] at h
    simpa using h

theorem run_rekey {D : K → Prop} (hφ : ∀ k k', D k → D k' → φ k = φ k' → k = k') :
    ∀ (cs q : List (Entry K S V)), (∀ e ∈ q, D e.key) → (∀ c ∈ cs, D c.key) →
      run opp (q.map (Entry.rekey φ)) (cs.map (Entry.rekey φ)) =
        ((run opp q cs).1, (run opp q cs).2.map (Entry.rekey φ))
  | [], _, _, _ => rfl
  | c :: cs, q, hq, hc => by
    have h1 := insert_rekey opp φ hφ q c hq (hc c (by simp))
    have ih := run_rekey hφ cs (insert opp q c).2
      (fun e he => (insert_mem opp he).elim (hq e) (fun h => h ▸ hc c (by simp)))
      (fun x hx => hc x (by simp [hx]))
    simp only [List.map_cons, run, h1, ih]

end Rename

/-! ## First in, first out -/

/-- The values outstanding on one side of a key, oldest first. -/
def waiting (k : K) (s : S) (q : List (Entry K S V)) : List V :=
  (q.filter (fun e => e.key = k ∧ e.side = s)).map (·.val)

/-- The values stored on one side of a key by a sequence of calls, in order. -/
def puts (k : K) (s : S) : List (Entry K S V) → List (Outcome V) → List V
  | c :: cs, .stored :: os => if c.key = k ∧ c.side = s then c.val :: puts k s cs os else puts k s cs os
  | _ :: cs, .matched _ :: os => puts k s cs os
  | _, _ => []

/-- The values that a sequence of calls took from one side of a key, in order. -/
def takes (k : K) (s : S) : List (Entry K S V) → List (Outcome V) → List V
  | c :: cs, .matched v :: os => if c.key = k ∧ opp c.side = s then v :: takes k s cs os else takes k s cs os
  | _ :: cs, .stored :: os => takes k s cs os
  | _, _ => []

theorem waiting_eq_nil {k : K} {s : S} {q : List (Entry K S V)} :
    waiting k s q = [] ↔ ∀ e ∈ q, ¬ (e.key = k ∧ e.side = s) := by
  simp only [waiting, List.map_eq_nil_iff, List.filter_eq_nil_iff, decide_eq_true_eq]

theorem waiting_append (k : K) (s : S) (q r : List (Entry K S V)) :
    waiting k s (q ++ r) = waiting k s q ++ waiting k s r := by simp [waiting]

/-- Every entry is delivered once, in order, to a call on its own key, or is still outstanding. -/
theorem run_fifo (k : K) (s : S) : ∀ (cs q : List (Entry K S V)),
    waiting k s q ++ puts k s cs (run opp q cs).1 =
      takes opp k s cs (run opp q cs).1 ++ waiting k s (run opp q cs).2
  | [], q => by simp [run, puts, takes]
  | c :: cs, q => by
    have ih := run_fifo k s cs (insert opp q c).2
    rcases insert_cases opp q c with ⟨l, e, r, rfl, hl, hm, he⟩ | ⟨-, he⟩
    · rw [he] at ih
      dsimp only at ih
      simp only [run, he, puts, takes]
      by_cases hks : c.key = k ∧ opp c.side = s
      · -- the call takes the oldest entry of this side
        have hw : waiting k s l = [] := by
          refine waiting_eq_nil.2 ?_
          rintro x hx ⟨h1, h2⟩
          exact hl x hx ⟨h1.trans hks.1.symm, h2.trans hks.2.symm⟩
        have hwe : waiting k s [e] = [e.val] := by
          simp [waiting, hm.1, hm.2, hks.1, hks.2]
        have hsplit : l ++ e :: r = l ++ ([e] ++ r) := rfl
        rw [waiting_append, hw, List.nil_append] at ih
        rw [if_pos hks, hsplit, waiting_append, waiting_append, hw, hwe]
        simp only [List.nil_append, List.cons_append, ih]
      · have hwe : waiting k s [e] = [] := by
          refine waiting_eq_nil.2 fun x hx => ?_
          rw [List.mem_singleton] at hx; subst hx
          rintro ⟨h1, h2⟩
          exact hks ⟨hm.1.symm.trans h1, hm.2.symm.trans h2⟩
        have hsplit : l ++ e :: r = l ++ ([e] ++ r) := rfl
        rw [if_neg hks, hsplit, waiting_append, waiting_append, hwe, List.nil_append, ← waiting_append, ih]
    · rw [he] at ih
      dsimp only at ih
      simp only [run, he, puts, takes]
      rw [← ih, waiting_append, List.append_assoc]
      by_cases hks : c.key = k ∧ c.side = s
      · rw [if_pos hks]; simp [waiting, hks]
      · rw [if_neg hks]; simp [waiting, hks]

/-! ## Two sides in step -/

theorem waiting_of_ne {k : K} {s : S} {q : List (Entry K S V)} {c : Entry K S V} (hc : c.key ≠ k) :
    waiting k s (insert opp q c).2 = waiting k s q := by
  rcases insert_cases opp q c with ⟨l, e, r, rfl, -, hm, hi⟩ | ⟨-, hi⟩
  · have he : e.key ≠ k := fun h => hc (hm.1.symm.trans h)
    rw [hi]
    simp [waiting, he]
  · rw [hi]
    simp [waiting, hc]

/-- While one side of a key has made the calls `a` and the other the calls `b`, what waits is what one side has
called more often; the next call of a side is matched with the call of the same number on the other. -/
theorem insert_nth {β : Type} (f : V → β) (hne : ∀ s, opp s ≠ s) {q : List (Entry K S V)} {c : Entry K S V}
    {a b : List β} (ha : (waiting c.key c.side q).map f = a.drop b.length)
    (hb : (waiting c.key (opp c.side) q).map f = b.drop a.length) :
    ((∃ v, b[a.length]? = some (f v) ∧ (insert opp q c).1 = .matched v) ∨
      (b.length ≤ a.length ∧ (insert opp q c).1 = .stored)) ∧
    (waiting c.key c.side (insert opp q c).2).map f = (a ++ [f c.val]).drop b.length ∧
    (waiting c.key (opp c.side) (insert opp q c).2).map f = b.drop (a.length + 1) := by
  have hside : c.side ≠ opp c.side := fun h => hne _ h.symm
  rcases insert_cases opp q c with ⟨l, e, r, rfl, hl, hm, hi⟩ | ⟨hno, hi⟩
  · -- the oldest entry of the other side is taken
    have hlw : waiting c.key (opp c.side) l = [] := waiting_eq_nil.2 hl
    have hew : waiting c.key (opp c.side) [e] = [e.val] := by
      simp [waiting, hm.1, hm.2]
    have hes : waiting c.key c.side [e] = [] := by
      simp [waiting, hm.2, hne c.side]
    have hsplit : l ++ e :: r = l ++ ([e] ++ r) := rfl
    rw [hsplit, waiting_append, waiting_append, hlw, hew, List.nil_append, List.map_append] at hb
    rw [hsplit, waiting_append, waiting_append, hes, List.nil_append, ← waiting_append] at ha
    have hlt : a.length < b.length := by
      by_contra h
      rw [List.drop_eq_nil_of_le (by omega)] at hb
      simp at hb
    rw [List.drop_eq_getElem_cons hlt] at hb
    obtain ⟨hv, hrest⟩ := List.cons.inj hb
    rw [hi]
    refine ⟨.inl ⟨e.val, ?_, rfl⟩, ?_, ?_⟩
    · rw [List.getElem?_eq_getElem hlt, ← hv]
    · rw [ha, List.drop_eq_nil_of_le (by omega), List.drop_eq_nil_of_le (by simp; omega)]
    · rw [waiting_append, hlw, List.nil_append]
      exact hrest
  · have hw : waiting c.key (opp c.side) q = [] := waiting_eq_nil.2 hno
    have hle : b.length ≤ a.length := by
      rw [hw] at hb
      simpa using hb.symm
    have hcs : waiting c.key c.side [c] = [c.val] := by simp [waiting]
    have hco : waiting c.key (opp c.side) [c] = [] := by simp [waiting, hside]
    rw [hi]
    refine ⟨.inr ⟨hle, rfl⟩, ?_, ?_⟩
    · rw [waiting_append, List.map_append, ha, hcs, List.drop_append_of_le_length hle]
      rfl
    · rw [waiting_append, hw, hco, List.drop_eq_nil_of_le (by omega)]
      rfl

theorem zip_concat_left {α β : Type} (a : List α) (x : α) (b : List β) :
    (a ++ [x]).zip b = a.zip b ++ (b[a.length]?.map fun y => (x, y)).toList := by
  induction a generalizing b with
  | nil => cases b <;> simp
  | cons z a ih =>
    cases b with
    | nil => simp
    | cons y b => simp [ih]

/-- What a call meets, in the list of the calls that have met. -/
def Outcome.meets {β : Type} (f : V → β) (x : β) : Outcome V → List (β × β)
  | .matched v => [(x, f v)]
  | .stored => []

/-- The calls of one side that have met are those of the same number on the other. -/
theorem insert_zip {β : Type} (f : V → β) (hne : ∀ s, opp s ≠ s) {q : List (Entry K S V)} {c : Entry K S V}
    {a b : List β} (ha : (waiting c.key c.side q).map f = a.drop b.length)
    (hb : (waiting c.key (opp c.side) q).map f = b.drop a.length) :
    (a ++ [f c.val]).zip b = a.zip b ++ (insert opp q c).1.meets f (f c.val) := by
  rw [zip_concat_left]
  obtain ⟨⟨v, hv, ho⟩ | ⟨hle, ho⟩, -⟩ := insert_nth opp f hne ha hb
  · rw [hv, ho]
    rfl
  · rw [List.getElem?_eq_none hle, ho]
    rfl

end

end Matcher
