import Mathlib.Data.List.AList
import Mathlib.Data.List.Perm.Subperm
import Mathlib.Tactic.Common

/-!
# Insertion-ordered mappings as association lists

`setItem` is assignment to a key of an insertion-ordered mapping: the entry of an existing key is
replaced in place, a new key is appended. `firstFree` is the search for the first unused name of a
numbered family.
-/

namespace Dict

variable {κ ν : Type*} [DecidableEq κ]

/-- Assign `v` to the key `k`. -/
def setItem (k : κ) (v : ν) : List (κ × ν) → List (κ × ν)
  | [] => [(k, v)]
  | e :: d => if e.1 = k then (k, v) :: d else e :: setItem k v d

theorem mem_setItem {k : κ} {v : ν} {d : List (κ × ν)} {e : κ × ν} (h : e ∈ setItem k v d) :
    e = (k, v) ∨ e ∈ d := by
  induction d with
  | nil => exact Or.inl (by simpa [setItem] using h)
  | cons x d ih =>
    simp only [setItem] at h
    split at h
    · rcases List.mem_cons.mp h with h | h
      · exact Or.inl h
      · exact Or.inr (List.mem_cons_of_mem _ h)
    · rcases List.mem_cons.mp h with h | h
      · exact Or.inr (h ▸ List.mem_cons_self ..)
      · rcases ih h with h | h
        · exact Or.inl h
        · exact Or.inr (List.mem_cons_of_mem _ h)

theorem exists_setItem (k : κ) (v : ν) (d : List (κ × ν)) (l : κ) :
    (∃ e ∈ setItem k v d, e.1 = l) ↔ k = l ∨ ∃ e ∈ d, e.1 = l := by
  induction d with
  | nil => simp [setItem]
  | cons x d ih =>
    by_cases hx : x.1 = k
    · simp only [setItem, if_pos hx, List.mem_cons, exists_eq_or_imp]
      rw [hx]
      tauto
    · simp only [setItem, if_neg hx, List.mem_cons, exists_eq_or_imp, ih]
      tauto

/-- The first name of the family from index `start` on that is not taken, among `fuel` candidates. -/
def firstFree {α : Type*} (taken : α → Bool) (name : Nat → α) : Nat → Nat → α
  | 0, start => name start
  | fuel + 1, start => if taken (name start) then firstFree taken name fuel (start + 1) else name start

/-- The search passes over taken names only, and stops at a free one or at its end. -/
theorem firstFree_spec {α : Type*} (taken : α → Bool) (name : Nat → α) (fuel start : Nat) :
    ∃ i, firstFree taken name fuel start = name i ∧ start ≤ i ∧
      (∀ j, start ≤ j → j < i → taken (name j) = true) ∧
      (taken (name i) = false ∨ i = start + fuel) := by
  induction fuel generalizing start with
  | zero => exact ⟨start, rfl, le_rfl, fun j hj hlt => by omega, Or.inr rfl⟩
  | succ fuel ih =>
    cases ht : taken (name start) with
    | false =>
      refine ⟨start, ?_, le_rfl, fun j hj hlt => by omega, Or.inl ht⟩
      simp [firstFree, ht]
    | true =>
      obtain ⟨i, he, hle, hpassed, hend⟩ := ih (start + 1)
      refine ⟨i, by simpa [firstFree, ht] using he, by omega, fun j hj hlt => ?_, ?_⟩
      · rcases Nat.lt_or_ge start j with hj' | hj'
        · exact hpassed j hj' hlt
        · rw [show j = start by omega]
          exact ht
      · rcases hend with hend | hend
        · exact Or.inl hend
        · exact Or.inr (by omega)

/-- With more candidates than taken names, the search finds a free one. -/
theorem firstFree_free {α : Type*} {taken : α → Bool} {name : Nat → α} {used : List α}
    (hname : Function.Injective name) (hused : ∀ a, taken a = true → a ∈ used) {fuel : Nat}
    (hfuel : used.length < fuel) (start : Nat) :
    taken (firstFree taken name fuel start) = false := by
  obtain ⟨i, he, hle, hpassed, hend⟩ := firstFree_spec taken name fuel start
  rw [he]
  rcases hend with hend | rfl
  · exact hend
  · -- all candidates would be taken, and they are different
    exfalso
    have hnodup : ((List.range' start fuel).map name).Nodup :=
      (List.nodup_range').map hname
    have hsub : (List.range' start fuel).map name ⊆ used := by
      intro a ha
      obtain ⟨j, hj, rfl⟩ := List.mem_map.mp ha
      rw [List.mem_range'_1] at hj
      exact hused _ (hpassed j hj.1 hj.2)
    have := (hnodup.subperm hsub).length_le
    rw [List.length_map, List.length_range'] at this
    omega

theorem toString_injective : Function.Injective (toString : Nat → String) := by
  intro i j h
  have hdigits := congrArg (fun s => Nat.ofDigitChars 10 s.toList 0) h
  simpa [Nat.toString_eq_repr] using hdigits

end Dict
