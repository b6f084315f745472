import Mathlib.Data.List.Infix
import Mathlib.Tactic.Common

/-!
# Splitting a list at its longest accepted prefix

A flattened path is read back by taking the longest nonempty prefix that names something and
leaving the rest. `split p xs` is that reading for an arbitrary acceptance test `p`.
-/

namespace LongestPrefix

variable {α : Type*}

/-- The search of `split`, from prefixes of length `size` downwards. -/
def splitFrom (p : List α → Bool) (xs : List α) : Nat → Option (List α × List α)
  | 0 => none
  | size + 1 =>
    if p (xs.take (size + 1)) then some (xs.take (size + 1), xs.drop (size + 1))
    else splitFrom p xs size

/-- Split `xs` at its longest nonempty prefix accepted by `p`. -/
def split (p : List α → Bool) (xs : List α) : Option (List α × List α) :=
  splitFrom p xs xs.length

/-- `(n, l)` is the reading of `xs`: `n` is an accepted nonempty prefix, `l` is the rest, and no
accepted prefix is longer. -/
structure Reads (p : List α → Bool) (xs n l : List α) : Prop where
  nonempty : n ≠ []
  accepted : p n = true
  flat : n ++ l = xs
  longest : ∀ m, p m = true → m <+: xs → m.length ≤ n.length

theorem splitFrom_sound {p : List α → Bool} {xs n l : List α} :
    ∀ {size : Nat}, size ≤ xs.length → splitFrom p xs size = some (n, l) →
      p n = true ∧ n ++ l = xs ∧ (xs ≠ [] → n ≠ []) ∧
        ∀ k, n.length < k → k ≤ size → p (xs.take k) = false := by
  intro size
  induction size with
  | zero => intro _ h; simp [splitFrom] at h
  | succ size ih =>
    intro hsize h
    simp only [splitFrom] at h
    split at h
    · rename_i hp
      obtain ⟨rfl, rfl⟩ := Prod.mk.injEq .. |>.mp (Option.some.inj h)
      refine ⟨hp, List.take_append_drop _ _, fun hxs => by simp [hxs], fun k hk hk' => ?_⟩
      rw [List.length_take_of_le hsize] at hk
      omega
    · rename_i hp
      obtain ⟨h1, h2, h3, h4⟩ := ih (by omega) h
      refine ⟨h1, h2, h3, fun k hk hk' => ?_⟩
      rcases Nat.lt_or_ge size k with hlt | hge
      · have : k = size + 1 := by omega
        rw [this]; simpa using hp
      · exact h4 k hk hge

theorem splitFrom_none {p : List α → Bool} {xs : List α} :
    ∀ {size : Nat}, splitFrom p xs size = none →
      ∀ k, 0 < k → k ≤ size → p (xs.take k) = false := by
  intro size
  induction size with
  | zero => intro _ k hk hk'; omega
  | succ size ih =>
    intro h k hk hk'
    simp only [splitFrom] at h
    split at h
    · exact absurd h (by simp)
    · rename_i hp
      rcases Nat.lt_or_ge size k with hlt | hge
      · have : k = size + 1 := by omega
        rw [this]; simpa using hp
      · exact ih h k hk hge

theorem reads_of_split {p : List α → Bool} {xs n l : List α} (h : split p xs = some (n, l)) :
    Reads p xs n l := by
  obtain ⟨h1, h2, h3, h4⟩ := splitFrom_sound le_rfl h
  have hxs : xs ≠ [] := by
    rintro rfl
    simp [split, splitFrom] at h
  refine ⟨h3 hxs, h1, h2, fun m hm hpre => ?_⟩
  by_contra hlt
  have := h4 m.length (by omega) hpre.length_le
  rw [← List.prefix_iff_eq_take.mp hpre, hm] at this
  exact absurd this (by simp)

/-- A list has one reading. -/
theorem Reads.unique {p : List α → Bool} {xs n l n' l' : List α} (h : Reads p xs n l)
    (h' : Reads p xs n' l') : n = n' ∧ l = l' := by
  have hn : n <+: xs := ⟨l, h.flat⟩
  have hn' : n' <+: xs := ⟨l', h'.flat⟩
  have hlen : n.length = n'.length :=
    le_antisymm (h'.longest n h.accepted hn) (h.longest n' h'.accepted hn')
  have hnn : n = n' := by
    rw [List.prefix_iff_eq_take.mp hn, List.prefix_iff_eq_take.mp hn', hlen]
  subst hnn
  exact ⟨rfl, List.append_cancel_left (h.flat.trans h'.flat.symm)⟩

theorem split_eq_none_iff {p : List α → Bool} {xs : List α} :
    split p xs = none ↔ ∀ m, m ≠ [] → m <+: xs → p m = false := by
  constructor
  · intro h m hm hpre
    have := splitFrom_none h m.length (List.length_pos_iff.mpr hm) hpre.length_le
    rwa [← List.prefix_iff_eq_take.mp hpre] at this
  · intro h
    cases hs : split p xs with
    | none => rfl
    | some r =>
      have hr := reads_of_split (n := r.1) (l := r.2) hs
      have := h r.1 hr.nonempty ⟨r.2, hr.flat⟩
      rw [hr.accepted] at this
      exact absurd this (by simp)

theorem split_eq_some_iff {p : List α → Bool} {xs n l : List α} :
    split p xs = some (n, l) ↔ Reads p xs n l := by
  refine ⟨reads_of_split, fun h => ?_⟩
  cases hs : split p xs with
  | none =>
    have := split_eq_none_iff.mp hs n h.nonempty ⟨l, h.flat⟩
    rw [h.accepted] at this
    exact absurd this (by simp)
  | some r =>
    obtain ⟨h1, h2⟩ := (reads_of_split (n := r.1) (l := r.2) hs).unique h
    rw [← h1, ← h2]

/-- A list with an accepted nonempty prefix has a reading. -/
theorem exists_reads {p : List α → Bool} {xs m : List α} (hm : p m = true) (hne : m ≠ [])
    (hpre : m <+: xs) : ∃ n l, Reads p xs n l := by
  cases hs : split p xs with
  | none => exact absurd hm (by simp [split_eq_none_iff.mp hs m hne hpre])
  | some r => exact ⟨r.1, r.2, reads_of_split (n := r.1) (l := r.2) hs⟩

/-- Accepting one more list `k` changes the reading of `xs` only when `k` is a prefix of `xs` that
is longer than the prefix read before. -/
theorem Reads.of_accept {p q : List α → Bool} {xs n l k : List α} (h : Reads p xs n l)
    (hq : ∀ m, q m = true ↔ p m = true ∨ m = k) (hk : k <+: xs → k.length ≤ n.length) :
    Reads q xs n l := by
  refine ⟨h.nonempty, (hq n).mpr (Or.inl h.accepted), h.flat, fun m hm hpre => ?_⟩
  rcases (hq m).mp hm with hm | rfl
  · exact h.longest m hm hpre
  · exact hk hpre

/-- Accepting fewer lists keeps a reading whose prefix is still accepted. -/
theorem Reads.of_reject {p q : List α → Bool} {xs n l : List α} (h : Reads p xs n l)
    (hq : ∀ m, q m = true → p m = true) (hn : q n = true) : Reads q xs n l :=
  ⟨h.nonempty, hn, h.flat, fun m hm hpre => h.longest m (hq m hm) hpre⟩

/-- The reading of a prefix of `xs` that is at least as long as the prefix read from `xs`. -/
theorem Reads.of_prefix {p : List α → Bool} {xs ys n l : List α} (h : Reads p xs n l)
    (hn : n <+: ys) (hys : ys <+: xs) : ∃ r, Reads p ys n r := by
  obtain ⟨r, hr⟩ := hn
  exact ⟨r, h.nonempty, h.accepted, hr, fun m hm hpre => h.longest m hm (hpre.trans hys)⟩

end LongestPrefix
