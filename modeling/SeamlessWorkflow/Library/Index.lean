import Mathlib.Data.List.AList
import Mathlib.Logic.Function.Basic
import Mathlib.Tactic.Common

/-!
# Indexes over live objects

Objects have an identity, and an index finds the live ones by a key that an object has or does not
have. While objects are being replaced an index may have lost some of the old ones already: those are
*spare*.
-/

namespace Index

variable {κ ι : Type*}

/-- The index holds live objects only, each under its own key, and all of them but the spare ones. -/
structure Covers (find : κ → Option ι) (key : ι → Option κ) (live spare : ι → Prop) : Prop where
  sound : ∀ {k i}, find k = some i → live i ∧ key i = some k
  complete : ∀ {k i}, live i → ¬ spare i → key i = some k → find k = some i

/-- The index finds exactly the live objects. -/
def Describes (find : κ → Option ι) (key : ι → Option κ) (live : ι → Prop) : Prop :=
  Covers find key live fun _ => False

variable {find find' : κ → Option ι} {key : ι → Option κ} {live live' spare spare' : ι → Prop}

namespace Covers

theorem weaken (h : Covers find key live spare) (hspare : ∀ i, live i → spare i → spare' i) :
    Covers find key live spare' :=
  ⟨h.sound, fun hl hs => h.complete hl fun hs' => hs (hspare _ hl hs')⟩

theorem congr {key' : ι → Option κ} (h : Covers find key live spare) (hfind : ∀ k, find' k = find k)
    (hkey : ∀ i, live i → key' i = key i) (hlive : ∀ i, live' i ↔ live i) :
    Covers find' key' live' spare where
  sound := by
    intro k i hf
    have hs := h.sound ((hfind k).symm.trans hf)
    exact ⟨(hlive i).mpr hs.1, (hkey i hs.1).trans hs.2⟩
  complete := by
    intro k i hl hs hk
    have hl' := (hlive i).mp hl
    rw [hfind]
    exact h.complete hl' hs ((hkey i hl').symm.trans hk)

/-- A new object that the index does not hold yet. -/
theorem appear {key' : ι → Option κ} (h : Covers find key live spare) {i : ι}
    (hkey : ∀ j, live j → key' j = key j) (hlive : ∀ j, live' j ↔ j = i ∨ live j)
    (hspare : ∀ j, spare j → spare' j) (hi : spare' i) : Covers find key' live' spare' where
  sound := by
    intro k j hf
    have hs := h.sound hf
    exact ⟨(hlive j).mpr (Or.inr hs.1), (hkey j hs.1).trans hs.2⟩
  complete := by
    intro k j hl hs hk
    have hl' : live j := ((hlive j).mp hl).resolve_left fun hji => hs (hji ▸ hi)
    exact h.complete hl' (fun hs' => hs (hspare j hs')) ((hkey j hl').symm.trans hk)

/-- A new object takes the place of the one under its key, which becomes spare. -/
theorem insert [DecidableEq κ] (h : Covers find key live spare) {i : ι} {k : κ} (hk : key i = some k)
    (hlive : ∀ j, live' j ↔ j = i ∨ live j) (hspare : ∀ j, j ≠ i → spare j → spare' j)
    (hold : ∀ j, j ≠ i → find k = some j → spare' j) :
    Covers (Function.update find k (some i)) key live' spare' where
  sound := by
    intro l j hf
    by_cases hl : l = k
    · rw [hl, Function.update_self] at hf
      rw [← Option.some.inj hf, hl]
      exact ⟨(hlive i).mpr (Or.inl rfl), hk⟩
    · rw [Function.update_of_ne hl] at hf
      exact ⟨(hlive j).mpr (Or.inr (h.sound hf).1), (h.sound hf).2⟩
  complete := by
    intro l j hj hs hkj
    by_cases hji : j = i
    · subst hji
      rw [hk] at hkj
      rw [Option.some.inj hkj, Function.update_self]
    · have hj' := ((hlive j).mp hj).resolve_left hji
      have hf := h.complete hj' (fun hs' => hs (hspare j hji hs')) hkj
      have hl : l ≠ k := fun hl => hs (hold j hji (hl ▸ hf))
      rw [Function.update_of_ne hl]
      exact hf

/-- A new object without a key. -/
theorem insertKeyless (h : Covers find key live spare) {i : ι} (hk : key i = none)
    (hlive : ∀ j, live' j ↔ j = i ∨ live j) (hspare : ∀ j, j ≠ i → spare j → spare' j) :
    Covers find key live' spare' where
  sound hf := ⟨(hlive _).mpr (Or.inr (h.sound hf).1), (h.sound hf).2⟩
  complete := by
    intro l j hj hs hkj
    by_cases hji : j = i
    · rw [hji, hk] at hkj
      cases hkj
    · exact h.complete (((hlive j).mp hj).resolve_left hji) (fun hs' => hs (hspare j hji hs')) hkj

/-- An object ceases to be live, and its entry goes if it is still its own. -/
theorem remove (h : Covers find key live spare) {i : ι}
    (hgone : ∀ l, key i = some l → find l = some i → find' l = none)
    (hkept : ∀ l, find l ≠ some i → find' l = find l)
    (hlive : ∀ j, live' j ↔ live j ∧ j ≠ i) (hspare : ∀ j, j ≠ i → spare j → spare' j) :
    Covers find' key live' spare' where
  sound := by
    intro l j hf
    by_cases hi : find l = some i
    · rw [hgone l (h.sound hi).2 hi] at hf
      cases hf
    · rw [hkept l hi] at hf
      have hs := h.sound hf
      refine ⟨(hlive j).mpr ⟨hs.1, ?_⟩, hs.2⟩
      rintro rfl
      exact hi hf
  complete := by
    intro l j hj hs hkj
    obtain ⟨hj', hne⟩ := (hlive j).mp hj
    have hf := h.complete hj' (fun hs' => hs (hspare j hne hs')) hkj
    rw [hkept l]
    · exact hf
    · intro hi
      rw [hf] at hi
      exact hne (Option.some.inj hi)

end Covers

/-! ## Indexes that are dicts -/

variable [DecidableEq κ]

/-- Drop the entry of a key if it is this object. -/
def discard [DecidableEq ι] (d : AList fun _ : κ => ι) (k : κ) (i : ι) : AList fun _ : κ => ι :=
  if d.lookup k = some i then d.erase k else d

/-- Change the entry of a key, if there is one. -/
def adjust {ν : Type*} (d : AList fun _ : κ => ν) (k : κ) (f : ν → ν) : AList fun _ : κ => ν :=
  match d.lookup k with
  | none => d
  | some v => d.insert k (f v)

theorem lookup_adjust {ν : Type*} (d : AList fun _ : κ => ν) (k l : κ) (f : ν → ν) :
    (adjust d k f).lookup l = if l = k then (d.lookup l).map f else d.lookup l := by
  unfold adjust
  split
  · rename_i hk
    by_cases hl : l = k
    · rw [if_pos hl, hl, hk, Option.map_none]
    · rw [if_neg hl]
  · rename_i v hk
    by_cases hl : l = k
    · rw [if_pos hl, hl, hk, Option.map_some]
      exact AList.lookup_insert d
    · rw [if_neg hl]
      exact AList.lookup_insert_ne hl

theorem lookup_insert (d : AList fun _ : κ => ι) (k : κ) (i : ι) :
    (fun l => (d.insert k i).lookup l) = Function.update (fun l => d.lookup l) k (some i) := by
  funext l
  by_cases h : l = k
  · rw [h, AList.lookup_insert, Function.update_self]
  · rw [AList.lookup_insert_ne h, Function.update_of_ne h]

theorem lookup_discard [DecidableEq ι] (d : AList fun _ : κ => ι) (k l : κ) (i : ι) :
    (discard d k i).lookup l = if k = l ∧ d.lookup l = some i then none else d.lookup l := by
  unfold discard
  by_cases hi : d.lookup k = some i
  · rw [if_pos hi]
    by_cases hl : k = l
    · subst hl
      rw [AList.lookup_erase, if_pos ⟨rfl, hi⟩]
    · rw [AList.lookup_erase_ne (Ne.symm hl), if_neg fun h => hl h.1]
  · rw [if_neg hi, if_neg]
    rintro ⟨rfl, hi'⟩
    exact hi hi'

end Index
