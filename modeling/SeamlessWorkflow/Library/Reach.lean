import Mathlib.Logic.Relation
import Mathlib.Data.List.Basic
import Mathlib.Data.List.Perm.Subperm
import Mathlib.Tactic.Common

/-!
# Depth-first reachability over a list of edges

`search` is a worklist search with an explicit stack and a set of seen vertices. It looks at every
edge at most once, so `edges.length + 1` steps are enough, and with that many it decides
reachability.
-/

namespace Reach

open Relation

variable {α : Type*} [DecidableEq α]

/-- The successors of a vertex, in the order of the edges. -/
def succs (edges : List (α × α)) (a : α) : List α :=
  (edges.filter (fun e => decide (e.1 = a))).map Prod.snd

/-- The edge relation of a list of edges. -/
def Edge (edges : List (α × α)) (a b : α) : Prop := (a, b) ∈ edges

theorem mem_succs {edges : List (α × α)} {a b : α} : b ∈ succs edges a ↔ Edge edges a b := by
  simp [succs, Edge]

/-- Is `goal` found from the vertices on the stack? The first argument bounds the steps. -/
def search (edges : List (α × α)) (goal : α) : Nat → List α → List α → Bool
  | 0, _, _ => false
  | _ + 1, _, [] => false
  | fuel + 1, seen, current :: stack =>
    if current = goal then true
    else if current ∈ seen then search edges goal fuel seen stack
    else search edges goal fuel (current :: seen) ((succs edges current).reverse ++ stack)

/-- Is `goal` reachable from `start`? -/
def reaches (edges : List (α × α)) (start goal : α) : Bool :=
  search edges goal (edges.length + 1) [] [start]

theorem search_sound {edges : List (α × α)} {start goal : α} :
    ∀ {fuel : Nat} {seen stack : List α}, (∀ x ∈ stack, ReflTransGen (Edge edges) start x) →
      search edges goal fuel seen stack = true → ReflTransGen (Edge edges) start goal := by
  intro fuel
  induction fuel with
  | zero => intro seen stack _ h; simp [search] at h
  | succ fuel ih =>
    intro seen stack hstack h
    cases stack with
    | nil => simp [search] at h
    | cons current stack =>
      simp only [search] at h
      split at h
      · rename_i hc
        exact hc ▸ hstack current (List.mem_cons_self ..)
      · split at h
        · exact ih (fun x hx => hstack x (List.mem_cons_of_mem _ hx)) h
        · refine ih (fun x hx => ?_) h
          rcases List.mem_append.mp hx with hx | hx
          · have hx' := mem_succs.mp (List.mem_reverse.mp hx)
            exact (hstack current (List.mem_cons_self ..)).tail hx'
          · exact hstack x (List.mem_cons_of_mem _ hx)

/-- The edges out of vertices that are not seen yet. -/
def unseen (edges : List (α × α)) (seen : List α) : Nat :=
  (edges.filter (fun e => decide (e.1 ∉ seen))).length

theorem unseen_cons {edges : List (α × α)} {seen : List α} {a : α} (ha : a ∉ seen) :
    unseen edges (a :: seen) + (succs edges a).length = unseen edges seen := by
  induction edges with
  | nil => simp [unseen, succs]
  | cons e edges ih =>
    simp only [unseen, succs, List.length_map] at ih ⊢
    by_cases hea : e.1 = a
    · have h1 : e.1 ∉ seen := hea ▸ ha
      simp [hea, ha] at ih ⊢
      omega
    · by_cases hes : e.1 ∈ seen
      · simp [hea, hes] at ih ⊢
        exact ih
      · simp [hea, hes] at ih ⊢
        omega

/-- A search that fails with enough steps leaves a set of vertices that contains the stack, is
closed under the edges and misses the goal. -/
theorem search_complete {edges : List (α × α)} {goal : α} :
    ∀ {fuel : Nat} {seen stack : List α}, stack.length + unseen edges seen ≤ fuel →
      goal ∉ seen → (∀ x ∈ seen, ∀ y, Edge edges x y → y ∈ seen ∨ y ∈ stack) →
      search edges goal fuel seen stack = false →
      ∃ closed : List α, (∀ x ∈ seen, x ∈ closed) ∧ (∀ x ∈ stack, x ∈ closed) ∧ goal ∉ closed ∧
        ∀ x ∈ closed, ∀ y, Edge edges x y → y ∈ closed := by
  intro fuel
  induction fuel with
  | zero =>
    intro seen stack hfuel hgoal hclosed _
    have : stack = [] := List.eq_nil_of_length_eq_zero (by omega)
    subst this
    exact ⟨seen, fun _ hx => hx, by simp, hgoal, fun x hx y hxy => by simpa using hclosed x hx y hxy⟩
  | succ fuel ih =>
    intro seen stack hfuel hgoal hclosed h
    cases stack with
    | nil =>
      exact ⟨seen, fun _ hx => hx, by simp, hgoal,
        fun x hx y hxy => by simpa using hclosed x hx y hxy⟩
    | cons current stack =>
      simp only [search] at h
      simp only [List.length_cons] at hfuel
      split at h
      · exact absurd h (by simp)
      · rename_i hcg
        split at h
        · rename_i hseen
          obtain ⟨closed, h1, h2, h3, h4⟩ := ih (by omega) hgoal (fun x hx y hxy => by
            rcases hclosed x hx y hxy with hy | hy
            · exact Or.inl hy
            · rcases List.mem_cons.mp hy with rfl | hy
              · exact Or.inl hseen
              · exact Or.inr hy) h
          refine ⟨closed, h1, fun x hx => ?_, h3, h4⟩
          rcases List.mem_cons.mp hx with rfl | hx
          · exact h1 _ hseen
          · exact h2 x hx
        · rename_i hnew
          have hcount : unseen edges _ + _ = unseen edges _ := unseen_cons hnew
          obtain ⟨closed, h1, h2, h3, h4⟩ := ih
            (by simp only [List.length_append, List.length_reverse]; omega)
            (by simp only [List.mem_cons, not_or]; exact ⟨fun hg => hcg hg.symm, hgoal⟩)
            (fun x hx y hxy => by
              rcases List.mem_cons.mp hx with rfl | hx
              · exact Or.inr (List.mem_append_left _ (List.mem_reverse.mpr (mem_succs.mpr hxy)))
              · rcases hclosed x hx y hxy with hy | hy
                · exact Or.inl (List.mem_cons_of_mem _ hy)
                · rcases List.mem_cons.mp hy with rfl | hy
                  · exact Or.inl (List.mem_cons_self ..)
                  · exact Or.inr (List.mem_append_right _ hy)) h
          refine ⟨closed, fun x hx => h1 x (List.mem_cons_of_mem _ hx), fun x hx => ?_, h3, h4⟩
          rcases List.mem_cons.mp hx with rfl | hx
          · exact h1 _ (List.mem_cons_self ..)
          · exact h2 x (List.mem_append_right _ hx)

/-- The search decides reachability. -/
theorem reaches_iff {edges : List (α × α)} {start goal : α} :
    reaches edges start goal = true ↔ ReflTransGen (Edge edges) start goal := by
  constructor
  · intro h
    exact search_sound (fun x hx => by rw [List.mem_singleton.mp hx]) h
  · intro h
    by_contra hne
    have hfalse : reaches edges start goal = false := by simpa using hne
    clear hne
    obtain ⟨closed, -, h2, h3, h4⟩ := search_complete
      (by simp only [List.length_singleton, unseen]
          have := List.length_filter_le (fun e : α × α => decide (e.1 ∉ ([] : List α))) edges
          omega) (by simp) (by simp) hfalse
    have hclosed : ∀ x, ReflTransGen (Edge edges) start x → x ∈ closed := by
      intro x hx
      induction hx with
      | refl => exact h2 start (List.mem_singleton.mpr rfl)
      | tail _ hedge ih => exact h4 _ ih _ hedge
    exact h3 (hclosed goal h)

/-! ## The vertices that are reached -/

/-- Look at one vertex: what it leads to and has not been found yet is found, and goes on the stack. -/
def visit (edges : List (α × α)) (current : α) (found stack : List α) : List α × List α :=
  (succs edges current).foldl
    (fun state a => if a ∈ state.1 then state else (a :: state.1, a :: state.2)) (found, stack)

/-- Collect what is found from the vertices on the stack. The first argument bounds the steps. -/
def collect (edges : List (α × α)) : Nat → List α → List α → List α
  | 0, found, _ => found
  | _ + 1, found, [] => found
  | fuel + 1, found, current :: stack =>
    let next := visit edges current found stack
    collect edges fuel next.1 next.2

/-- The vertices that a vertex reaches along one or more edges. -/
def reached (edges : List (α × α)) (start : α) : List α :=
  collect edges (edges.length + 1) [] [start]

/-- What a visit finds goes on the stack as well. -/
theorem visit_spec (edges : List (α × α)) (current : α) (found stack : List α) :
    ∃ fresh, visit edges current found stack = (fresh ++ found, fresh ++ stack) ∧
      (found.Nodup → (fresh ++ found).Nodup) ∧ (∀ a ∈ fresh, Edge edges current a) ∧
        ∀ a, Edge edges current a → a ∈ fresh ++ found := by
  suffices loop : ∀ (as : List α) (found stack : List α), ∃ fresh,
      as.foldl (fun state a => if a ∈ state.1 then state else (a :: state.1, a :: state.2))
        (found, stack) = (fresh ++ found, fresh ++ stack) ∧
      (found.Nodup → (fresh ++ found).Nodup) ∧ (∀ a ∈ fresh, a ∈ as) ∧
        ∀ a ∈ as, a ∈ fresh ++ found by
    obtain ⟨fresh, heq, hnodup, hfresh, hall⟩ := loop (succs edges current) found stack
    exact ⟨fresh, heq, hnodup, fun a ha => mem_succs.mp (hfresh a ha),
      fun a ha => hall a (mem_succs.mpr ha)⟩
  intro as
  induction as with
  | nil => exact fun found stack => ⟨[], rfl, id, fun _ ha => ha, fun a ha => nomatch ha⟩
  | cons a as ih =>
    intro found stack
    rw [List.foldl_cons]
    by_cases ha : a ∈ found
    · rw [if_pos ha]
      obtain ⟨fresh, heq, hnodup, hfresh, hall⟩ := ih found stack
      refine ⟨fresh, heq, hnodup, fun b hb => List.mem_cons_of_mem _ (hfresh b hb), fun b hb => ?_⟩
      rcases List.mem_cons.mp hb with rfl | hb
      · exact List.mem_append_right _ ha
      · exact hall b hb
    · rw [if_neg ha]
      obtain ⟨fresh, heq, hnodup, hfresh, hall⟩ := ih (a :: found) (a :: stack)
      have hmove : ∀ l : List α, fresh ++ a :: l = (fresh ++ [a]) ++ l := fun l => by simp
      rw [hmove found, hmove stack] at heq
      rw [hmove found] at hnodup
      refine ⟨fresh ++ [a], heq, fun h => hnodup (List.nodup_cons.mpr ⟨ha, h⟩), ?_, ?_⟩
      · intro b hb
        rcases List.mem_append.mp hb with hb | hb
        · exact List.mem_cons_of_mem _ (hfresh b hb)
        · exact List.mem_singleton.mp hb ▸ List.mem_cons_self ..
      · intro b hb
        rw [← hmove]
        rcases List.mem_cons.mp hb with rfl | hb
        · exact List.mem_append_right _ (List.mem_cons_self ..)
        · exact hall b hb

/-- What is collected is reached, and with enough steps nothing is left out. -/
theorem collect_spec {edges : List (α × α)} {start : α} :
    ∀ {fuel : Nat} {found stack : List α}, stack.length + edges.length ≤ fuel + found.length →
      found.Nodup → (∀ x ∈ found, TransGen (Edge edges) start x) →
      (∀ x ∈ stack, x = start ∨ x ∈ found) →
      (∀ x, x = start ∨ x ∈ found → x ∈ stack ∨ ∀ y, Edge edges x y → y ∈ found) →
      ∀ y, y ∈ collect edges fuel found stack ↔ TransGen (Edge edges) start y := by
  -- with an empty stack what has been found is closed under the edges
  have stop : ∀ {found : List α}, (∀ x ∈ found, TransGen (Edge edges) start x) →
      (∀ x, x = start ∨ x ∈ found → ∀ y, Edge edges x y → y ∈ found) →
      ∀ y, y ∈ found ↔ TransGen (Edge edges) start y := by
    intro found hsound hclosed y
    refine ⟨hsound y, fun hy => ?_⟩
    induction hy with
    | single hedge => exact hclosed _ (Or.inl rfl) _ hedge
    | tail _ hedge ih => exact hclosed _ (Or.inr ih) _ hedge
  intro fuel
  induction fuel with
  | zero =>
    intro found stack hfuel hnodup hsound hstack hclosed
    have htargets : found ⊆ edges.map Prod.snd := by
      intro x hx
      obtain ⟨z, hz⟩ : ∃ z, Edge edges z x := by
        cases hsound x hx with
        | single hedge => exact ⟨_, hedge⟩
        | tail _ hedge => exact ⟨_, hedge⟩
      exact List.mem_map_of_mem (f := Prod.snd) hz
    have hlength : found.length ≤ edges.length := by
      have := (List.subperm_of_subset hnodup htargets).length_le
      rwa [List.length_map] at this
    have hnil : stack = [] := List.eq_nil_of_length_eq_zero (by omega)
    subst hnil
    exact stop hsound fun x hx => (hclosed x hx).resolve_left List.not_mem_nil
  | succ fuel ih =>
    intro found stack hfuel hnodup hsound hstack hclosed
    cases stack with
    | nil => exact stop hsound fun x hx => (hclosed x hx).resolve_left List.not_mem_nil
    | cons current stack =>
      obtain ⟨fresh, heq, hfresh, hfrom, hall⟩ := visit_spec edges current found stack
      unfold collect
      rw [heq]
      have hreach : ∀ x ∈ fresh, TransGen (Edge edges) start x := by
        intro x hx
        rcases hstack current (List.mem_cons_self ..) with rfl | hfound
        · exact .single (hfrom x hx)
        · exact (hsound current hfound).tail (hfrom x hx)
      refine ih ?_ (hfresh hnodup) (fun x hx => ?_) (fun x hx => ?_) fun x hx => ?_
      · simp only [List.length_append, List.length_cons] at hfuel ⊢
        omega
      · rcases List.mem_append.mp hx with hx | hx
        · exact hreach x hx
        · exact hsound x hx
      · rcases List.mem_append.mp hx with hx | hx
        · exact Or.inr (List.mem_append_left _ hx)
        · exact (hstack x (List.mem_cons_of_mem _ hx)).imp_right (List.mem_append_right _)
      · have hold : x = start ∨ x ∈ found → x ∈ fresh ++ stack ∨
            ∀ y, Edge edges x y → y ∈ fresh ++ found := by
          intro hx
          rcases hclosed x hx with hmem | hdone
          · rcases List.mem_cons.mp hmem with rfl | hmem
            · exact Or.inr hall
            · exact Or.inl (List.mem_append_right _ hmem)
          · exact Or.inr fun y hy => List.mem_append_right _ (hdone y hy)
        rcases hx with hx | hx
        · exact hold (Or.inl hx)
        · rcases List.mem_append.mp hx with hx | hx
          · exact Or.inl (List.mem_append_left _ hx)
          · exact hold (Or.inr hx)

theorem mem_reached {edges : List (α × α)} {start y : α} :
    y ∈ reached edges start ↔ TransGen (Edge edges) start y := by
  refine collect_spec ?_ List.nodup_nil (fun _ hx => nomatch hx) (fun x hx => ?_) (fun x hx => ?_) y
  · simp only [List.length_singleton, List.length_nil]
    omega
  · exact Or.inl (List.mem_singleton.mp hx)
  · rcases hx with rfl | hx
    · exact Or.inl (List.mem_singleton.mpr rfl)
    · exact nomatch hx

/-! ## Acyclic relations -/

/-- No vertex reaches itself along one or more edges. -/
def Acyclic {β : Type*} (r : β → β → Prop) : Prop := ∀ a, ¬ TransGen r a a

theorem Acyclic.mono {β : Type*} {r s : β → β → Prop} (h : Acyclic s) (hrs : ∀ a b, r a b → s a b) :
    Acyclic r :=
  fun a ha => h a (ha.lift id hrs)

/-- A relation that maps homomorphically into an acyclic one is acyclic. -/
theorem Acyclic.of_map {β γ : Type*} {r : β → β → Prop} {s : γ → γ → Prop} (h : Acyclic s)
    (f : β → γ) (hf : ∀ a b, r a b → s (f a) (f b)) : Acyclic r :=
  fun a ha => h (f a) (ha.lift f hf)

/-- A cycle through a vertex of a property that steps preserve maps to a cycle. -/
theorem Acyclic.of_forward {β γ : Type*} {r : β → β → Prop} {s : γ → γ → Prop} (h : Acyclic s)
    (f : β → γ) {P : β → Prop} (hP : ∀ a b, P a → r a b → P b ∧ s (f a) (f b)) (a : β) (ha : P a) :
    ¬ TransGen r a a := by
  have run : ∀ b, TransGen r a b → P b ∧ TransGen s (f a) (f b) := by
    intro b hb
    induction hb with
    | single hab =>
      obtain ⟨hb, hs⟩ := hP _ _ ha hab
      exact ⟨hb, .single hs⟩
    | tail _ hbc ih =>
      obtain ⟨hc, hs⟩ := hP _ _ ih.1 hbc
      exact ⟨hc, ih.2.tail hs⟩
  exact fun hcycle => h _ (run a hcycle).2

/-- The same with a property that steps preserve backwards. -/
theorem Acyclic.of_backward {β γ : Type*} {r : β → β → Prop} {s : γ → γ → Prop} (h : Acyclic s)
    (f : β → γ) {P : β → Prop} (hP : ∀ a b, P b → r a b → P a ∧ s (f a) (f b)) (b : β) (hb : P b) :
    ¬ TransGen r b b := by
  have run : ∀ a, TransGen r a b → P a ∧ TransGen s (f a) (f b) := by
    intro a ha
    induction ha using TransGen.head_induction_on with
    | single hab =>
      obtain ⟨ha, hs⟩ := hP _ _ hb hab
      exact ⟨ha, .single hs⟩
    | head hac _ ih =>
      obtain ⟨ha, hs⟩ := hP _ _ ih.1 hac
      exact ⟨ha, ih.2.head hs⟩
  exact fun hcycle => h _ (run b hcycle).2

/-- Adding an edge whose source its target does not reach keeps a relation acyclic. -/
theorem Acyclic.add_edge {β : Type*} {r s : β → β → Prop} (h : Acyclic r) {a b : β}
    (hs : ∀ x y, s x y → r x y ∨ (x = a ∧ y = b)) (hab : ¬ ReflTransGen r b a) : Acyclic s := by
  -- A path of `s` either avoids the new edge, or runs in `r` up to it and in `r` after its last use.
  have split : ∀ x y, TransGen s x y →
      TransGen r x y ∨ (ReflTransGen r x a ∧ ReflTransGen r b y) := by
    intro x y hxy
    induction hxy with
    | single hxy =>
      rcases hs _ _ hxy with hr | ⟨rfl, rfl⟩
      · exact Or.inl (TransGen.single hr)
      · exact Or.inr ⟨ReflTransGen.refl, ReflTransGen.refl⟩
    | tail _ hyz ih =>
      rcases hs _ _ hyz with hr | ⟨rfl, rfl⟩
      · rcases ih with ih | ⟨ih1, ih2⟩
        · exact Or.inl (ih.tail hr)
        · exact Or.inr ⟨ih1, ih2.tail hr⟩
      · rcases ih with ih | ⟨ih1, ih2⟩
        · exact Or.inr ⟨ih.to_reflTransGen, ReflTransGen.refl⟩
        · exact Or.inr ⟨ih1, ReflTransGen.refl⟩
  intro x hx
  rcases split x x hx with hx | ⟨h1, h2⟩
  · exact h x hx
  · exact hab (h2.trans h1)

end Reach
