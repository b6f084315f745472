import Mathlib.Data.List.Basic
import Mathlib.Data.Finset.Card
import SeamlessWorkflow.Library.Reach

/-!
# Depth-first post-order

`order` lists vertices so that the successors of a vertex stand before it. A vertex is marked when
it is entered, so a cycle does not loop.
-/

namespace PostOrder

open Relation

variable {α : Type*} [DecidableEq α]

/-- Visit a vertex with the marked vertices and the order so far. The first argument bounds the
depth. -/
def visit (succs : α → List α) : Nat → List α × List α → α → List α × List α
  | 0, acc, _ => acc
  | fuel + 1, acc, a =>
    if a ∈ acc.1 then acc
    else
      let acc := (succs a).foldl (fun acc b => visit succs fuel acc b) (a :: acc.1, acc.2)
      (acc.1, acc.2 ++ [a])

/-- The post-order over all vertices of a list that is closed under `succs`. -/
def order (succs : α → List α) (vertices : List α) : List α :=
  (vertices.foldl (fun acc a => visit succs (vertices.length + 1) acc a) ([], [])).2

/-- Every vertex of a list stands after its successors. -/
def SuccsFirst (succs : α → List α) (l : List α) : Prop :=
  ∀ before a after, l = before ++ a :: after → ∀ b ∈ succs a, b ∈ before

omit [DecidableEq α] in
theorem SuccsFirst.append {succs : α → List α} {l : List α} {a : α} (h : SuccsFirst succs l)
    (ha : ∀ b ∈ succs a, b ∈ l) : SuccsFirst succs (l ++ [a]) := by
  intro before c after he b hb
  rcases List.eq_nil_or_concat after with rfl | ⟨after, d, rfl⟩
  · obtain ⟨rfl, hc⟩ := List.append_inj' he rfl
    obtain rfl := (List.cons.inj hc).1
    exact ha b hb
  · have he' : l ++ [a] = (before ++ c :: after) ++ [d] := by simpa using he
    obtain ⟨rfl, -⟩ := List.append_inj' he' rfl
    exact h before c after rfl b hb

/-- The unmarked vertices. -/
def unmarked (vertices marked : List α) : Nat := (vertices.filter fun a => decide (a ∉ marked)).length

theorem unmarked_mono {vertices marked marked' : List α} (h : marked ⊆ marked') :
    unmarked vertices marked' ≤ unmarked vertices marked := by
  refine (List.monotone_filter_right vertices fun a ha => ?_).length_le
  have : a ∉ marked' := by simpa using ha
  simpa using fun hm => this (h hm)

theorem unmarked_cons {vertices marked : List α} {a : α} (ha : a ∈ vertices) (hm : a ∉ marked) :
    unmarked vertices (a :: marked) < unmarked vertices marked := by
  have hsub : (vertices.filter fun x => decide (x ∉ a :: marked)).Sublist
      (vertices.filter fun x => decide (x ∉ marked)) :=
    List.monotone_filter_right vertices fun x hx => by
      have : x ∉ a :: marked := by simpa using hx
      simpa using fun h => this (List.mem_cons_of_mem _ h)
  refine lt_of_le_of_ne hsub.length_le fun he => ?_
  have hmem : a ∈ vertices.filter fun x => decide (x ∉ marked) :=
    List.mem_filter.mpr ⟨ha, by simpa using hm⟩
  rw [← hsub.eq_of_length he] at hmem
  simp at hmem

/-- The marked vertices are those in the order and those whose visit is not over. -/
structure Visiting (stack : List α) (acc : List α × List α) : Prop where
  marked : ∀ a, a ∈ acc.1 ↔ a ∈ stack ∨ a ∈ acc.2
  apart : ∀ a ∈ stack, a ∉ acc.2
  nodup : acc.2.Nodup

/-- What a visit leads to. -/
structure Visited (succs : α → List α) (stack : List α) (acc acc' : List α × List α) : Prop where
  visiting : Visiting stack acc'
  marks : acc.1 ⊆ acc'.1
  first : Reach.Acyclic (fun a b => b ∈ succs a) → SuccsFirst succs acc.2 → SuccsFirst succs acc'.2

omit [DecidableEq α] in
theorem Visited.trans {succs : α → List α} {stack : List α} {a b c : List α × List α}
    (h : Visited succs stack a b) (h' : Visited succs stack b c) : Visited succs stack a c :=
  ⟨h'.visiting, fun _ hx => h'.marks (h.marks hx), fun hac hf => h'.first hac (h.first hac hf)⟩

section Visit

variable {succs : α → List α} {vertices : List α}

theorem visited_foldl (vertices : List α) {stack : List α} {f : List α × List α → α → List α × List α} {fuel : Nat}
    {P : α → Prop} (hf : ∀ acc b, P b → unmarked vertices acc.1 < fuel → Visiting stack acc →
      Visited succs stack acc (f acc b) ∧ b ∈ (f acc b).1) :
    ∀ (bs : List α) (acc : List α × List α), (∀ b ∈ bs, P b) →
      unmarked vertices acc.1 < fuel → Visiting stack acc →
        Visited succs stack acc (bs.foldl f acc) ∧ ∀ b ∈ bs, b ∈ (bs.foldl f acc).1 := by
  intro bs
  induction bs with
  | nil => exact fun acc _ _ hv => ⟨⟨hv, fun _ h => h, fun _ h => h⟩, by simp⟩
  | cons b bs ih =>
    intro acc hbs hfuel hv
    obtain ⟨hvisited, hb⟩ := hf acc b (hbs b (List.mem_cons_self ..)) hfuel hv
    have hfuel' : unmarked vertices (f acc b).1 < fuel :=
      lt_of_le_of_lt (unmarked_mono hvisited.marks) hfuel
    obtain ⟨hrest, hmem⟩ := ih (f acc b) (fun c hc => hbs c (List.mem_cons_of_mem _ hc)) hfuel'
      hvisited.visiting
    refine ⟨hvisited.trans hrest, fun c hc => ?_⟩
    rcases List.mem_cons.mp hc with rfl | hc
    · exact hrest.marks hb
    · exact hmem c hc

/-- A visit with enough fuel marks its vertex, and finishes every vertex that it marks. -/
theorem visit_spec (hclosed : ∀ a ∈ vertices, ∀ b ∈ succs a, b ∈ vertices) :
    ∀ {fuel : Nat} {stack : List α} {acc : List α × List α} {a : α}, a ∈ vertices →
      unmarked vertices acc.1 < fuel → Visiting stack acc →
      (∀ s ∈ stack, TransGen (fun a b => b ∈ succs a) s a) →
        Visited succs stack acc (visit succs fuel acc a) ∧ a ∈ (visit succs fuel acc a).1 := by
  intro fuel
  induction fuel with
  | zero => intro stack acc a _ hfuel; omega
  | succ fuel ih =>
    intro stack acc a ha hfuel hv hstack
    by_cases hm : a ∈ acc.1
    · rw [visit, if_pos hm]
      exact ⟨⟨hv, fun _ h => h, fun _ h => h⟩, hm⟩
    · rw [visit, if_neg hm]
      have hnew : a ∉ stack ∧ a ∉ acc.2 := by
        have := mt (hv.marked a).mpr hm
        exact not_or.mp this
      -- the vertex is on the stack while its successors are visited
      have hopen : Visiting (a :: stack) (a :: acc.1, acc.2) := by
        refine ⟨fun x => ?_, fun x hx => ?_, hv.nodup⟩
        · rw [List.mem_cons, List.mem_cons, hv.marked, or_assoc]
        · rcases List.mem_cons.mp hx with rfl | hx
          · exact hnew.2
          · exact hv.apart x hx
      have hopenFuel : unmarked vertices (a :: acc.1) < fuel := by
        have := unmarked_cons ha hm
        omega
      have hopenStack : ∀ b ∈ succs a, ∀ s ∈ a :: stack, TransGen (fun a b => b ∈ succs a) s b := by
        intro b hb s hs
        rcases List.mem_cons.mp hs with rfl | hs
        · exact .single hb
        · exact (hstack s hs).tail hb
      obtain ⟨hvisited, hsuccs⟩ := visited_foldl vertices
        (P := fun b => b ∈ succs a) (f := fun acc b => visit succs fuel acc b)
        (fun acc' b hb hfuel' hv' => ih (hclosed a ha b hb) hfuel' hv' (hopenStack b hb))
        (succs a) (a :: acc.1, acc.2) (fun b hb => hb) hopenFuel hopen
      set acc' := (succs a).foldl (fun acc b => visit succs fuel acc b) (a :: acc.1, acc.2)
      have hdone : a ∉ acc'.2 := hvisited.visiting.apart a (List.mem_cons_self ..)
      refine ⟨⟨⟨fun x => ?_, fun x hx => ?_, ?_⟩, fun x hx => ?_, fun hac hfirst => ?_⟩, ?_⟩
      · rw [hvisited.visiting.marked]
        simp only [List.mem_cons, List.mem_append, List.mem_nil_iff, or_false]
        tauto
      · have hne : x ≠ a := fun h => hnew.1 (h ▸ hx)
        simpa [hne] using hvisited.visiting.apart x (List.mem_cons_of_mem _ hx)
      · exact List.nodup_append.mpr ⟨hvisited.visiting.nodup, List.nodup_singleton a,
          fun x hx y hy => by rintro rfl; exact hdone (List.mem_singleton.mp hy ▸ hx)⟩
      · exact hvisited.marks (List.mem_cons_of_mem _ hx)
      · refine (hvisited.first hac hfirst).append fun b hb => ?_
        -- a successor that is still on the stack would close a cycle
        rcases (hvisited.visiting.marked b).mp (hsuccs b hb) with hs | hs
        · exact absurd (hopenStack b hb b hs) (hac b)
        · exact hs
      · exact hvisited.marks (List.mem_cons_self ..)

/-- The order lists every vertex once, and after its successors unless there is a cycle. -/
theorem order_spec (hclosed : ∀ a ∈ vertices, ∀ b ∈ succs a, b ∈ vertices) :
    (∀ a ∈ vertices, a ∈ order succs vertices) ∧ (order succs vertices).Nodup ∧
      (Reach.Acyclic (fun a b => b ∈ succs a) → SuccsFirst succs (order succs vertices)) := by
  have hfuel : unmarked vertices [] < vertices.length + 1 := by
    have := List.length_filter_le (fun a => decide (a ∉ ([] : List α))) vertices
    unfold unmarked
    omega
  have hstart : Visiting [] (([], []) : List α × List α) := ⟨by simp, by simp, List.nodup_nil⟩
  obtain ⟨hvisited, hmem⟩ := visited_foldl vertices (P := fun a => a ∈ vertices)
    (f := fun acc a => visit succs (vertices.length + 1) acc a)
    (fun acc a ha hfuel hv => visit_spec hclosed ha hfuel hv (by simp))
    vertices ([], []) (fun a ha => ha) hfuel hstart
  refine ⟨fun a ha => ?_, hvisited.visiting.nodup, fun hac => ?_⟩
  · rcases (hvisited.visiting.marked a).mp (hmem a ha) with hs | hs
    · exact absurd hs List.not_mem_nil
    · exact hs
  · exact hvisited.first hac fun before a after he => absurd he (by simp)

end Visit

end PostOrder
