import SeamlessWorkflow.Library.PostOrder

/-!
# A search that ends at the first answer

Every vertex has a list of finds: nothing, a vertex to go on to, or an answer. The search takes the
vertices from a stack, marks what it puts there, and ends at the first answer that it comes to. An answer
is one of a vertex that is reached; without an answer no vertex that is reached has one.
-/

namespace Search

open Relation PostOrder

variable {α ε : Type*} [DecidableEq α]

/-- What one look at a vertex finds. -/
inductive Find (α ε : Type*)
  | nothing
  | vertex (a : α)
  | answer (e : ε)

/-- One vertex leads to another one. -/
def Leads (finds : α → List (Find α ε)) (a b : α) : Prop := Find.vertex b ∈ finds a

/-- The finds of a vertex, in turn: an answer, or the marked vertices and the stack after them. -/
def scan : List (Find α ε) → List α → List α → ε ⊕ (List α × List α)
  | [], seen, stack => .inr (seen, stack)
  | .nothing :: finds, seen, stack => scan finds seen stack
  | .vertex b :: finds, seen, stack =>
    if b ∈ seen then scan finds seen stack else scan finds (b :: seen) (b :: stack)
  | .answer e :: _, _, _ => .inl e

/-- The first answer. The first argument bounds the vertices that are taken from the stack. -/
def search (finds : α → List (Find α ε)) : Nat → List α → List α → Option ε
  | 0, _, _ => none
  | _ + 1, _, [] => none
  | fuel + 1, seen, a :: stack =>
    match scan (finds a) seen stack with
    | .inl e => some e
    | .inr (seen, stack) => search finds fuel seen stack

/-- The first answer from a vertex on. -/
def searchFrom (finds : α → List (Find α ε)) (fuel : Nat) (start : α) : Option ε :=
  search finds fuel [start] [start]

/-! ## One vertex -/

theorem scan_inl {e : ε} : ∀ {found : List (Find α ε)} {seen stack : List α},
    scan found seen stack = .inl e → Find.answer e ∈ found := by
  intro found
  induction found with
  | nil => exact fun h => nomatch h
  | cons find found ih =>
    intro seen stack h
    cases find with
    | nothing => exact List.mem_cons_of_mem _ (ih h)
    | vertex b =>
      unfold scan at h
      split at h
      · exact List.mem_cons_of_mem _ (ih h)
      · exact List.mem_cons_of_mem _ (ih h)
    | answer e' =>
      obtain rfl := Sum.inl.inj h
      exact List.mem_cons_self

/-- A scan without an answer: what it has marked anew is on the stack, and everything found is marked. -/
structure Scanned (found : List (Find α ε)) (seen stack seen' stack' new : List α) : Prop where
  marked : seen' = new ++ seen
  stacked : stack' = new ++ stack
  finds : ∀ b ∈ new, Find.vertex b ∈ found
  all : ∀ b, Find.vertex b ∈ found → b ∈ seen'
  answerless : ∀ e, Find.answer e ∉ found

theorem scan_inr (vertices : List α) : ∀ {found : List (Find α ε)} {seen stack seen' stack' : List α},
    scan found seen stack = .inr (seen', stack') → (∀ b, Find.vertex b ∈ found → b ∈ vertices) →
      ∃ new, Scanned found seen stack seen' stack' new ∧
        unmarked vertices seen' + new.length ≤ unmarked vertices seen := by
  intro found
  induction found with
  | nil =>
    intro seen stack seen' stack' h _
    obtain ⟨rfl, rfl⟩ := Prod.mk.inj (Sum.inr.inj h)
    exact ⟨[], ⟨rfl, rfl, fun _ hb => absurd hb List.not_mem_nil, fun _ hb => absurd hb List.not_mem_nil,
      fun _ he => absurd he List.not_mem_nil⟩, le_rfl⟩
  | cons find found ih =>
    intro seen stack seen' stack' h hvertices
    have hrest : ∀ b, Find.vertex b ∈ found → b ∈ vertices := fun b hb =>
      hvertices b (List.mem_cons_of_mem _ hb)
    cases find with
    | nothing =>
      obtain ⟨new, hscan, hcount⟩ := ih h hrest
      refine ⟨new, ⟨hscan.marked, hscan.stacked, fun b hb => List.mem_cons_of_mem _ (hscan.finds b hb),
        fun b hb => ?_, fun e he => ?_⟩, hcount⟩
      · exact hscan.all b ((List.mem_cons.mp hb).resolve_left (fun hn => nomatch hn))
      · exact hscan.answerless e ((List.mem_cons.mp he).resolve_left (fun hn => nomatch hn))
    | vertex c =>
      have hanswerless : ∀ {e : ε}, (∀ e, Find.answer e ∉ found) →
          Find.answer e ∉ Find.vertex c :: found := fun h he =>
        h _ ((List.mem_cons.mp he).resolve_left (fun hn => nomatch hn))
      unfold scan at h
      split at h
      · rename_i hseen
        obtain ⟨new, hscan, hcount⟩ := ih h hrest
        refine ⟨new, ⟨hscan.marked, hscan.stacked, fun b hb => List.mem_cons_of_mem _ (hscan.finds b hb),
          fun b hb => ?_, fun _ => hanswerless hscan.answerless⟩, hcount⟩
        rcases List.mem_cons.mp hb with hb | hb
        · obtain rfl := Find.vertex.inj hb
          rw [hscan.marked]
          exact List.mem_append_right _ hseen
        · exact hscan.all b hb
      · rename_i hseen
        obtain ⟨new, hscan, hcount⟩ := ih h hrest
        have hless : unmarked vertices (c :: seen) < unmarked vertices seen :=
          unmarked_cons (hvertices c List.mem_cons_self) hseen
        refine ⟨new ++ [c], ⟨?_, ?_, fun b hb => ?_, fun b hb => ?_,
          fun _ => hanswerless hscan.answerless⟩, ?_⟩
        · rw [hscan.marked, List.append_assoc]
          rfl
        · rw [hscan.stacked, List.append_assoc]
          rfl
        · rcases List.mem_append.mp hb with hb | hb
          · exact List.mem_cons_of_mem _ (hscan.finds b hb)
          · rw [List.mem_singleton.mp hb]
            exact List.mem_cons_self
        · rcases List.mem_cons.mp hb with hb | hb
          · obtain rfl := Find.vertex.inj hb
            rw [hscan.marked]
            exact List.mem_append_right _ List.mem_cons_self
          · exact hscan.all b hb
        · rw [List.length_append, List.length_singleton]
          omega
    | answer e => exact nomatch h

/-! ## The search -/

variable {finds : α → List (Find α ε)} {start : α}

theorem search_some {e : ε} : ∀ {fuel : Nat} {seen stack : List α},
    (∀ a ∈ stack, ReflTransGen (Leads finds) start a) → search finds fuel seen stack = some e →
      ∃ a, ReflTransGen (Leads finds) start a ∧ Find.answer e ∈ finds a := by
  intro fuel
  induction fuel with
  | zero => exact fun _ h => nomatch h
  | succ fuel ih =>
    intro seen stack hstack h
    cases stack with
    | nil => exact nomatch h
    | cons a stack =>
      have ha := hstack a List.mem_cons_self
      unfold search at h
      cases hscan : scan (finds a) seen stack with
      | inl e' =>
        rw [hscan] at h
        obtain rfl := Option.some.inj h
        exact ⟨a, ha, scan_inl hscan⟩
      | inr next =>
        rw [hscan] at h
        obtain ⟨new, hnew, -⟩ := scan_inr ((finds a).filterMap fun find =>
          match find with
          | .vertex b => some b
          | _ => none) hscan fun b hb => List.mem_filterMap.mpr ⟨_, hb, rfl⟩
        refine ih (fun b hb => ?_) h
        rw [hnew.stacked] at hb
        rcases List.mem_append.mp hb with hb | hb
        · exact ha.tail (hnew.finds b hb)
        · exact hstack b (List.mem_cons_of_mem _ hb)

/-- A vertex that has been taken from the stack: it has no answer, and leads to marked vertices only. -/
def Done (finds : α → List (Find α ε)) (seen : List α) (a : α) : Prop :=
  (∀ e, Find.answer e ∉ finds a) ∧ ∀ b, Leads finds a b → b ∈ seen

theorem search_none {vertices : List α} (hvertices : ∀ a b, Leads finds a b → b ∈ vertices) :
    ∀ {fuel : Nat} {seen stack : List α}, stack.length + unmarked vertices seen ≤ fuel →
      (∀ a ∈ seen, a ∈ stack ∨ Done finds seen a) → search finds fuel seen stack = none →
      ∃ closed : List α, seen ⊆ closed ∧ ∀ a ∈ closed, Done finds closed a := by
  intro fuel
  induction fuel with
  | zero =>
    intro seen stack hfuel hseen _
    obtain rfl : stack = [] := List.eq_nil_of_length_eq_zero (by omega)
    exact ⟨seen, List.Subset.refl _, fun a ha => (hseen a ha).resolve_left List.not_mem_nil⟩
  | succ fuel ih =>
    intro seen stack hfuel hseen h
    cases stack with
    | nil =>
      exact ⟨seen, List.Subset.refl _, fun a ha => (hseen a ha).resolve_left List.not_mem_nil⟩
    | cons a stack =>
      unfold search at h
      cases hscan : scan (finds a) seen stack with
      | inl e =>
        rw [hscan] at h
        cases h
      | inr next =>
        obtain ⟨seen', stack'⟩ := next
        rw [hscan] at h
        obtain ⟨new, hnew, hcount⟩ := scan_inr _ hscan (hvertices a)
        have hsub : seen ⊆ seen' := by
          rw [hnew.marked]
          exact List.subset_append_right _ _
        have hnext : ∀ b ∈ seen', b ∈ stack' ∨ Done finds seen' b := by
          intro b hb
          rw [hnew.marked, List.mem_append] at hb
          rw [hnew.stacked, List.mem_append]
          rcases hb with hb | hb
          · exact .inl (.inl hb)
          · rcases hseen b hb with hb | ⟨hanswerless, hleads⟩
            · rcases List.mem_cons.mp hb with rfl | hb
              · exact .inr ⟨hnew.answerless, hnew.all⟩
              · exact .inl (.inr hb)
            · exact .inr ⟨hanswerless, fun c hc => hsub (hleads c hc)⟩
        rw [List.length_cons] at hfuel
        obtain ⟨closed, hclosed, hdone⟩ :=
          ih (by rw [hnew.stacked, List.length_append]; omega) hnext h
        exact ⟨closed, List.Subset.trans hsub hclosed, hdone⟩

/-- An answer is one of a vertex that is reached. -/
theorem searchFrom_some {fuel : Nat} {e : ε} (h : searchFrom finds fuel start = some e) :
    ∃ a, ReflTransGen (Leads finds) start a ∧ Find.answer e ∈ finds a := by
  refine search_some (fun a ha => ?_) h
  rw [List.mem_singleton.mp ha]

/-- Without an answer, and with enough steps, no vertex that is reached has one. -/
theorem searchFrom_none {vertices : List α} (hvertices : ∀ a b, Leads finds a b → b ∈ vertices)
    {fuel : Nat} (hfuel : vertices.length + 1 ≤ fuel) (h : searchFrom finds fuel start = none) :
    ∀ a, ReflTransGen (Leads finds) start a → ∀ e, Find.answer e ∉ finds a := by
  have hcount : unmarked vertices [start] ≤ vertices.length := List.length_filter_le _ _
  obtain ⟨closed, hstart, hdone⟩ := search_none hvertices
    (by rw [List.length_singleton]; omega) (fun a ha => .inl ha) h
  have hreached : ∀ a, ReflTransGen (Leads finds) start a → a ∈ closed := by
    intro a ha
    induction ha with
    | refl => exact hstart (List.mem_singleton_self _)
    | tail _ hlead ih => exact (hdone _ ih).2 _ hlead
  exact fun a ha => (hdone a (hreached a ha)).1

end Search
