import SeamlessWorkflow.Library.PostOrder

/-!
# Steps along the dependencies

A state is worked on vertex by vertex. The step of a vertex changes no other vertex, and it reads what
the vertex has of its own and what the vertices show on which it depends. Then what the vertices show in
the end is the same for every order in which a vertex comes after its successors.
-/

namespace PostOrder

variable {α σ β γ : Type*}

/-- The step of a vertex is local: `shown` is what others read of a vertex, `own` is what its own step
reads, and states that are alike give the steps the same surroundings. -/
structure LocalStep (succs : α → List α) (step : σ → α → σ) (shown : σ → α → β) (own : σ → α → γ)
    (Like : σ → σ → Prop) : Prop where
  shown_other : ∀ s a q, q ≠ a → shown (step s a) q = shown s q
  own_other : ∀ s a q, q ≠ a → own (step s a) q = own s q
  like_step : ∀ s s' a, Like s s' → Like (step s a) s'
  like_symm : ∀ s s', Like s s' → Like s' s
  reads : ∀ s s' a (seen : α → Prop), Like s s' → own s a = own s' a → (∀ b ∈ succs a, seen b) →
    (∀ b, seen b → ∀ c ∈ succs b, seen c) → (∀ b, seen b → shown s b = shown s' b) →
    shown (step s a) a = shown (step s' a) a

namespace LocalStep

variable {succs : α → List α} {step : σ → α → σ} {shown : σ → α → β} {own : σ → α → γ}
  {Like : σ → σ → Prop} (h : LocalStep succs step shown own Like)

include h

/-- A vertex stays as it is while others take their steps. -/
theorem foldl_of_not_mem {l : List α} {q : α} (hq : q ∉ l) (s : σ) :
    shown (l.foldl step s) q = shown s q ∧ own (l.foldl step s) q = own s q := by
  induction l generalizing s with
  | nil => exact ⟨rfl, rfl⟩
  | cons a l ih =>
    rw [List.mem_cons, not_or] at hq
    obtain ⟨hshown, hown⟩ := ih hq.2 (step s a)
    exact ⟨hshown.trans (h.shown_other s a q hq.1), hown.trans (h.own_other s a q hq.1)⟩

theorem like_foldl (l : List α) {s s' : σ} (hlike : Like s s') : Like (l.foldl step s) s' := by
  induction l generalizing s with
  | nil => exact hlike
  | cons a l ih => exact ih (h.like_step s s' a hlike)

/-- After the steps a vertex shows what its own step has left. -/
theorem shown_foldl {before after : List α} {a : α} (ha : a ∉ after) (s : σ) :
    shown ((before ++ a :: after).foldl step s) a = shown (step (before.foldl step s) a) a := by
  rw [List.foldl_append, List.foldl_cons]
  exact (h.foldl_of_not_mem ha _).1

/-- Two orders in which every vertex comes after its successors show the same. -/
theorem foldl_confluent {l l' : List α} {s s' : σ} (hlike : Like s s')
    (hown : ∀ a, own s a = own s' a) (hnodup : l.Nodup) (hfirst : SuccsFirst succs l)
    (hnodup' : l'.Nodup) (hfirst' : SuccsFirst succs l') :
    ∀ a ∈ l, a ∈ l' → shown (l.foldl step s) a = shown (l'.foldl step s') a := by
  -- by induction on the number of vertices that stand before the vertex in the first order
  suffices hall : ∀ n before a after, l = before ++ a :: after → before.length = n → a ∈ l' →
      shown (l.foldl step s) a = shown (l'.foldl step s') a by
    intro a ha ha'
    obtain ⟨before, after, he⟩ := List.append_of_mem ha
    exact hall _ before a after he rfl ha'
  intro n
  induction n using Nat.strong_induction_on with
  | _ n ih =>
    intro before a after he hn ha'
    obtain ⟨before', after', he'⟩ := List.append_of_mem ha'
    have hapart := List.nodup_append.mp (he ▸ hnodup)
    have hapart' := List.nodup_append.mp (he' ▸ hnodup')
    have hafter : a ∉ after := (List.nodup_cons.mp hapart.2.1).1
    have hafter' : a ∉ after' := (List.nodup_cons.mp hapart'.2.1).1
    rw [he, he', h.shown_foldl hafter, h.shown_foldl hafter']
    have hbefore : a ∉ before := fun hm => hapart.2.2 a hm a List.mem_cons_self rfl
    have hbefore' : a ∉ before' := fun hm => hapart'.2.2 a hm a List.mem_cons_self rfl
    refine h.reads _ _ a (fun b => b ∈ before ∧ b ∈ before') ?_ ?_ (fun b hb => ?_)
      (fun b hb c hc => ?_) fun b hb => ?_
    · exact h.like_foldl _ (h.like_symm _ _ (h.like_foldl _ (h.like_symm _ _ hlike)))
    · rw [(h.foldl_of_not_mem hbefore s).2, (h.foldl_of_not_mem hbefore' s').2]
      exact hown a
    · exact ⟨hfirst before a after he b hb, hfirst' before' a after' he' b hb⟩
    · obtain ⟨first, rest, rfl⟩ := List.append_of_mem hb.1
      obtain ⟨first', rest', rfl⟩ := List.append_of_mem hb.2
      refine ⟨List.mem_append_left _ (hfirst first b (rest ++ a :: after) ?_ c hc),
        List.mem_append_left _ (hfirst' first' b (rest' ++ a :: after') ?_ c hc)⟩
      · rw [he, List.append_assoc, List.cons_append]
      · rw [he', List.append_assoc, List.cons_append]
    · -- what stands before shows what it shows in the end
      have hrest : b ∉ a :: after := fun hm => hapart.2.2 b hb.1 b hm rfl
      have hrest' : b ∉ a :: after' := fun hm => hapart'.2.2 b hb.2 b hm rfl
      obtain ⟨first, rest, hsplit⟩ := List.append_of_mem hb.1
      have hend : shown (l.foldl step s) b = shown (l'.foldl step s') b := by
        refine ih first.length ?_ first b (rest ++ a :: after) ?_ rfl ?_
        · rw [← hn, hsplit, List.length_append, List.length_cons]
          omega
        · rw [he, hsplit, List.append_assoc, List.cons_append]
        · rw [he']
          exact List.mem_append_left _ hb.2
      rw [he, he', List.foldl_append, List.foldl_append] at hend
      rwa [(h.foldl_of_not_mem hrest _).1, (h.foldl_of_not_mem hrest' _).1] at hend

end LocalStep

end PostOrder
