import SeamlessWorkflow.Proofs.SettledNodes
import SeamlessWorkflow.Proofs.WiringInvariant

/-!
# The derivation of every reachable Context

Every move either leaves alone what a derivation reads, or leaves the graph to be derived again, or
derives it. So whenever a reachable Context is settled, every node of it is what derivation makes of
the Context as it stands.
-/

namespace SeamlessWorkflow

open Program Relation Wiring

/-- A node depends on its sources. -/
theorem ContextGraph.feeds_of_mem_sources {g : ContextGraph} {path source : NodePath}
    (h : source ∈ g.sources path) : g.Feeds source path := by
  obtain ⟨entry, hentry, hr⟩ := List.mem_filterMap.mp h
  obtain ⟨r, hread, rfl⟩ := Option.map_eq_some_iff.mp hr
  obtain ⟨edge, hedge, hown, htarget⟩ := ContextGraph.mem_incomingFor hentry
  rw [hown, ContextGraph.ownLink_source] at hread
  exact ⟨edge, hedge, ContextGraph.edgeNodes_eq_some.mpr ⟨⟨r.2, hread⟩, entry.1, htarget⟩⟩

theorem ContextGraph.acyclic_sources {g : ContextGraph} (h : Reach.Acyclic g.Feeds) :
    Reach.Acyclic fun path source => source ∈ g.sources path := by
  intro path hcycle
  have hback : TransGen (Function.swap g.Feeds) path path :=
    TransGen.mono (fun _ _ hab => ContextGraph.feeds_of_mem_sources hab) _ _ hcycle
  exact h path (transGen_swap.mp hback)

/-- The wiring is well formed, and a settled Context is derived. -/
structure Settling (env : Substrate) (ctx : Ctx) : Prop where
  wired : ctx.graph.wiring.WellWired
  derived : ctx.settled = true → ctx.AllDerived env

theorem updateRun_unsettles (path : NodePath) (generation : Nat) (f : RunRecord → RunRecord)
    (ctx : Ctx) : ctx.updateRun path generation f = ctx ∨
      (ctx.updateRun path generation f).settled = false := by
  unfold Ctx.updateRun
  split
  · exact Or.inr rfl
  · split
    · exact Or.inl rfl
    · exact Or.inr rfl

section Moves

variable {env : Substrate} {lim : Limits} {ctx ctx' : Ctx}

/-- What has to be derived again is settled in no way. -/
theorem Settling.rewires {outline : NodePath → Option Outline} {edges : List Edge}
    (hw : ctx'.graph.wiring.WellWired) (h : Becomes ctx' outline edges) : Settling env ctx' :=
  ⟨hw, fun hs => absurd (h.unsettled.symm.trans hs) Bool.false_ne_true⟩

/-- One move keeps the wiring and what is derived. -/
theorem Move.settling (h : Move env lim ctx ctx') (hstray : ¬ lim.stray)
    (hcopies : ∀ s t, lim.copies ctx s t →
      Settling env (finalState (copySubcontext env s t ctx)))
    (hloads : ∀ g, lim.loads g → g.wiring.WellWired) (hs : Settling env ctx) :
    Settling env ctx' := by
  have hwired : ctx'.graph.wiring.WellWired :=
    h.wellWired hstray (fun s t hc => (hcopies s t hc).wired) hloads hs.wired
  cases h with
  | quiet h => exact ⟨hwired, fun hsettled => (hs.derived (h.settled hsettled)).quiet h hsettled⟩
  | derive hsorted _ =>
    have hacyclic := ContextGraph.acyclic_sources
      (ContextGraph.wellFormed_of_wellWired hs.wired).acyclic
    rw [← graph_beginDerivation ctx] at hsorted hacyclic
    exact ⟨hwired, fun _ _ _ hnode => derived_deriveGraph hsorted hacyclic hnode⟩
  | copy hc => exact hcopies _ _ hc
  | deliver hd =>
    refine ⟨hwired, fun hsettled => ?_⟩
    rcases updateRun_unsettles _ _ _ ctx with he | he
    · rw [he] at hsettled ⊢
      exact hs.derived hsettled
    · exact absurd (he.symm.trans hsettled) Bool.false_ne_true
  | raise _ => exact ⟨hwired, fun hsettled => absurd hsettled Bool.false_ne_true⟩
  | edit h => exact .rewires hwired h.toBecomes
  | drop keep h => exact .rewires hwired h.toBecomes
  | connect _ _ h => exact .rewires hwired h.toBecomes
  | create _ _ h => exact .rewires hwired h.toBecomes
  | remove _ _ h => exact .rewires hwired h.toBecomes
  | recast _ _ h => exact .rewires hwired h.toBecomes
  | retype _ _ h => exact .rewires hwired h.toBecomes
  | load _ h _ _ => exact .rewires hwired h

/-- A namespace copy leaves the graph to be derived again before it derives it. -/
theorem settling_copy {s t : NodePath} (hapart : ctx.graph.CopiesApart s t) (hs : Settling env ctx) :
    Settling env (finalState (copySubcontext env s t ctx)) := by
  obtain ⟨mid, hmid, hmoves⟩ := copySubcontext_cases env (.message fun _ _ _ => False) s t ctx
  have hmid : Settling env mid := by
    rcases hmid with h | h
    · refine .rewires ?_ h.toBecomes
      rw [h.wiring, ← Ctx.wiring_eq]
      exact hs.wired
    · exact .rewires (hs.wired.copy (h.isCopy hapart.free) hapart.copyable hapart.named)
        h.rewires.toBecomes
  generalize finalState (copySubcontext env s t ctx) = final at hmoves
  induction hmoves with
  | refl => exact hmid
  | tail _ hmove ih => exact hmove.settling id (fun _ _ => False.elim) (fun _ => False.elim) ih

end Moves

theorem reachable_settling {env : Substrate} {sys : System} (h : Reachable env KeepsWiring sys) :
    Settling env sys.ctx := by
  refine h.ctx_invariant (I := Settling env) ⟨wellWired_empty, fun _ path node hnode => ?_⟩
    (fun ctx now missing hs => ?_) fun sys event now missing ctx hc hs hmoves => ?_
  · cases hnode
  · exact ⟨hs.wired, fun hsettled => (hs.derived hsettled).quiet (.of_eq rfl rfl rfl rfl rfl) hsettled⟩
  · induction hmoves with
    | refl => exact hs
    | tail _ hmove ih =>
      exact hmove.settling (hc.not_stray now missing)
        (fun s t hcopy => settling_copy (hc.copies hcopy) ih) (fun g => hc.loads) ih

end SeamlessWorkflow
