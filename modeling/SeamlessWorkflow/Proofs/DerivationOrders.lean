import SeamlessWorkflow.Library.LocalSteps
import SeamlessWorkflow.Proofs.SettledRuns

/-!
# Derivation does not depend on the order

The derivation of a node writes no other node, and what it writes depends on the nodes upstream of it
and on the run records of its own. So every order in which a node comes after its sources leaves the
same nodes.
-/

namespace SeamlessWorkflow

open Program Relation

/-! ## A node as its derivation leaves it -/

/-- What a demand shows: what the current run has delivered when it is a run for this demand whose
value is not wanted again, and otherwise a run that has delivered nothing. -/
def Ctx.met (env : Substrate) (path : NodePath) (key : DemandKey) (ctx : Ctx) : Outcome :=
  match ((ctx.runtime.currentRuns.lookup path).filter fun record =>
      decide (record.demandKey = some key)).filter fun record =>
        !ctx.forcesValueRun env path record with
  | some record => record.outcome
  | none => { state := .computing }

/-- The outcome of a transformer whose inputs amount to this. -/
def Ctx.outcomeOf (env : Substrate) (path : NodePath) (config : TransformerConfig)
    (verdict : InputVerdict) (ctx : Ctx) : Outcome :=
  match verdict with
  | .ready code pins => ctx.met env path (Ctx.demandKey config code pins)
  | verdict => verdict.outcome

/-- A node as its derivation leaves it. -/
def Ctx.derivedNode (env : Substrate) (path : NodePath) (ctx : Ctx) (node : Node) : Node :=
  match node.body with
  | .cell fields =>
    node.settle env (cellOutcome env ctx.view (ctx.outsideErrors path).sense path fields).value
  | .transformer fields =>
    let reading := (transformerReading env ctx.view path fields).value
    (node.withPins reading).settle env (ctx.outcomeOf env path fields.config reading.verdict)

theorem met_congr {env : Substrate} {path : NodePath} {key : DemandKey} {ctx ctx' : Ctx}
    (hcurrent : ctx'.runtime.currentRuns.lookup path = ctx.runtime.currentRuns.lookup path)
    (hmissing : ctx'.missing = ctx.missing)
    (hfeeds : ctx'.graph.feedsNonScratchHolder env path = ctx.graph.feedsNonScratchHolder env path) :
    ctx'.met env path key = ctx.met env path key := by
  unfold Ctx.met Ctx.forcesValueRun
  rw [hcurrent, hmissing, hfeeds]

/-- After a demand the node shows what the demand shows. -/
theorem shows_met (env : Substrate) (path : NodePath) (node : Node) (key : DemandKey) (ctx : Ctx) :
    ∃ record, Shows env path ctx (ctx.meetDemand env path node key) record ∧
      record.outcome = ctx.met env path key := by
  unfold Ctx.meetDemand
  dsimp only
  set released := ctx.releaseUpstreamHolds path fun record => decide (record.demandKey = some key)
  have hgraph : released.graph = ctx.graph := graph_dropQueued path _ ctx
  have hcurrent : released.runtime.currentRuns = ctx.runtime.currentRuns :=
    (quiet_dropQueued path _ ctx).current
  have hmissing : released.missing = ctx.missing := (keepsFacts_dropQueued path _ ctx).missing
  have hmet : released.met env path key = ctx.met env path key :=
    met_congr (congrArg (AList.lookup path) hcurrent) hmissing (by rw [hgraph])
  rw [← hmet]
  unfold Ctx.met
  cases hshown : ((released.runtime.currentRuns.lookup path).filter fun record =>
      decide (record.demandKey = some key)).filter fun record =>
        !released.forcesValueRun env path record with
  | some record =>
    obtain ⟨hcurrent, -⟩ := Option.filter_eq_some_iff.mp hshown
    obtain ⟨hcurrent, -⟩ := Option.filter_eq_some_iff.mp hcurrent
    exact ⟨record, (shows_publishRun hcurrent).of_graph hgraph, rfl⟩
  | none =>
    have hsuspended : (released.suspend path).graph = ctx.graph :=
      (graph_suspend path released).trans hgraph
    dsimp only
    split
    · exact ⟨_, (shows_reinstate env path _ _).of_graph hsuspended, rfl⟩
    · exact ⟨_, (shows_launch env path node key _).of_graph hsuspended, rfl⟩

/-- What the inputs amount to is not changed by what an evaluation reports. -/
theorem outcomeOf_reported {α : Type} (env : Substrate) (path : NodePath) (config : TransformerConfig)
    (verdict : InputVerdict) (x : Evaluated α) (code : Option Checksum) (reading : TransformerReading)
    (ctx : Ctx) : (((ctx.report env x).noteEdgeCode path code).writePins path reading
      verdict.blocked).outcomeOf env path config verdict = ctx.outcomeOf env path config verdict := by
  set noted := (ctx.report env x).noteEdgeCode path code
  set written := noted.writePins path reading verdict.blocked
  have hruntime : written.runtime = ctx.runtime :=
    ((beside_report env x ctx).trans (beside_noteEdgeCode path code _)).runtime
  have hmissing : written.missing = ctx.missing := by
    have hnoted : noted.missing = (ctx.report env x).missing := by
      unfold noted Ctx.noteEdgeCode
      split <;> rfl
    exact hnoted.trans (keepsFacts_report env x ctx).missing
  have hdurable : written.durable = ctx.durable := by
    simp [written, noted]
  have hagrees : ctx.graph.Agrees (fun _ => False) written.graph :=
    agrees_of_durable hdurable fun _ => False.elim
  unfold Ctx.outcomeOf
  cases verdict with
  | ready code pins =>
    exact met_congr (by rw [hruntime]) hmissing (hagrees.feedsNonScratchHolder env path)
  | failed e => rfl
  | pending reasons => rfl

theorem node?_deriveTransformer (env : Substrate) (path : NodePath) (node : Node)
    (fields : TransformerFields) (ctx : Ctx) (q : NodePath) :
    (ctx.deriveTransformer env path node fields).node? q =
      let reading := (transformerReading env ctx.view path fields).value
      if q = path then (ctx.node? path).map fun node =>
        (node.withPins reading).settle env (ctx.outcomeOf env path fields.config reading.verdict)
      else ctx.node? q := by
  obtain ⟨outcome, hnodes, hverdict⟩ := (transformerDerived env path node fields ctx).outcome
  unfold Ctx.deriveTransformer at hnodes ⊢
  dsimp only at hnodes ⊢
  set evaluated := transformerReading env ctx.view path fields
  set noted := (ctx.report env evaluated).noteEdgeCode path evaluated.value.edgeCode with hnoted
  cases hv : evaluated.value.verdict with
  | failed e =>
    rw [hv] at hverdict hnodes
    obtain rfl := hverdict
    exact hnodes q
  | pending reasons =>
    rw [hv] at hverdict hnodes
    obtain rfl := hverdict
    exact hnodes q
  | ready code pins =>
    obtain ⟨record, hshows, houtcome⟩ := shows_met env path node
      (Ctx.demandKey fields.config code pins) (noted.writePins path evaluated.value [])
    have hmet : (noted.writePins path evaluated.value []).met env path
        (Ctx.demandKey fields.config code pins) =
          ctx.outcomeOf env path fields.config (.ready code pins) :=
      outcomeOf_reported env path fields.config (.ready code pins) evaluated _ evaluated.value ctx
    have hpins : ∀ q, (noted.writePins path evaluated.value []).node? q =
        if q = path then (ctx.node? path).map (Node.withPins evaluated.value) else ctx.node? q := by
      intro q
      have hwritten := node?_writePins path evaluated.value noted q
      rw [hv] at hwritten
      refine hwritten.trans ?_
      rw [hnoted, node?_of_graph (graph_noteEdgeCode path _ _),
        node?_of_graph (graph_noteEdgeCode path _ _), node?_report, node?_report]
    dsimp only
    rw [hshows.node, houtcome, hmet, hpins, if_pos rfl, hpins]
    by_cases hq : q = path
    · rw [if_pos hq, if_pos hq, Option.map_map]
      rfl
    · rw [if_neg hq, if_neg hq, if_neg hq]

theorem node?_deriveNode (env : Substrate) (ctx : Ctx) (path q : NodePath) :
    (ctx.deriveNode env path).node? q =
      if q = path then (ctx.node? path).map (ctx.derivedNode env path) else ctx.node? q := by
  rw [show ctx.derivedNode env path = (ctx.noteDerivation path).derivedNode env path from rfl,
    show ctx.node? path = (ctx.noteDerivation path).node? path from rfl,
    show ctx.node? q = (ctx.noteDerivation path).node? q from rfl]
  unfold Ctx.deriveNode
  dsimp only
  generalize ctx.noteDerivation path = ctx
  cases hnode : ctx.node? path with
  | none =>
    by_cases hq : q = path
    · rw [if_pos hq, hq]
      exact hnode
    · rw [if_neg hq]
  | some node =>
    dsimp only [Option.map_some]
    unfold Ctx.derivedNode
    cases hbody : node.body with
    | cell fields =>
      dsimp only
      rw [node?_deriveCell, hnode]
      rfl
    | transformer fields =>
      dsimp only
      rw [node?_deriveTransformer, hnode]
      rfl

/-! ## The steps are local -/

/-- Two states in which a derivation may be at work: the same design, edges, facts, buffers and
attachments. -/
structure Ctx.Alike (ctx ctx' : Ctx) : Prop where
  agrees : ctx.graph.Agrees (fun _ => False) ctx'.graph
  facts : ctx'.facts = ctx.facts
  missing : ctx'.missing = ctx.missing
  sessions : ctx'.mountSessions = ctx.mountSessions

/-- What the derivation of a node reads of its own. -/
def Ctx.own (ctx : Ctx) (path : NodePath) : Option Node × Option RunRecord :=
  (ctx.node? path, ctx.runtime.currentRuns.lookup path)

theorem derivedNode_of_alike {env : Substrate} {ctx ctx' : Ctx} {path : NodePath}
    {seen : NodePath → Prop} (h : ctx.Alike ctx') (hsees : ctx.graph.Sees seen path)
    (hseen : ∀ q, seen q → ctx'.node? q = ctx.node? q) (hown : ctx'.own path = ctx.own path)
    (node : Node) : ctx'.derivedNode env path node =
      ctx.derivedNode env path node := by
  obtain ⟨hsame, hcurrent⟩ := Prod.mk.inj hown
  have hagrees : ctx.view.graph.Agrees seen ctx'.view.graph :=
    ⟨h.agrees.design, h.agrees.edges, fun q hq => congrArg (Option.map Node.shown) (hseen q hq)⟩
  have hfacts : ∀ key, ctx'.view.facts.lookup key = ctx.view.facts.lookup key := fun key =>
    congrArg (fun facts => AList.lookup key facts) h.facts
  have herrors : ctx'.outsideErrors path = ctx.outsideErrors path := by
    unfold Ctx.outsideErrors Ctx.sessionsFor
    rw [h.sessions, hsame]
  unfold Ctx.derivedNode
  rw [herrors]
  cases hbody : node.body with
  | cell fields =>
    dsimp only
    rw [(stays_cellOutcome env hagrees hsees _ fields).eq fun key _ => hfacts key]
  | transformer fields =>
    dsimp only
    rw [(stays_transformerReading env hagrees hsees fields).eq fun key _ => hfacts key]
    congr 1
    unfold Ctx.outcomeOf
    split
    · exact met_congr hcurrent h.missing (h.agrees.feedsNonScratchHolder env path)
    · rfl

namespace Ctx.Alike

variable {a b c : Ctx}

theorem refl (ctx : Ctx) : ctx.Alike ctx :=
  ⟨⟨fun _ => rfl, rfl, fun _ _ => rfl⟩, rfl, rfl, rfl⟩

theorem symm (h : a.Alike b) : b.Alike a :=
  ⟨⟨fun q => (h.agrees.design q).symm, h.agrees.edges.symm, fun _ => False.elim⟩, h.facts.symm,
    h.missing.symm, h.sessions.symm⟩

theorem trans (h : a.Alike b) (h' : b.Alike c) : a.Alike c :=
  ⟨⟨fun q => (h'.agrees.design q).trans (h.agrees.design q), h'.agrees.edges.trans h.agrees.edges,
    fun _ => False.elim⟩, h'.facts.trans h.facts, h'.missing.trans h.missing,
    h'.sessions.trans h.sessions⟩

theorem deriveNode (env : Substrate) (ctx : Ctx) (path : NodePath) :
    ctx.Alike (ctx.deriveNode env path) := by
  have hdurable := Ctx.durable_deriveNode env ctx path
  have hkept := keepsFacts_deriveNode env ctx path
  exact ⟨agrees_of_durable hdurable fun _ => False.elim, hkept.facts, hkept.missing,
    congrArg Durable.mountSessions hdurable⟩

end Ctx.Alike

/-- The derivation of a node is a local step. -/
theorem localStep_deriveNode (env : Substrate) (start : Ctx) :
    PostOrder.LocalStep start.graph.sources (fun ctx path => ctx.deriveNode env path) Ctx.node?
      Ctx.own (fun ctx ctx' => start.Alike ctx ∧ start.Alike ctx') where
  shown_other ctx _ _ hq := node?_deriveNode_of_ne env ctx hq
  own_other ctx path q hq := by
    unfold Ctx.own
    rw [node?_deriveNode_of_ne env ctx hq, currentElsewhere_deriveNode env ctx path q hq]
  like_step ctx _ path h := ⟨h.1.trans (.deriveNode env ctx path), h.2⟩
  like_symm _ _ h := ⟨h.2, h.1⟩
  reads ctx ctx' path seen h hown hsources hclosed hseen := by
    have hsees : ctx.graph.Sees seen path := by
      refine ⟨fun q hq => hsources q ?_, fun q hq r hr => hclosed q hq r ?_⟩
      · rwa [h.1.agrees.sources] at hq
      · rwa [h.1.agrees.sources] at hr
    obtain ⟨hsame, -⟩ := Prod.mk.inj hown
    rw [node?_deriveNode, if_pos rfl, node?_deriveNode, if_pos rfl, ← hsame]
    refine Option.map_congr fun node _ => ?_
    exact (derivedNode_of_alike (h.1.symm.trans h.2) hsees (fun q hq => (hseen q hq).symm) hown.symm
      node).symm

/-! ## Every order -/

/-- The same nodes, edges, facts, buffers, attachments and current runs, in whatever order they have
come about. -/
structure Ctx.SameInputs (ctx ctx' : Ctx) : Prop where
  node : ∀ path, ctx'.node? path = ctx.node? path
  edges : ctx'.graph.edges = ctx.graph.edges
  facts : ctx'.facts = ctx.facts
  missing : ctx'.missing = ctx.missing
  sessions : ctx'.mountSessions = ctx.mountSessions
  current : ∀ path, ctx'.runtime.currentRuns.lookup path = ctx.runtime.currentRuns.lookup path

/-- The nodes that `_derive_graph` leaves are those that any other order leaves in which every node
comes once, and after its sources. No order raises when no edge ends at a transformer itself. -/
theorem deriveGraph_anyOrder {env : Substrate} {ctx ctx' : Ctx} {sorted order : List NodePath}
    (hsame : ctx.SameInputs ctx') (hsorted : sortPaths ctx.graph.nodes.keys = some sorted)
    (hacyclic : Reach.Acyclic fun a b => b ∈ ctx.graph.sources a) (hnodup : order.Nodup)
    (hfirst : PostOrder.SuccsFirst ctx.graph.sources order)
    (hall : ∀ path ∈ ctx.graph.nodes, path ∈ order) :
    (∀ path, (ctx'.deriveNodes env order).node? path = (ctx.deriveGraph env sorted).node? path) ∧
      (ctx.graph.EndsAtParts →
        Ctx.graphRaises env sorted ctx = none ∧ Ctx.nodesRaise env order ctx' = none) := by
  obtain ⟨hnodup', hfirst'⟩ := derivationOrder_spec hsorted hacyclic
  have hagrees : ctx.graph.Agrees (fun _ => False) ctx'.graph :=
    ⟨fun q => congrArg (Option.map Node.design) (hsame.node q), hsame.edges, fun _ => False.elim⟩
  have hlike : ctx.Alike ctx' := ⟨hagrees, hsame.facts, hsame.missing, hsame.sessions⟩
  have hown : ∀ q, ctx.own q = ctx'.own q := fun q =>
    congrArg₂ Prod.mk (hsame.node q).symm (hsame.current q).symm
  refine ⟨fun path => ?_, fun hparts =>
    ⟨nodesRaise_eq_none hparts _, nodesRaise_eq_none (hparts.of_agrees hagrees) _⟩⟩
  rw [node?_deriveGraph]
  by_cases hmem : path ∈ ctx.graph.nodes
  · exact ((localStep_deriveNode env ctx).foldl_confluent ⟨.refl ctx, hlike⟩ hown hnodup' hfirst'
      hnodup hfirst path (mem_derivationOrder hsorted hmem) (hall path hmem)).symm
  · have hnone : ∀ (paths : List NodePath) (c : Ctx), c.node? path = none →
        (c.deriveNodes env paths).node? path = none := by
      intro paths c hc
      have hdurable := congrArg (fun d => Durable.node d path) (@durable_deriveNodes env paths c)
      rw [← Option.map_eq_none_iff (f := Node.durable)]
      exact hdurable.trans (congrArg (Option.map Node.durable) hc)
    have hnode : ctx.node? path = none := AList.lookup_eq_none.mpr hmem
    exact (hnone order ctx' ((hsame.node path).trans hnode)).trans (hnone _ ctx hnode).symm

/-- A superseded run of a copied cell, and a job that nothing asks for any more. -/
def Ctx.withHistory (ctx : Ctx) : Ctx :=
  { ctx with
    jobs := .celljoin ⟨1⟩ .mixed false :: ctx.jobs
    runtime := { ctx.runtime with
      generation := ctx.runtime.generation + 1
      supersededRuns := ctx.runtime.supersededRuns.insert [.key "t", .key "y"]
        [{ nodePath := [.key "t", .key "y"], generation := ctx.runtime.generation + 1 }] } }

theorem Ctx.sameInputs_withHistory (ctx : Ctx) : ctx.SameInputs ctx.withHistory :=
  ⟨fun _ => rfl, rfl, rfl, rfl, rfl, fun _ => rfl⟩

/-- The nodes of the copied namespace in another order, from a Context with another history. -/
theorem deriveGraph_anyOrder_copyOnce :
    let ctx := ((System.run .fixed copyOnce {}).get copyOnce_runs).ctx
    let vertices : List NodePath :=
      [[.key "t", .key "y"], [.key "s", .key "y"], [.key "t", .key "x"], [.key "s", .key "x"]]
    let sorted : List NodePath :=
      [[.key "s", .key "x"], [.key "s", .key "y"], [.key "t", .key "x"], [.key "t", .key "y"]]
    (∀ path, (ctx.withHistory.deriveNodes .fixed
      (PostOrder.order ctx.graph.sources vertices)).node? path =
        (ctx.deriveGraph .fixed sorted).node? path) ∧
      (ctx.graph.EndsAtParts → Ctx.graphRaises .fixed sorted ctx = none ∧ Ctx.nodesRaise .fixed
        (PostOrder.order ctx.graph.sources vertices) ctx.withHistory = none) := by
  intro ctx vertices sorted
  have hacyclic : Reach.Acyclic fun a b => b ∈ ctx.graph.sources a :=
    ContextGraph.acyclic_sources (ContextGraph.wellFormed_of_wellWired
      (reachable_wellWired (Reachable.of_run .start (by decide +kernel) copyOnce_runs))).acyclic
  have hspec := @PostOrder.order_spec _ _ ctx.graph.sources vertices (by decide +kernel)
  have hkeys : ∀ path ∈ ctx.graph.nodes.keys, path ∈ vertices := by decide +kernel
  exact deriveGraph_anyOrder ctx.sameInputs_withHistory (by decide +kernel) hacyclic hspec.2.1
    (hspec.2.2 hacyclic) fun path hpath => hspec.1 path (hkeys path (AList.mem_keys.mp hpath))

end SeamlessWorkflow
