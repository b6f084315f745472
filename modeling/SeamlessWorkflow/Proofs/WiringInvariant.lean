import SeamlessWorkflow.Proofs.LoadProofs

/-!
# The wiring of every reachable Context

Every move keeps the wiring well formed, except for namespace copies onto a place that is in use,
code wiring into a node that is not there, and documents that connect a cell both as a whole and at
a sub-path: the code checks none of these.
-/

namespace SeamlessWorkflow

open Program Relation Wiring

/-- The nodes at or below `s` are copied to free paths, no edge ends at or below one of them, no
node that stands below one of them lies on the way of a copied edge, and the edges inside `s` have
their ends in nodes of `s`. -/
@[mk_iff]
structure ContextGraph.CopiesApart (g : ContextGraph) (s t : NodePath) : Prop where
  named : t ≠ []
  free : ∀ p ∈ g.nodes.keys, s <+: p → t ++ p.drop s.length ∉ g.nodes
  untargeted : ∀ p ∈ g.nodes.keys, s <+: p → ∀ edge ∈ g.edges,
    ¬ t ++ p.drop s.length <+: edge.target
  clear : ∀ p ∈ g.nodes.keys, s <+: p → ∀ m ∈ g.nodes.keys, t ++ p.drop s.length <+: m →
    ∀ edge ∈ g.edgesBelow s, ¬ m <+: t ++ edge.source.drop s.length ∧
      ¬ m <+: t ++ edge.target.drop s.length
  closed : ∀ edge ∈ g.edgesBelow s, (∀ r ∈ g.resolveExisting edge.source, s <+: r.1) ∧
    ∀ r ∈ g.resolveExisting edge.target, s <+: r.1

instance (g : ContextGraph) (s t : NodePath) : Decidable (g.CopiesApart s t) :=
  decidable_of_iff' _ (g.copiesApart_iff s t)

theorem mem_edgesBelow {g : ContextGraph} {s : NodePath} {edge : Edge} :
    edge ∈ g.edgesBelow s ↔ edge ∈ g.edges ∧ s <+: edge.source ∧ s <+: edge.target := by
  unfold ContextGraph.edgesBelow
  rw [List.mem_filter, Bool.and_eq_true, below_iff, below_iff]

theorem inside_wire {s : NodePath} {edge : Edge} :
    Inside s edge.wire ↔ s <+: edge.source ∧ s <+: edge.target := by
  unfold Inside
  rw [Edge.wire_source, Edge.wire_target]

/-- A copied path is the moved path of a node. -/
theorem copied_iff {g : ContextGraph} {s t q : NodePath} :
    g.wiring.Copied s t q ↔ ∃ p ∈ g.nodes, s <+: p ∧ moved s t p = q := by
  constructor
  · rintro ⟨⟨y, rfl⟩, hstands⟩
    rw [origin_append, ContextGraph.stands_wiring] at hstands
    exact ⟨s ++ y, of_decide_eq_true hstands, List.prefix_append s y, moved_append s t y⟩
  · rintro ⟨p, hp, hs, rfl⟩
    refine copied_moved ?_ hs
    rw [ContextGraph.stands_wiring]
    exact decide_eq_true hp

theorem ContextGraph.CopiesApart.copyable {g : ContextGraph} {s t : NodePath}
    (h : g.CopiesApart s t) : g.wiring.Copyable s t where
  free q hq := by
    obtain ⟨p, hp, hs, rfl⟩ := copied_iff.mp hq
    rw [ContextGraph.stands_wiring]
    exact decide_eq_false (h.free p hp hs)
  untargeted q hq wire hw := by
    obtain ⟨p, hp, hs, rfl⟩ := copied_iff.mp hq
    obtain ⟨edge, hedge, rfl⟩ := List.mem_map.mp hw
    rw [Edge.wire_target]
    exact h.untargeted p hp hs edge hedge
  clear q hq m hm hqm wire hw hin := by
    obtain ⟨p, hp, hs, rfl⟩ := copied_iff.mp hq
    obtain ⟨edge, hedge, rfl⟩ := List.mem_map.mp hw
    rw [ContextGraph.stands_wiring, decide_eq_true_iff] at hm
    rw [Edge.wire_source, Edge.wire_target]
    exact h.clear p hp hs m hm hqm edge
      (mem_edgesBelow.mpr ⟨hedge, inside_wire.mp hin⟩)
  closed wire hw hin := by
    obtain ⟨edge, hedge, rfl⟩ := List.mem_map.mp hw
    obtain ⟨hs, ht⟩ := h.closed edge (mem_edgesBelow.mpr ⟨hedge, inside_wire.mp hin⟩)
    rw [Edge.wire_source, Edge.wire_target]
    exact ⟨fun n l hr => hs (n, l) (ContextGraph.resolveExisting_eq_some.mpr hr),
      fun n l hr => ht (n, l) (ContextGraph.resolveExisting_eq_some.mpr hr)⟩

theorem node_wiring {ctx : Ctx} (path : NodePath) :
    ctx.graph.wiring.node path = (ctx.outline path).map Outline.isCell := by
  rw [Ctx.wiring_eq]
  rfl

theorem isCell_of_kind {a b : Option Outline} (h : a.map Outline.kind = b.map Outline.kind) :
    a.map Outline.isCell = b.map Outline.isCell := by
  have := congrArg (Option.map Prod.fst) h
  rwa [Option.map_map, Option.map_map] at this

theorem isCell_of_lookup {a : Option Outline} {b : Option Node}
    (h : a.map Outline.kind = b.map fun node => node.outline.kind) :
    a.map Outline.isCell = b.map Node.isCell := by
  have := congrArg (Option.map Prod.fst) h
  rwa [Option.map_map, Option.map_map] at this

/-- A namespace copy is a copy of the wiring. -/
theorem Copying.isCopy {s t : NodePath} {ctx ctx' : Ctx} (h : Copying s t ctx ctx')
    (hfree : ∀ p ∈ ctx.graph.nodes, s <+: p → moved s t p ∉ ctx.graph.nodes) :
    ctx.graph.wiring.IsCopy ctx'.graph.wiring s t where
  copied q hq := by
    obtain ⟨p, hp, hs, rfl⟩ := copied_iff.mp hq
    rw [node_wiring, node_wiring, origin_moved hs]
    exact isCell_of_kind (h.copied hfree p hp hs)
  other q hq := by
    rw [node_wiring, node_wiring, h.other q fun p hp hs hpq => hq (copied_iff.mpr ⟨p, hp, hs, hpq⟩)]
  wires := by
    obtain ⟨inside, new, hsub, hnew, hedges⟩ := h.edges
    -- the copied end points are those of the original, moved
    let copyEnd : Terminal Component → Terminal Component :=
      fun e => (copyPlace s t ⟨e.node, e.inner⟩).terminal
    refine ⟨fun wire => ⟨copyEnd wire.source, copyEnd wire.target⟩, inside.map Edge.wire, ?_, ?_,
      fun wire hw => ?_⟩
    · show ctx'.graph.edges.map Edge.wire = ctx.graph.edges.map Edge.wire ++ _
      rw [hedges, List.map_append, List.map_map]
      refine congrArg _ (map_eq_of_related hnew fun edge copied hc => ?_)
      unfold Edge.wire
      rw [hc.source, hc.target]
      rfl
    · exact (hsub.trans List.filter_sublist).map _
    · obtain ⟨edge, hedge, rfl⟩ := List.mem_map.mp hw
      have hin := (mem_edgesBelow.mp (hsub.subset hedge)).2
      refine ⟨inside_wire.mpr hin, ?_, ?_⟩
      · exact copyPlace_flat s t edge.sourcePlace
      · exact copyPlace_flat s t edge.targetPlace

section Moves

variable {env : Substrate} {lim : Limits}

/-- A move keeps the wiring well formed, when the copies and the loads of its limits do. -/
theorem Move.wellWired (hstray : ¬ lim.stray) {ctx ctx' : Ctx} (h : Move env lim ctx ctx')
    (hcopies : ∀ s t, lim.copies ctx s t →
      (finalState (copySubcontext env s t ctx)).graph.wiring.WellWired)
    (hloads : ∀ g, lim.loads g → g.wiring.WellWired) (hw : ctx.graph.wiring.WellWired) :
    ctx'.graph.wiring.WellWired := by
  have same : ∀ {next : Ctx}, next.outline = ctx.outline → next.graph.edges = ctx.graph.edges →
      next.graph.wiring.WellWired := fun ho he => by
    rwa [Ctx.wiring_eq, ho, he, ← Ctx.wiring_eq]
  cases h with
  | quiet h => exact same h.outline h.edges
  | edit h => exact same h.outline h.edges
  | derive hs hr => exact same (outline_deriveGraph env _ ctx) (edges_deriveGraph env _ ctx)
  | raise hr => exact same (outline_raised hr) (edges_raised hr)
  | recast hn ht h =>
    rw [h.wiring, wiringOf_recast hn, ← Ctx.wiring_eq]
    exact hw
  | drop keep h =>
    rw [h.wiring]
    exact wellWired_drop hw keep
  | connect hg hr h =>
    rw [h.wiring]
    obtain ⟨s, t, l, hc⟩ := hg.connectable hstray
    have := hw.connect hc
    rw [Ctx.wiring_eq] at this
    unfold wiringOf Wiring.connect at *
    rwa [List.map_append]
  | create hp hc h =>
    rw [h.wiring]
    exact wellWired_create hw hp
  | remove path hr h =>
    rw [h.wiring]
    exact wellWired_remove hw path
  | retype hn ht h =>
    rw [h.wiring]
    exact wellWired_retype hw hn _
  | copy hc => exact hcopies _ _ hc
  | load hl h hkind _ =>
    have := hloads _ hl
    rw [h.wiring]
    refine cast (congrArg Wiring.WellWired ?_) this
    unfold wiringOf ContextGraph.wiring
    exact Wiring.mk.injEq .. |>.mpr ⟨funext fun path => (isCell_of_lookup (hkind path)).symm, rfl⟩
  | deliver hd => exact same (outline_updateRun _ _ _ ctx) (edges_updateRun _ _ _ ctx)

/-- A message about a run keeps the wiring well formed. -/
theorem message_wellWired {delivers : NodePath → Nat → (RunRecord → RunRecord) → Prop} {ctx ctx' : Ctx}
    (h : Moves env (.message delivers) ctx ctx') (hw : ctx.graph.wiring.WellWired) :
    ctx'.graph.wiring.WellWired := by
  induction h with
  | refl => exact hw
  | tail _ hmove ih => exact hmove.wellWired id (fun _ _ => False.elim) (fun _ => False.elim) ih

/-- A namespace copy apart from everything else keeps the wiring well formed. -/
theorem wellWired_copy {s t : NodePath} {ctx : Ctx} (hapart : ctx.graph.CopiesApart s t)
    (hw : ctx.graph.wiring.WellWired) :
    (finalState (copySubcontext env s t ctx)).graph.wiring.WellWired := by
  obtain ⟨mid, hmid, hmoves⟩ := copySubcontext_cases env (.message fun _ _ _ => False) s t ctx
  have hwmid : mid.graph.wiring.WellWired := by
    rcases hmid with h | h
    · rw [h.wiring, ← Ctx.wiring_eq]
      exact hw
    · exact hw.copy (h.isCopy hapart.free) hapart.copyable hapart.named
  exact message_wellWired hmoves hwmid

end Moves

/-! ## The condition on a run -/

/-- A namespace copy puts nothing into what is in use, code is wired into a node that is there, and
a document connects no cell both as a whole and at a sub-path. -/
def Turn.KeepsWiring (turn : Turn) (g : ContextGraph) : Prop :=
  match turn with
  | .assign target (.subcontext source) => target ∈ g.nodes ∨ g.CopiesApart source target
  | .setTransformerCode path (.endpoint _) => path ∈ g.nodes
  | .setGraph doc _ => doc.RootAlone
  | _ => True

instance (turn : Turn) (g : ContextGraph) : Decidable (turn.KeepsWiring g) := by
  unfold Turn.KeepsWiring
  split <;> infer_instance

def KeepsWiring (sys : System) (event : Event) : Prop :=
  match event with
  | .turn t _ _ => t.KeepsWiring sys.ctx.graph
  | _ => True

instance (sys : System) (event : Event) : Decidable (KeepsWiring sys event) := by
  unfold KeepsWiring
  split <;> infer_instance

theorem KeepsWiring.not_stray {env : Substrate} {sys : System} {event : Event}
    (h : KeepsWiring sys event) (now : Nat) (missing : List Checksum) :
    ¬ (event.limits env (sys.ctx.arrive now missing)).stray := by
  cases event with
  | turn t now missing =>
    intro hstray
    cases t with
    | setTransformerCode path code =>
      cases code with
      | endpoint ep => exact hstray h
      | config cfg => exact hstray
    | _ => exact hstray
  | _ => exact id

theorem KeepsWiring.copies {env : Substrate} {sys : System} {event : Event}
    (h : KeepsWiring sys event) {now : Nat} {missing : List Checksum} {ctx : Ctx} {s t : NodePath}
    (hc : (event.limits env (sys.ctx.arrive now missing)).copies ctx s t) :
    ctx.graph.CopiesApart s t := by
  cases event with
  | turn turn now' missing' =>
    obtain ⟨rfl, rfl, hnew⟩ := hc
    exact Or.resolve_left h hnew
  | _ => exact hc.elim

theorem KeepsWiring.loads {env : Substrate} {sys : System} {event : Event}
    (h : KeepsWiring sys event) {now : Nat} {missing : List Checksum} {g : ContextGraph}
    (hl : (event.limits env (sys.ctx.arrive now missing)).loads g) : g.wiring.WellWired := by
  cases event with
  | turn turn now' missing' =>
    cases turn with
    | setGraph doc attachments => exact (prepareGraph_spec hl).wellWired h
    | _ => exact hl.elim
  | _ => exact hl.elim

/-- The moves of an event that keeps the wiring. -/
theorem KeepsWiring.wellWired {env : Substrate} {sys : System} {event : Event} {now : Nat}
    {missing : List Checksum} {start ctx : Ctx} (hc : KeepsWiring sys event)
    (hw : start.graph.wiring.WellWired)
    (hm : Moves env (event.limits env (sys.ctx.arrive now missing)) start ctx) :
    ctx.graph.wiring.WellWired := by
  induction hm with
  | refl => exact hw
  | tail _ hmove ih =>
    exact hmove.wellWired (hc.not_stray now missing)
      (fun s t hcopy => wellWired_copy (hc.copies hcopy) ih) (fun g => hc.loads) ih

theorem wellWired_empty : ({} : ContextGraph).wiring.WellWired where
  sourceResolves _ h := absurd h List.not_mem_nil
  targetResolves _ h := absurd h List.not_mem_nil
  distinct := List.nodup_nil
  rootAlone _ h := absurd h List.not_mem_nil
  acyclic a h := by
    obtain ⟨b, ⟨wire, hw, -⟩, -⟩ := TransGen.head'_iff.mp h
    exact absurd hw List.not_mem_nil

theorem reachable_wellWired {env : Substrate} {sys : System}
    (h : Reachable env KeepsWiring sys) : sys.ctx.graph.wiring.WellWired := by
  refine h.ctx_invariant (I := fun ctx => ctx.graph.wiring.WellWired) wellWired_empty
    (fun _ _ _ hw => hw) fun sys event now missing ctx hc hw hmoves => ?_
  exact hc.wellWired hw hmoves

/-- In every reachable Context the graph is well formed, when every event of the run keeps the
wiring. -/
theorem reachable_wellFormed {env : Substrate} {sys : System}
    (h : Reachable env KeepsWiring sys) : sys.ctx.graph.WellFormed :=
  ContextGraph.wellFormed_of_wellWired (reachable_wellWired h)

/-- A cell, another cell fed by it, and a copy of both. -/
def copyOnce : List Event :=
  [.turn (.assign [.key "s", .key "x"] (.checksum ⟨1⟩)) 0 [],
    .turn (.assign [.key "s", .key "y"] (.endpoint (cellEndpoint [.key "s", .key "x"] []))) 0 [],
    .turn (.assign [.key "t"] (.subcontext [.key "s"])) 0 []]

theorem copyOnce_runs : (System.run .fixed copyOnce {}).isSome = true := by decide +kernel

theorem reachable_wellFormed_copyOnce :
    ((System.run .fixed copyOnce {}).get copyOnce_runs).ctx.graph.WellFormed :=
  reachable_wellFormed (Reachable.of_run .start (by decide +kernel) copyOnce_runs)

/-- The same copy twice. -/
def copyTwice : List Event := copyOnce ++ [.turn (.assign [.key "t"] (.subcontext [.key "s"])) 0 []]

theorem copyTwice_runs : (System.run .fixed copyTwice {}).isSome = true := by decide +kernel

/-- After the second copy the copied cell has two incoming edges. -/
theorem not_reachable_wellFormed :
    ¬ ∀ sys, Reachable .fixed (fun _ _ => True) sys → sys.ctx.graph.WellFormed := by
  intro h
  have := (h _ (Reachable.of_run .start (by decide +kernel) copyTwice_runs)).single
  exact absurd this (by decide +kernel)

end SeamlessWorkflow
