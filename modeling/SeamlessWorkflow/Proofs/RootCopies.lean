import SeamlessWorkflow.Proofs.RootOperations

/-!
# Namespace copies and documents

A namespace copy repeats the root inputs of the copied cells at other paths, and a document brings
its own: both leave one root input in every cell, unless a stored value and an edge meet.
-/

namespace SeamlessWorkflow

open Program Relation Wiring

/-- No edge ends where a cell is copied to, no edge ends where an edge is copied to, and a copied
edge that ends at no copied node ends at no root input. -/
@[mk_iff]
structure Ctx.CopiesRoots (ctx : Ctx) (s t : NodePath) : Prop where
  named : t ≠ []
  untargeted : ∀ p ∈ ctx.graph.nodes.keys, s <+: p → ∀ edge ∈ ctx.graph.edges,
    edge.target ≠ t ++ p.drop s.length
  distinct : ∀ edge ∈ ctx.graph.edgesBelow s, ∀ other ∈ ctx.graph.edges,
    other.target ≠ t ++ edge.target.drop s.length
  clear : ∀ edge ∈ ctx.graph.edgesBelow s, edge.target ∉ ctx.graph.nodes →
    ctx.Unrooted (t ++ edge.target.drop s.length)

instance (ctx : Ctx) (s t : NodePath) : Decidable (ctx.CopiesRoots s t) :=
  decidable_of_iff' _ (ctx.copiesRoots_iff s t)

/-- The root inputs of the nodes at or below `s` have been repeated at `t`. -/
structure RootsCopied (s t : NodePath) (start ctx : Ctx) : Prop where
  alone : ∀ q, ctx.expressionAt q = none ∨ ctx.producerAt q = none
  other : ∀ q, (∀ p ∈ start.graph.nodes, s <+: p → moved s t p ≠ q) → ctx.cell? q = start.cell? q
  copied : ∀ r ∈ start.graph.nodes, s <+: r →
    (∀ p ∈ start.graph.nodes, s <+: p → moved s t p ≠ r) → start.Unrooted r →
      ctx.Unrooted (moved s t r)

theorem Ctx.unrooted_congr {a b : Ctx} {q : NodePath} (h : b.cell? q = a.cell? q)
    (hu : a.Unrooted q) : b.Unrooted q := by
  refine ⟨?_, ?_⟩
  · rw [← hu.expression]
    unfold Ctx.expressionAt
    rw [h]
  · rw [← hu.producer]
    unfold Ctx.producerAt
    rw [h]

/-- A copied cell has the root inputs of the original one. -/
theorem cellFields_copy (env : Substrate) (ident : Nat) (node : Node) :
    ((node.copy env ident).cellFields.bind CellFields.rootExpression = none ↔
        node.cellFields.bind CellFields.rootExpression = none) ∧
      ((node.copy env ident).cellFields.bind CellFields.rootProducer = none ↔
        node.cellFields.bind CellFields.rootProducer = none) := by
  unfold Node.copy Node.cellFields
  cases node.body with
  | cell fields => simp
  | transformer fields => simp

/-- Copying one node. -/
structure NodeCopied (s t path : NodePath) (ctx ctx' : Ctx) : Prop where
  edges : ctx'.graph.edges = ctx.graph.edges
  mem : ∀ q ∈ ctx.graph.nodes, q ∈ ctx'.graph.nodes
  other : ∀ q, q ≠ moved s t path → ctx'.cell? q = ctx.cell? q
  expression : ctx'.expressionAt (moved s t path) = none ↔ ctx.expressionAt path = none
  producer : ctx'.producerAt (moved s t path) = none ↔ ctx.producerAt path = none

theorem copyNode_roots (env : Substrate) (s t : NodePath) {ctx : Ctx} {path : NodePath}
    (hp : path ∈ ctx.graph.nodes) : NodeCopied s t path ctx (ctx.copyNode env s t path) := by
  obtain ⟨node, hnode⟩ : ∃ node, ctx.node? path = some node := by
    rw [← AList.lookup_isSome] at hp
    exact Option.isSome_iff_exists.mp hp
  set copied := ctx.modifyGraph fun g => g.putNode (moved s t path) (node.copy env ctx.nextIdent)
    with hcopied
  have hgraph : (ctx.copyNode env s t path).graph = copied.graph := by
    unfold Ctx.copyNode
    rw [hnode]
    dsimp only
    split
    · exact graph_increfAll _ _
    · exact graph_increfAll _ _
  have hlookup : ∀ q, copied.node? q = if q = moved s t path then some (node.copy env ctx.nextIdent)
      else ctx.node? q := node?_putNode _ _ ctx
  have hsame := SameRoots.of_graph hgraph
  have hat : (ctx.copyNode env s t path).cell? (moved s t path) =
      (node.copy env ctx.nextIdent).cellFields := by
    rw [hsame.cells]
    unfold Ctx.cell?
    rw [hlookup, if_pos rfl]
    rfl
  have hfrom : ctx.cell? path = node.cellFields := by
    unfold Ctx.cell?
    rw [hnode]
    rfl
  obtain ⟨hx, hpr⟩ := cellFields_copy env ctx.nextIdent node
  refine ⟨hsame.edges, fun q hq => (hsame.mem q).mpr ?_, fun q hq => ?_, ?_, ?_⟩
  · show q ∈ ctx.graph.nodes.insert (moved s t path) _
    exact (AList.mem_insert _).mpr (Or.inr hq)
  · rw [hsame.cells]
    unfold Ctx.cell?
    rw [hlookup, if_neg hq]
  · unfold Ctx.expressionAt
    rw [hat, hfrom]
    exact hx
  · unfold Ctx.producerAt
    rw [hat, hfrom]
    exact hpr

/-- Copying some nodes, by induction on them. A cell that is not written on the way is copied as it
is. -/
theorem copyNodes_roots (env : Substrate) (s t : NodePath) (paths : List NodePath)
    (hbelow : ∀ p ∈ paths, s <+: p) : ∀ ctx : Ctx, (∀ p ∈ paths, p ∈ ctx.graph.nodes) →
      (∀ q, ctx.expressionAt q = none ∨ ctx.producerAt q = none) →
      ∃ ctx', paths.foldl (Ctx.copyNode env s t) ctx = ctx' ∧ ctx'.graph.edges = ctx.graph.edges ∧
        (∀ q, ctx'.expressionAt q = none ∨ ctx'.producerAt q = none) ∧
        (∀ q, (∀ p ∈ paths, moved s t p ≠ q) → ctx'.cell? q = ctx.cell? q) ∧
        ∀ r ∈ paths, (∀ p ∈ paths, moved s t p ≠ r) → ctx.Unrooted r →
          ctx'.Unrooted (moved s t r) := by
  induction paths with
  | nil => exact fun ctx _ halone => ⟨ctx, rfl, rfl, halone, fun _ _ => rfl, by simp⟩
  | cons path paths ih =>
    intro ctx hnodes halone
    have hstep := copyNode_roots env s t (hnodes path (List.mem_cons_self ..))
    have halone' : ∀ q, (ctx.copyNode env s t path).expressionAt q = none ∨
        (ctx.copyNode env s t path).producerAt q = none := by
      intro q
      by_cases hq : q = moved s t path
      · rw [hq, hstep.expression, hstep.producer]
        exact halone path
      · have hcell := hstep.other q hq
        unfold Ctx.expressionAt Ctx.producerAt
        rw [hcell]
        exact halone q
    obtain ⟨ctx', hfold, hedges, hfinal, hother, hcopied⟩ := ih
      (fun p hp => hbelow p (List.mem_cons_of_mem _ hp)) (ctx.copyNode env s t path)
      (fun p hp => hstep.mem p (hnodes p (List.mem_cons_of_mem _ hp))) halone'
    refine ⟨ctx', hfold, hedges.trans hstep.edges, hfinal, fun q hq => ?_, fun r hr hfree hu => ?_⟩
    · rw [hother q fun p hp => hq p (List.mem_cons_of_mem _ hp)]
      exact hstep.other q (hq path (List.mem_cons_self ..)).symm
    · have hkept : (ctx.copyNode env s t path).Unrooted r :=
        Ctx.unrooted_congr (hstep.other r (hfree path (List.mem_cons_self ..)).symm) hu
      by_cases hmem : r ∈ paths
      · exact hcopied r hmem (fun p hp => hfree p (List.mem_cons_of_mem _ hp)) hkept
      · obtain rfl : r = path := (List.mem_cons.mp hr).resolve_right hmem
        -- no later node is copied to the same place
        have hlast : ctx'.cell? (moved s t r) = (ctx.copyNode env s t r).cell? (moved s t r) := by
          refine hother _ fun p hp heq => hmem ?_
          rw [← moved_injective (hbelow p (List.mem_cons_of_mem _ hp))
            (hbelow r (List.mem_cons_self ..)) heq]
          exact hp
        exact Ctx.unrooted_congr hlast ⟨hstep.expression.mpr hu.expression,
          hstep.producer.mpr hu.producer⟩

/-- A copy of the nodes and of some edges leaves one root input in every cell. -/
theorem RootsCopied.oneRoot {s t : NodePath} {start ctx : Ctx} (h : RootsCopied s t start ctx)
    (hapart : start.CopiesRoots s t) (ho : start.OneRoot) {g : ContextGraph} {inside new : List Edge}
    (hsub : inside.Sublist (start.graph.edgesBelow s)) (hnew : List.Forall₂ (CopyOf s t g) inside new)
    (hedges : ctx.graph.edges = start.graph.edges ++ new) : ctx.OneRoot := by
  have htargets : new.map Edge.target = (inside.map Edge.target).map (moved s t) := by
    rw [List.map_map]
    exact map_eq_of_related hnew fun edge copied hc => hc.target_moved
  have hinside : ∀ edge ∈ inside, edge ∈ start.graph.edges ∧ s <+: edge.target := by
    intro edge he
    obtain ⟨hm, -, ht⟩ := mem_edgesBelow.mp (hsub.subset he)
    exact ⟨hm, ht⟩
  have hold : ∀ edge ∈ start.graph.edges, ctx.Unrooted edge.target := by
    intro edge he
    have hu := ho.unwired edge he
    refine Ctx.unrooted_congr (h.other _ fun p hp hs heq => ?_) ⟨hu.1, hu.2⟩
    exact hapart.untargeted p hp hs edge he heq.symm
  have hfresh : ∀ edge ∈ new, ctx.Unrooted edge.target ∧ edge.target ≠ [] := by
    intro copied hc
    obtain ⟨edge, he, hcopy⟩ := exists_related hnew hc
    obtain ⟨hm, hs⟩ := hinside edge he
    rw [hcopy.target_moved]
    refine ⟨?_, fun hnil => hapart.named (List.append_eq_nil_iff.mp hnil).1⟩
    by_cases hnode : edge.target ∈ start.graph.nodes
    · have hu := ho.unwired edge hm
      refine h.copied _ hnode hs (fun p hp hsp heq => ?_) ⟨hu.1, hu.2⟩
      exact hapart.untargeted p hp hsp edge hm heq.symm
    · refine Ctx.unrooted_congr (h.other _ fun p hp hsp heq => hnode ?_)
        (hapart.clear edge (hsub.subset he) hnode)
      rw [← moved_injective hsp hs heq]
      exact hp
  refine ⟨fun edge he => ?_, ?_, h.alone, fun edge he => ?_⟩
  · rw [hedges] at he
    rcases List.mem_append.mp he with he | he
    · exact ho.named edge he
    · exact (hfresh edge he).2
  · rw [hedges, List.map_append, htargets]
    refine List.nodup_append.mpr ⟨ho.targets, ?_, fun p hp q hq => ?_⟩
    · have hdistinct : (inside.map Edge.target).Nodup :=
        (((hsub.trans List.filter_sublist).map Edge.target)).nodup ho.targets
      refine hdistinct.map_on fun p hp q hq heq => ?_
      obtain ⟨e, he, rfl⟩ := List.mem_map.mp hp
      obtain ⟨e', he', rfl⟩ := List.mem_map.mp hq
      exact moved_injective (hinside e he).2 (hinside e' he').2 heq
    · obtain ⟨e, he, rfl⟩ := List.mem_map.mp hp
      obtain ⟨r, hr, rfl⟩ := List.mem_map.mp hq
      obtain ⟨e', he', rfl⟩ := List.mem_map.mp hr
      exact hapart.distinct e' (hsub.subset he') e he
  · rw [hedges] at he
    rcases List.mem_append.mp he with he | he
    · exact ⟨(hold edge he).expression, (hold edge he).producer⟩
    · exact ⟨(hfresh edge he).1.expression, (hfresh edge he).1.producer⟩

section Copy

variable {env : Substrate} {start : Ctx}

theorem keeps_appendNodes {edge : Edge} {nodes : AList (fun _ : NodePath => Node)} :
    Keeps (fun ctx => ctx.graph.nodes = nodes) (appendEdge env edge) := by
  refine Triple.get_bind fun ctx => ?_
  cases hr : ctx.graph.registerEdgeSymbols env edge with
  | none => exact Triple.throw fun _ h => h.2
  | some r =>
    obtain ⟨edge', graph⟩ := r
    obtain ⟨hg, -⟩ := ContextGraph.registerEdgeSymbols_spec hr
    refine Triple.modify fun ctx' h => ?_
    obtain ⟨rfl, h⟩ := h
    exact hg.nodes.trans h

theorem keeps_copyNodes (s t : NodePath) (edge : Edge) {nodes : AList (fun _ : NodePath => Node)} :
    Keeps (fun ctx => ctx.graph.nodes = nodes) (copyEdge env s t edge) := by
  unfold copyEdge
  refine Keeps.ite keeps_appendNodes (Keeps.bind (keeps_resolve _) fun source => ?_)
  refine Triple.get_bind fun ctx => ?_
  refine Triple.bind (R := fun _ (ctx : Ctx) => ctx.graph.nodes = nodes)
    (Triple.modify fun ctx' h => ?_) fun _ => keeps_appendNodes
  obtain ⟨rfl, h⟩ := h
  exact (ContextGraph.sameGraph_assignChainFrom env _ _ _).nodes.trans h

theorem copySubcontext_result (s t : NodePath) (ho : start.OneRoot) (hapart : start.CopiesRoots s t) :
    Triple (· = start) (copySubcontext env s t) (fun _ => Ctx.OneRoot) Ctx.OneRoot := by
  refine Triple.bind (R := fun _ ctx => ctx = start.modifyGraph fun g => g.addNamespace t)
    (Triple.modify fun ctx h => by rw [h]) fun _ => ?_
  refine triple_each fun named hnamed => ?_
  have hsame : SameRoots start named := by
    rw [hnamed]
    exact ⟨rfl, fun _ => Iff.rfl, fun _ => rfl⟩
  have hquiet : Rewires start named start.outline start.graph.edges := by
    rw [hnamed]
    exact .rewire rfl rfl
  refine Triple.inspect (inspects_sortedDescendants s) (fun _ h => h ▸ oneRoot_same hsame ho)
    fun descendants => ?_
  refine Triple.bind (R := fun _ ctx => RootsCopied s t start ctx ∧
      EdgesCopied s t start ctx [] ctx) (Triple.modify fun ctx h => ?_) fun _ => ?_
  · obtain ⟨rfl, hd⟩ := h
    obtain ⟨hcopying, hedges⟩ := copyNodes_spec env s t hquiet hd
    have hmem : ∀ p, p ∈ descendants ↔ p ∈ start.graph.nodes ∧ s <+: p := fun p => by
      rw [mem_nodes_below hd, hsame.mem]
    obtain ⟨ctx', hfold, -, halone, hother, hcopied⟩ := copyNodes_roots env s t descendants
      (fun p hp => ((hmem p).mp hp).2) ctx (fun p hp => (hsame.mem p).mpr ((hmem p).mp hp).1)
      (oneRoot_same hsame ho).alone
    rw [hfold] at hcopying hedges ⊢
    refine ⟨⟨halone, fun q hq => ?_, fun r hr hs hfree hu => ?_⟩, hcopying.rewires, [],
      List.Forall₂.nil, by rw [hedges, List.append_nil]⟩
    · rw [hother q fun p hp => hq p ((hmem p).mp hp).1 ((hmem p).mp hp).2, hsame.cells]
    · exact hcopied r ((hmem r).mpr ⟨hr, hs⟩)
        (fun p hp => hfree p ((hmem p).mp hp).1 ((hmem p).mp hp).2)
        (Ctx.unrooted_congr (hsame.cells r) hu)
  refine triple_each fun nodes ⟨hroots, hcopy⟩ => ?_
  refine Triple.get_bind fun ctx => ?_
  refine Triple.assume (fun _ h => h.1 ▸ h.2) fun hctx => ?_
  subst hctx
  have hinside : ctx.graph.edgesBelow s = start.graph.edgesBelow s := by
    obtain ⟨new, hnew, hedges⟩ := hcopy.edges
    cases hnew
    unfold ContextGraph.edgesBelow
    rw [hedges, List.append_nil]
  -- some of the edges have been copied, whether the loop ends or fails
  have hdone : ∀ ctx', (∃ done, done.Sublist ([] ++ ctx.graph.edgesBelow s) ∧
      EdgesCopied s t start ctx done ctx') ∧ ctx'.graph.nodes = ctx.graph.nodes → ctx'.OneRoot := by
    rintro ctx' ⟨⟨done, hsub, hd⟩, hn⟩
    obtain ⟨new, hnew, hedges⟩ := hd.edges
    rw [List.nil_append, hinside] at hsub
    have hcells : ∀ q, ctx'.cell? q = ctx.cell? q := fun q => by
      unfold Ctx.cell? Ctx.node?
      rw [hn]
    refine RootsCopied.oneRoot ⟨fun q => ?_, fun q hq => ?_, fun r hr hs hfree hu => ?_⟩ hapart ho
      hsub hnew hedges
    · unfold Ctx.expressionAt Ctx.producerAt
      rw [hcells]
      exact hroots.alone q
    · rw [hcells, hroots.other q hq]
    · exact Ctx.unrooted_congr (hcells _) (hroots.copied r hr hs hfree hu)
  refine Triple.bind (R := fun _ => Ctx.OneRoot) ?_ fun _ =>
    oneRoot_of_addsNone fun s => addsNone_deriveAll
  refine ((triple_copyEdges (ctx.graph.edgesBelow s) []).and (Keeps.forM fun edge _ =>
    keeps_copyNodes s t edge)).conseq (fun ctx' h => ?_) (fun _ ctx' h => hdone ctx' h) fun ctx' h =>
      hdone ctx' h
  obtain ⟨rfl, -⟩ := h
  exact ⟨hcopy, rfl⟩

end Copy

/-! ## Documents -/

/-- Has the entry a stored value? -/
def EntryBody.stores : EntryBody → Bool
  | .cell _ value => value.isSome
  | .transformer _ => false

/-- No connection of a document ends at a cell that has a stored value. -/
def Document.RootsUnwired (doc : Document) : Prop :=
  ∀ entry ∈ doc.nodes, entry.body.stores = true → ∀ c ∈ doc.connections, c.target ≠ entry.path

instance (doc : Document) : Decidable doc.RootsUnwired := by
  unfold Document.RootsUnwired
  infer_instance

/-- The root inputs of a loaded cell: a stored value at most, and that of its entry. -/
theorem prepareNodes_roots {env : Substrate} {version : String} {entries : List NodeEntry} :
    ∀ {urls : List String} {g g' : ContextGraph},
      prepareNodes env version entries urls g = .ok g' → ∀ p fields,
        (g'.nodes.lookup p).bind Node.cellFields = some fields →
          (g.nodes.lookup p).bind Node.cellFields = some fields ∨ fields.rootExpression = none ∧
            (fields.rootProducer = none ∨
              ∃ entry ∈ entries, entry.path = p ∧ entry.body.stores = true) := by
  induction entries with
  | nil =>
    intro urls g g' h p fields hf
    cases h
    exact Or.inl hf
  | cons entry entries ih =>
    intro urls g g' h p fields hf
    obtain ⟨-, -, h⟩ := bind_ok h
    obtain ⟨node, hnode, h⟩ := bind_ok h
    obtain ⟨-, -, h⟩ := bind_ok h
    obtain ⟨-, -, h⟩ := bind_ok h
    obtain ⟨-, -, h⟩ := bind_ok h
    rcases ih h p fields hf with hput | ⟨hx, hp⟩
    · by_cases hpath : p = entry.path
      · subst hpath
        have hlookup : (g.putNode entry.path node).nodes.lookup entry.path = some node :=
          AList.lookup_insert _
        rw [hlookup, Option.bind_some] at hput
        obtain ⟨body, hbody, hmade⟩ := bind_ok hnode
        cases hmade
        refine Or.inr ?_
        cases hentry : entry.body with
        | cell config value =>
          rw [hentry] at hbody
          cases hbody
          obtain rfl := Option.some.inj hput
          refine ⟨rfl, ?_⟩
          cases hvalue : value with
          | none => exact Or.inl rfl
          | some producer =>
            refine Or.inr ⟨entry, List.mem_cons_self .., rfl, ?_⟩
            rw [hentry, hvalue]
            rfl
        | transformer transformer =>
          rw [hentry] at hbody
          obtain ⟨config, -, hbody⟩ := bind_ok hbody
          cases hbody
          cases hput
      · have hlookup : (g.putNode entry.path node).nodes.lookup p = g.nodes.lookup p :=
          AList.lookup_insert_ne hpath
        rw [hlookup] at hput
        exact Or.inl hput
    · refine Or.inr ⟨hx, hp.imp_right ?_⟩
      rintro ⟨e, he, hpe, hs⟩
      exact ⟨e, List.mem_cons_of_mem _ he, hpe, hs⟩

/-- The nodes of a loaded graph are those that its entries describe. -/
theorem prepareGraph_nodes {env : Substrate} {doc : Document} {g : ContextGraph}
    (h : prepareGraph env doc = .ok g) :
    ∃ g', prepareNodes env doc.version doc.nodes [] {} = .ok g' ∧ g.nodes = g'.nodes := by
  obtain ⟨-, -, h⟩ := bind_ok h
  obtain ⟨g1, hnodes, h⟩ := bind_ok h
  obtain ⟨g2, hanonymous, h⟩ := bind_ok h
  obtain ⟨g3, hconnections, h⟩ := bind_ok h
  obtain ⟨g4, hsymbols, h⟩ := bind_ok h
  obtain ⟨_, hcyclic, h⟩ := bind_ok h
  cases h
  obtain ⟨hnodes3, -, -⟩ := prepareConnections_spec hconnections
  obtain ⟨hnodes4, -⟩ := registerSymbols_spec hsymbols
  exact ⟨g1, hnodes, (hnodes4.trans hnodes3).trans (prepareAnonymous_spec hanonymous).nodes⟩

/-- A document whose connections spare the stored values is loaded with one root input in every
cell. -/
theorem loaded_oneRoot {env : Substrate} {doc : Document} {g : ContextGraph}
    (h : prepareGraph env doc = .ok g) (hroots : doc.RootsUnwired) {ctx : Ctx}
    (hctx : ctx.graph = g) : ctx.OneRoot ∧ ∀ path, ctx.expressionAt path = none := by
  obtain ⟨g', hnodes, hsame⟩ := prepareGraph_nodes h
  have hload := prepareGraph_spec h
  have hfields : ∀ p fields, ctx.cell? p = some fields → fields.rootExpression = none ∧
      (fields.rootProducer = none ∨
        ∃ entry ∈ doc.nodes, entry.path = p ∧ entry.body.stores = true) := by
    intro p fields hf
    unfold Ctx.cell? Ctx.node? at hf
    rw [hctx, hsame] at hf
    rcases prepareNodes_roots hnodes p fields hf with hempty | hroot
    · cases hempty
    · exact hroot
  have hexpression : ∀ path, ctx.expressionAt path = none := by
    intro path
    cases hf : ctx.cell? path with
    | none => unfold Ctx.expressionAt; rw [hf]; rfl
    | some fields => rw [Ctx.expressionAt_of_cell? hf]; exact (hfields path fields hf).1
  have hloaded : ∀ edge ∈ ctx.graph.edges, ∃ c ∈ doc.connections, c.target = edge.target ∧
      edge.target ≠ [] := by
    intro edge he
    rw [hctx] at he
    obtain ⟨c, hc, hl⟩ := exists_related hload.edges he
    obtain ⟨n, l, hr, -⟩ := hl.resolves
    refine ⟨c, hc, hl.target.symm, fun hnil => ?_⟩
    have hreads := ContextGraph.resolveExisting_eq_some.mp hr
    rw [hnil] at hreads
    exact hreads.nonempty (List.append_eq_nil_iff.mp hreads.flat).1
  refine ⟨⟨fun edge he => (hloaded edge he).choose_spec.2.2, ?_, fun path => Or.inl (hexpression path),
    fun edge he => ⟨hexpression _, ?_⟩⟩, hexpression⟩
  · rw [hctx]
    exact hload.distinct
  · obtain ⟨c, hc, htarget, -⟩ := hloaded edge he
    cases hf : ctx.cell? edge.target with
    | none => unfold Ctx.producerAt; rw [hf]; rfl
    | some fields =>
      rw [Ctx.producerAt_of_cell? hf]
      refine (hfields _ fields hf).2.resolve_right ?_
      rintro ⟨entry, hentry, hpath, hstores⟩
      exact hroots entry hentry hstores c hc (htarget.trans hpath.symm)

end SeamlessWorkflow
