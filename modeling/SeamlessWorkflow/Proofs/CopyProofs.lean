import SeamlessWorkflow.Proofs.WellWired

/-!
# Namespace copies

What a namespace copy leaves behind, also when it fails in its middle: the copied nodes, and copies
of some of the edges inside the namespace.
-/

namespace SeamlessWorkflow

open Program Relation Wiring

/-- One edge is the copy of another one, and records its links again, in a graph that holds the copied
nodes. -/
structure CopyOf (s t : NodePath) (g : ContextGraph) (edge copied : Edge) : Prop where
  source : copied.sourcePlace = copyPlace s t edge.sourcePlace
  target : copied.targetPlace = copyPlace s t edge.targetPlace
  recipe : copied.recipe = edge.recipe
  registered : edge.sourceChain = [] → ∃ node localPath, g.Registers copied node localPath
  chained : edge.sourceChain ≠ [] → copied.sourceChain.map Recipe.link = edge.sourceChain.map Recipe.link ∧
    ∃ r, g.resolveExisting copied.source = some r ∧ StartsAt copied.sourceChain r.1

/-- The source of a copied edge is that of the original, moved. -/
theorem CopyOf.source_moved {s t : NodePath} {g : ContextGraph} {edge copied : Edge}
    (h : CopyOf s t g edge copied) : copied.source = moved s t edge.source := by
  rw [copied.sourceFlat, h.source, copyPlace_flat, ← edge.sourceFlat]
  rfl

theorem CopyOf.target_moved {s t : NodePath} {g : ContextGraph} {edge copied : Edge}
    (h : CopyOf s t g edge copied) : copied.target = moved s t edge.target := by
  rw [copied.targetFlat, h.target, copyPlace_flat, ← edge.targetFlat]
  rfl

/-- The nodes at or below `s` have been copied to `t`, and some of the edges inside `s`. -/
structure Copying (s t : NodePath) (ctx ctx' : Ctx) : Prop where
  rewires : Rewires ctx ctx' ctx'.outline ctx'.graph.edges
  other : ∀ q, (∀ p ∈ ctx.graph.nodes, s <+: p → moved s t p ≠ q) →
    ctx'.outline q = ctx.outline q
  copied : (∀ p ∈ ctx.graph.nodes, s <+: p → moved s t p ∉ ctx.graph.nodes) →
    ∀ p ∈ ctx.graph.nodes, s <+: p →
      (ctx'.outline (moved s t p)).map Outline.kind = (ctx.outline p).map Outline.kind
  edges : ∃ inside new : List Edge, inside.Sublist (ctx.graph.edgesBelow s) ∧
    List.Forall₂ (CopyOf s t ctx'.graph) inside new ∧ ctx'.graph.edges = ctx.graph.edges ++ new

/-! ## What the outline decides -/

theorem Ctx.resolveExisting_of_outline {ctx ctx' : Ctx} (h : ctx'.outline = ctx.outline) :
    ctx'.graph.resolveExisting = ctx.graph.resolveExisting := by
  refine ContextGraph.resolveExisting_congr fun path => ?_
  rw [mem_nodes_iff_outline, mem_nodes_iff_outline, h]

theorem Ctx.nodeCelltype_eq (ctx : Ctx) (path : NodePath) :
    ctx.graph.nodeCelltype path = ((ctx.outline path).map Outline.celltype).getD .mixed := by
  unfold ContextGraph.nodeCelltype Ctx.outline
  rw [Option.map_map]
  rfl

theorem Ctx.nodeCelltype_of_outline {ctx ctx' : Ctx} (h : ctx'.outline = ctx.outline) :
    ctx'.graph.nodeCelltype = ctx.graph.nodeCelltype := by
  funext path
  rw [Ctx.nodeCelltype_eq, Ctx.nodeCelltype_eq, h]

theorem CopyOf.of_outline {s t : NodePath} {a b : Ctx} {edge copied : Edge}
    (h : CopyOf s t a.graph edge copied) (ho : b.outline = a.outline) :
    CopyOf s t b.graph edge copied where
  source := h.source
  target := h.target
  recipe := h.recipe
  registered hchain := by
    obtain ⟨node, localPath, hregisters⟩ := h.registered hchain
    exact ⟨node, localPath, hregisters.congr (Ctx.resolveExisting_of_outline ho)
      (Ctx.nodeCelltype_of_outline ho)⟩
  chained hchain := by
    rw [Ctx.resolveExisting_of_outline ho]
    exact h.chained hchain

/-! ## The nodes -/

theorem quiet_increfCode (ctx : Ctx) (path : NodePath) (code : Checksum) :
    Quiet ctx { ctx.incref code with codeRefholds := ctx.codeRefholds.insert path code } :=
  .of_eq rfl rfl rfl rfl rfl

theorem Node.outline_copy (env : Substrate) (ident : Nat) (node : Node) :
    (node.copy env ident).outline = { node.outline with ident } := by
  unfold Node.copy Node.outline Node.isCell Node.celltype
  cases node.body <;> rfl

/-- Copying one node. -/
theorem rewires_copyNode (env : Substrate) (s t : NodePath) (ctx : Ctx) {path : NodePath}
    {node : Node} (hnode : ctx.node? path = some node) :
    ∃ ident, Rewires ctx (ctx.copyNode env s t path)
      (Function.update ctx.outline (moved s t path) (some { node.outline with ident }))
      ctx.graph.edges := by
  refine ⟨ctx.nextIdent, ?_⟩
  unfold Ctx.copyNode
  rw [hnode]
  dsimp only
  have hput : Rewires ctx { ctx.modifyGraph (fun g => g.putNode (moved s t path)
        (node.copy env ctx.nextIdent)) with nextIdent := ctx.nextIdent + 1 }
      (Function.update ctx.outline (moved s t path) (some { node.outline with ident := ctx.nextIdent }))
      ctx.graph.edges := by
    refine ⟨⟨funext fun q => ?_, rfl, rfl⟩, keepsReasons_putNode (moved s t path) (fun reason h => ?_) rfl⟩
    swap
    · refine ⟨path, ?_⟩
      unfold Ctx.reasonAt
      rw [hnode]
      exact h
    show ((ctx.graph.nodes.insert (moved s t path) _).lookup q).map Node.outline = _
    by_cases hq : q = moved s t path
    · rw [hq, AList.lookup_insert, Function.update_self, Option.map_some]
      exact congrArg some (Node.outline_copy env _ node)
    · rw [AList.lookup_insert_ne hq, Function.update_of_ne hq]
      rfl
  have hq := quiet_increfAll ((node.copy env ctx.nextIdent).producerChecksums ++
    (node.copy env ctx.nextIdent).currentChecksum.toList)
      { ctx.modifyGraph (fun g => g.putNode (moved s t path) (node.copy env ctx.nextIdent)) with
        nextIdent := ctx.nextIdent + 1 }
  split
  · exact (hput.quiet hq).quiet (quiet_increfCode _ _ _)
  · exact hput.quiet hq

theorem Rewires.trans {a b c : Ctx} {o o' : NodePath → Option Outline} {e e' : List Edge}
    (h : Rewires a b o e) (h' : Rewires b c o' e') : Rewires a c o' e' where
  toBecomes := h'.toBecomes
  reasons := h.reasons.trans h'.reasons

/-- Copying some nodes, none of which is overwritten on the way. -/
theorem rewires_copyNodes (env : Substrate) (s t : NodePath) (paths : List NodePath) (start ctx : Ctx)
    (hstart : Rewires start ctx ctx.outline start.graph.edges)
    (hnodes : ∀ p ∈ paths, p ∈ ctx.graph.nodes) :
    ∃ ctx', paths.foldl (Ctx.copyNode env s t) ctx = ctx' ∧
      Rewires start ctx' ctx'.outline start.graph.edges ∧
      (∀ q, (∀ p ∈ paths, moved s t p ≠ q) → ctx'.outline q = ctx.outline q) ∧
      ((∀ p ∈ paths, ∀ p' ∈ paths, moved s t p ≠ p') →
        (∀ p ∈ paths, ∀ p' ∈ paths, moved s t p = moved s t p' → p = p') →
        ∀ p ∈ paths, (ctx'.outline (moved s t p)).map Outline.kind =
          (ctx.outline p).map Outline.kind) := by
  induction paths generalizing ctx with
  | nil => exact ⟨ctx, rfl, hstart, fun _ _ => rfl, by simp⟩
  | cons path paths ih =>
    obtain ⟨node, hnode⟩ : ∃ node, ctx.node? path = some node := by
      have := hnodes path (List.mem_cons_self ..)
      rw [← AList.lookup_isSome] at this
      exact Option.isSome_iff_exists.mp this
    obtain ⟨ident, hcopy⟩ := rewires_copyNode env s t ctx hnode
    have hoverwrites : ∀ q, q ≠ moved s t path →
        (ctx.copyNode env s t path).outline q = ctx.outline q := fun q hq => by
      rw [hcopy.outline, Function.update_of_ne hq]
    have hnodes' : ∀ p ∈ paths, p ∈ (ctx.copyNode env s t path).graph.nodes := by
      intro p hp
      rw [mem_nodes_iff_outline]
      by_cases hpq : p = moved s t path
      · rw [hcopy.outline, hpq, Function.update_self]; rfl
      · rw [hoverwrites p hpq, ← mem_nodes_iff_outline]
        exact hnodes p (List.mem_cons_of_mem _ hp)
    have hrewires : Rewires start (ctx.copyNode env s t path)
        (ctx.copyNode env s t path).outline start.graph.edges := by
      have := hstart.trans hcopy
      exact ⟨⟨rfl, this.edges.trans hstart.edges, this.unsettled⟩, this.reasons⟩
    obtain ⟨ctx', hfold, hr, hother, hcopied⟩ := ih _ hrewires hnodes'
    refine ⟨ctx', hfold, hr, fun q hq => ?_, fun hapart hinj p hp => ?_⟩
    · rw [hother q fun p hp => hq p (List.mem_cons_of_mem _ hp)]
      exact hoverwrites q (hq path (List.mem_cons_self ..)).symm
    · have hcopied' := hcopied
        (fun p hp p' hp' => hapart p (List.mem_cons_of_mem _ hp) p' (List.mem_cons_of_mem _ hp'))
        fun p hp p' hp' => hinj p (List.mem_cons_of_mem _ hp) p' (List.mem_cons_of_mem _ hp')
      by_cases hmem : ∃ p' ∈ paths, moved s t p' = moved s t p
      · obtain ⟨p', hp', hpp⟩ := hmem
        obtain rfl := hinj p' (List.mem_cons_of_mem _ hp') p hp hpp
        rw [hcopied' p' hp']
        rw [hoverwrites p' (hapart path (List.mem_cons_self ..) p' hp).symm]
      · have hpath : p = path := by
          rcases List.mem_cons.mp hp with h | h
          · exact h
          · exact absurd ⟨p, h, rfl⟩ hmem
        subst hpath
        rw [hother _ fun p' hp' hpp => hmem ⟨p', hp', hpp⟩, hcopy.outline, Function.update_self]
        unfold Ctx.outline
        rw [hnode]
        rfl

/-! ## The edges -/

/-- The nodes have been copied, and copies of these edges have been added. -/
structure EdgesCopied (s t : NodePath) (start nodes : Ctx) (inside : List Edge) (ctx : Ctx) :
    Prop where
  rewires : Rewires start ctx nodes.outline ctx.graph.edges
  edges : ∃ new, List.Forall₂ (CopyOf s t nodes.graph) inside new ∧
    ctx.graph.edges = start.graph.edges ++ new

section Edges

variable {env : Substrate} {s t : NodePath} {start nodes : Ctx} {inside : List Edge}

/-- A change of the symbols. -/
theorem EdgesCopied.symbols {ctx : Ctx} (h : EdgesCopied s t start nodes inside ctx)
    {graph : ContextGraph} (hg : ContextGraph.SameGraph ctx.graph graph) :
    EdgesCopied s t start nodes inside (ctx.modifyGraph fun _ => graph) where
  rewires := by
    refine ⟨⟨?_, rfl, rfl⟩, h.rewires.reasons.trans (keepsReasons_of_nodes hg.nodes)⟩
    refine Eq.trans (Ctx.outline_congr fun path => ?_) h.rewires.outline
    show graph.nodes.lookup path = ctx.graph.nodes.lookup path
    rw [hg.nodes]
  edges := by
    obtain ⟨new, hnew, hedges⟩ := h.edges
    exact ⟨new, hnew, hg.edges.trans hedges⟩

theorem triple_appendCopy {edge copied : Edge} (hc : ∀ ctx edge' graph,
      EdgesCopied s t start nodes inside ctx →
      ctx.graph.registerEdgeSymbols env copied = some (edge', graph) → CopyOf s t nodes.graph edge edge') :
    Triple (EdgesCopied s t start nodes inside) (appendEdge env copied)
      (fun _ => EdgesCopied s t start nodes (inside ++ [edge]))
      (EdgesCopied s t start nodes inside) := by
  refine Triple.get_bind fun ctx => ?_
  cases hr : ctx.graph.registerEdgeSymbols env copied with
  | none => exact Triple.throw fun _ h => h.2
  | some r =>
    obtain ⟨edge', graph⟩ := r
    refine Triple.modify fun ctx' h => ?_
    obtain ⟨rfl, h⟩ := h
    have hcopy := hc ctx' edge' graph h hr
    obtain ⟨hrewires, new, hnew, hedges⟩ := h.symbols (ContextGraph.registerEdgeSymbols_spec hr).1
    refine ⟨⟨⟨hrewires.outline, rfl, rfl⟩, hrewires.reasons⟩, new ++ [edge'], ?_, ?_⟩
    · exact List.rel_append hnew (List.Forall₂.cons hcopy List.Forall₂.nil)
    · show graph.edges ++ _ = _
      rw [show graph.edges = start.graph.edges ++ new from hedges, List.append_assoc]

theorem triple_copyEdge (edge : Edge) :
    Triple (EdgesCopied s t start nodes inside) (copyEdge env s t edge)
      (fun _ => EdgesCopied s t start nodes (inside ++ [edge]))
      (EdgesCopied s t start nodes inside) := by
  have hresolve : ∀ {ctx}, EdgesCopied s t start nodes inside ctx →
      nodes.graph.resolveExisting = ctx.graph.resolveExisting := fun h =>
    Ctx.resolveExisting_of_outline h.rewires.outline.symm
  refine Triple.ite (fun hchain => ?_) fun hchain => ?_
  · refine triple_appendCopy fun ctx edge' graph h hr => ?_
    obtain ⟨node, localPath, hregisters⟩ := ContextGraph.registers_of_register rfl hr
    obtain ⟨-, chain, rfl⟩ := ContextGraph.registerEdgeSymbols_spec hr
    exact ⟨rfl, rfl, rfl, fun _ => ⟨node, localPath, hregisters.congr (hresolve h)
      (Ctx.nodeCelltype_of_outline h.rewires.outline.symm)⟩, fun hne => absurd hchain hne⟩
  · refine Triple.inspect (inspects_resolve _) (fun _ h => h) fun source => Triple.get_bind fun ctx => ?_
    refine Triple.assume (c := EdgesCopied s t start nodes inside ctx ∧
      ctx.graph.resolveExisting (edge.copy s t).source = some source) (fun _ h => h.1 ▸ h.2) fun hctx => ?_
    refine Triple.bind (R := fun _ => EdgesCopied s t start nodes inside)
      (Triple.modify fun ctx' h => ?_) fun _ => triple_appendCopy fun ctx' edge' graph h hr => ?_
    · obtain ⟨rfl, h, -⟩ := h
      exact h.symbols (ContextGraph.sameGraph_assignChainFrom env _ _ _)
    · set links := edge.sourceChain.map fun recipe => (recipe.celltype, recipe.path) with hlinks
      have hrecorded := ContextGraph.links_assignChainFrom env links ctx.graph (.node source.1)
      have hsome : (ctx.graph.assignChain env source.1 links).1 ≠ [] := fun hnil => by
        have hnone : links = [] := by
          rw [← hrecorded]
          exact List.map_eq_nil_iff.mpr hnil
        exact hchain (List.map_eq_nil_iff.mp hnone)
      obtain rfl := ContextGraph.register_chained hsome hr
      refine ⟨rfl, rfl, rfl, fun hnil => absurd hnil hchain, fun _ => ⟨hrecorded, source, ?_, ?_⟩⟩
      · rw [hresolve hctx.1]
        exact hctx.2
      · exact ContextGraph.startsAt_assignChain env ctx.graph _ links

/-- The loop copies the edges in turn, until one of them fails. -/
theorem triple_copyEdges (edges : List Edge) : ∀ inside,
    Triple (EdgesCopied s t start nodes inside) (edges.forM fun edge => copyEdge env s t edge)
      (fun _ ctx => ∃ done, done.Sublist (inside ++ edges) ∧ EdgesCopied s t start nodes done ctx)
      fun ctx => ∃ done, done.Sublist (inside ++ edges) ∧ EdgesCopied s t start nodes done ctx := by
  induction edges with
  | nil =>
    exact fun inside => Triple.pure fun _ h => ⟨inside, by simp, h⟩
  | cons edge edges ih =>
    intro inside
    refine Triple.bind ((triple_copyEdge edge).conseq (fun _ h => h) (fun _ _ h => h)
      fun ctx h => ⟨inside, List.sublist_append_left _ _, h⟩) fun _ => ?_
    simpa using ih (inside ++ [edge])

end Edges

/-! ## The whole copy -/

theorem mem_nodes_below {ctx : Ctx} {s : NodePath} {descendants : List NodePath}
    (h : ctx.graph.descendants s = some descendants) (p : NodePath) :
    p ∈ descendants ↔ p ∈ ctx.graph.nodes ∧ s <+: p := by
  rw [mem_descendants h, below_iff]

theorem moved_injective {s t p p' : NodePath} (hp : s <+: p) (hp' : s <+: p')
    (h : moved s t p = moved s t p') : p = p' := by
  rw [← origin_moved hp, h, origin_moved hp']

/-- After the nodes have been copied. -/
theorem copyNodes_spec (env : Substrate) (s t : NodePath) {start ctx : Ctx}
    (hstart : Rewires start ctx start.outline start.graph.edges) {descendants : List NodePath}
    (hd : ctx.graph.descendants s = some descendants) :
    Copying s t start (descendants.foldl (Ctx.copyNode env s t) ctx) ∧
      (descendants.foldl (Ctx.copyNode env s t) ctx).graph.edges = start.graph.edges := by
  have hmem : ∀ p, p ∈ descendants ↔ p ∈ start.graph.nodes ∧ s <+: p := fun p => by
    rw [mem_nodes_below hd, mem_nodes_iff_outline, hstart.outline, ← mem_nodes_iff_outline]
  have hctx : Rewires start ctx ctx.outline start.graph.edges := hstart.outline ▸ hstart
  obtain ⟨ctx', rfl, hr, hother, hcopied⟩ := rewires_copyNodes env s t descendants start ctx
    hctx (fun p hp => ((mem_nodes_below hd p).mp hp).1)
  refine ⟨⟨⟨⟨rfl, rfl, hr.unsettled⟩, hr.reasons⟩, fun q hq => ?_,
    fun hfree p hp hsp => ?_, [], [], List.nil_sublist _, List.Forall₂.nil, ?_⟩, hr.edges⟩
  · rw [hother q fun p hp => hq p ((hmem p).mp hp).1 ((hmem p).mp hp).2, hstart.outline]
  · rw [hcopied ?_ ?_ p ((hmem p).mpr ⟨hp, hsp⟩), hstart.outline]
    · intro a ha b hb hab
      obtain ⟨ha, hsa⟩ := (hmem a).mp ha
      exact hfree a ha hsa (hab ▸ ((hmem b).mp hb).1)
    · exact fun a ha b hb hab =>
        moved_injective ((hmem a).mp ha).2 ((hmem b).mp hb).2 hab
  · rw [hr.edges, List.append_nil]

/-- A copy fails before the nodes are copied, or it copies the nodes and some edges. -/
theorem copySubcontext_cases (env : Substrate) (lim : Limits) (s t : NodePath) (start : Ctx) :
    ∃ ctx, (Rewires start ctx start.outline start.graph.edges ∨ Copying s t start ctx) ∧
      Moves env lim ctx (finalState (copySubcontext env s t start)) := by
  -- what the derivation at the end starts from
  let J : Ctx → Prop := fun ctx =>
    Rewires start ctx start.outline start.graph.edges ∨ Copying s t start ctx
  suffices h : Triple (· = start) (copySubcontext env s t)
      (fun _ ctx' => ∃ ctx, J ctx ∧ Moves env lim ctx ctx')
      fun ctx' => ∃ ctx, J ctx ∧ Moves env lim ctx ctx' by
    have := h start rfl
    cases hr : copySubcontext env s t start with
    | ok a ctx' => rw [hr] at this; exact this
    | error e ctx' => rw [hr] at this; exact this
  have hrefl : ∀ ctx, J ctx → ∃ mid, J mid ∧ Moves env lim mid ctx :=
    fun ctx h => ⟨ctx, h, ReflTransGen.refl⟩
  refine Triple.bind (R := fun _ ctx => Rewires start ctx start.outline start.graph.edges)
    (Triple.modify fun ctx hctx => ?_) fun _ => ?_
  · subst hctx
    exact .rewire rfl rfl
  refine Triple.inspect (inspects_sortedDescendants s) (fun ctx h => hrefl ctx (Or.inl h))
    fun descendants => ?_
  refine Triple.bind (R := fun _ ctx => Copying s t start ctx ∧
      ctx.graph.edges = start.graph.edges)
    (Triple.modify fun ctx h => copyNodes_spec env s t h.1 h.2) fun _ => Triple.get_bind fun nodes => ?_
  refine Triple.bind (R := fun _ => J) ?_ fun _ ctx hctx => ?_
  · refine Triple.assume (fun _ h => h.1 ▸ h.2) fun hnodes => ?_
    have copying : ∀ ctx, (∃ done, done.Sublist ([] ++ nodes.graph.edgesBelow s) ∧
        EdgesCopied s t start nodes done ctx) → J ctx := by
      rintro ctx ⟨done, hsub, hr, new, hnew, hedges⟩
      rw [List.nil_append, ContextGraph.edgesBelow, hnodes.2] at hsub
      refine Or.inr ⟨⟨⟨rfl, rfl, hr.unsettled⟩, hr.reasons⟩, fun q hq => ?_,
        fun hfree p hp hsp => ?_, done, new, hsub, hnew.imp fun _ _ h => h.of_outline hr.outline, hedges⟩
      · rw [hr.outline, hnodes.1.other q hq]
      · rw [hr.outline, hnodes.1.copied hfree p hp hsp]
    refine (triple_copyEdges (nodes.graph.edgesBelow s) []).conseq (fun ctx h => ?_)
      (fun _ ctx h => copying ctx h) fun ctx h => hrefl ctx (copying ctx h)
    obtain ⟨rfl, hcopying, hedges⟩ := h
    exact ⟨hcopying.rewires, [], List.Forall₂.nil, by rw [hedges, List.append_nil]⟩
  · have hmove : ∀ ctx', Moves env lim ctx ctx' → ∃ mid, J mid ∧ Moves env lim mid ctx' :=
      fun ctx' h => ⟨ctx, hctx, h⟩
    have := @moving_deriveAll env lim ctx ctx ReflTransGen.refl
    cases hr : deriveAll env ctx with
    | ok a ctx' => rw [hr] at this; exact hmove ctx' this
    | error e ctx' => rw [hr] at this; exact hmove ctx' this

end SeamlessWorkflow
