import SeamlessWorkflow.Proofs.Publications

/-!
# What the description of an edge needs

An edge without a chain reads a whole node, and a source with a slice in it is written through the links
of its chain, of which there are two at least. So slices are written in the paths of anonymous links only,
as long as there is none in the path of a node.
-/

namespace SeamlessWorkflow

open Program Relation Wiring

/-! ## Paths without slices -/

theorem Path.plain_append {p q : Path} : Path.plain (p ++ q) = true ↔ p.plain = true ∧ q.plain = true := by
  unfold Path.plain
  rw [List.all_append, Bool.and_eq_true]

theorem Path.plain_drop {p : Path} (h : p.plain = true) (n : Nat) : Path.plain (p.drop n) = true := by
  rw [← List.take_append_drop n p, Path.plain_append] at h
  exact h.2

theorem plain_moved {s t p : NodePath} (ht : t.plain = true) (hp : p.plain = true) :
    Path.plain (moved s t p) = true :=
  Path.plain_append.mpr ⟨ht, Path.plain_drop hp s.length⟩

/-! ## The number of links -/

/-- A conversion is a link of its own. -/
theorem exists_conversion {steps : List ConversionStep} (h : steps ≠ []) (celltype : Celltype)
    (localPath : Path) : ∃ converted, (converted, []) ∈ anonymousLinks celltype localPath steps := by
  unfold anonymousLinks
  cases hsorted : sortedSteps steps with
  | nil =>
    have hlength := (List.perm_insertionSort (fun a b : ConversionStep => a.1 ≤ b.1) steps).length_eq
    rw [show steps.insertionSort (fun a b => a.1 ≤ b.1) = [] from hsorted] at hlength
    exact absurd (List.length_eq_zero_iff.mp hlength.symm) h
  | cons step steps =>
    obtain ⟨position, converted⟩ := step
    exact ⟨converted, List.mem_append_right _ (List.mem_cons_self ..)⟩

/-- A path with conversions has two links at least. -/
theorem two_le_anonymousLinks {steps : List ConversionStep} {localPath : Path} (hsteps : steps ≠ [])
    (hpath : localPath ≠ []) (celltype : Celltype) :
    2 ≤ (anonymousLinks celltype localPath steps).length := by
  obtain ⟨converted, hmem⟩ := exists_conversion hsteps celltype localPath
  have hpaths := flatMap_anonymousLinks celltype localPath steps
  generalize anonymousLinks celltype localPath steps = links at hmem hpaths
  match links with
  | [] => exact absurd hmem List.not_mem_nil
  | [link] =>
    obtain rfl := List.mem_singleton.mp hmem
    exact absurd hpaths.symm hpath
  | _ :: _ :: _ => exact Nat.le_add_left 2 _

/-! ## Edges -/

/-- An edge without a chain reads a whole node without a conversion; a source with a slice in it has two
links at least; the node that a chain starts at has no slice in its path. -/
structure Edge.Spelled (g : ContextGraph) (edge : Edge) : Prop where
  whole : edge.sourceChain = [] → edge.sourceConversion = false ∧ edge.source ∈ g.nodes
  linked : edge.source.plain = true ∨ 2 ≤ edge.sourceChain.length
  chain : ∀ recipe ∈ edge.sourceChain, recipe.source.plain = true

/-- No path of a node has a slice in it, and the edges are spelled. -/
structure ContextGraph.Spelled (g : ContextGraph) : Prop where
  nodes : ∀ p ∈ g.nodes, p.plain = true
  edges : ∀ edge ∈ g.edges, edge.Spelled g

theorem Edge.Spelled.mono {g g' : ContextGraph} {edge : Edge} (h : edge.Spelled g)
    (hnodes : edge.source ∈ g.nodes → edge.source ∈ g'.nodes) : edge.Spelled g' where
  whole hchain := (h.whole hchain).imp_right hnodes
  linked := h.linked
  chain := h.chain

theorem StartsAt.plain {chain : List Recipe} {node : NodePath} (h : StartsAt chain node)
    (hnode : node.plain = true) : ∀ recipe ∈ chain, recipe.source.plain = true := by
  cases chain with
  | nil => exact fun _ hrecipe => absurd hrecipe List.not_mem_nil
  | cons first rest =>
    intro recipe hrecipe
    rcases List.mem_cons.mp hrecipe with rfl | hrest
    · rw [h.head recipe rfl]
      exact hnode
    · obtain ⟨name, hname⟩ := h.behind recipe hrest
      rw [hname]
      rfl

/-- An edge is spelled when its links are recorded, if a slice in its source comes with a conversion. -/
theorem ContextGraph.Registers.spelled {g : ContextGraph} {edge : Edge} {node : NodePath}
    {localPath : Path} (h : g.Registers edge node localPath) (hnodes : ∀ p ∈ g.nodes, p.plain = true)
    (hconverts : edge.source.plain = true ∨ edge.sourceConversion = true) : edge.Spelled g := by
  have hflat : node ++ localPath = edge.source := (LongestPrefix.reads_of_split h.resolved).flat
  have hstands : node ∈ g.nodes := ContextGraph.resolveExisting_mem h.resolved
  have hsteps : edge.sourceConversion = true → conversionSteps edge localPath
      (edge.sourceCelltype.getD (g.nodeCelltype node)) ≠ [] := fun hconversion => by
    unfold conversionSteps
    rw [if_pos hconversion]
    split
    · assumption
    · exact List.cons_ne_nil _ _
  refine ⟨fun hchain => ?_, ?_, h.starts.plain (hnodes node hstands)⟩
  · have hlinks := h.links
    rw [hchain, List.map_nil] at hlinks
    have hpath := flatMap_anonymousLinks (g.nodeCelltype node) localPath (conversionSteps edge localPath
      (edge.sourceCelltype.getD (g.nodeCelltype node)))
    rw [← hlinks, List.flatMap_nil] at hpath
    refine ⟨Bool.eq_false_iff.mpr fun hconversion => ?_, ?_⟩
    · obtain ⟨converted, hmem⟩ := exists_conversion (hsteps hconversion) (g.nodeCelltype node) localPath
      rw [← hlinks] at hmem
      exact absurd hmem List.not_mem_nil
    · rw [← hflat, ← hpath, List.append_nil]
      exact hstands
  · by_cases hplain : edge.source.plain = true
    · exact Or.inl hplain
    · have hpath : localPath ≠ [] := by
        rintro rfl
        rw [← hflat, List.append_nil] at hplain
        exact hplain (hnodes node hstands)
      have hlength := two_le_anonymousLinks (hsteps (hconverts.resolve_left hplain)) hpath
        (g.nodeCelltype node)
      rw [← h.links, List.length_map] at hlength
      exact Or.inr hlength

/-! ## Moves -/

/-- What a turn may do to a graph whose edges are spelled. -/
structure Limits.Spells (lim : Limits) : Prop where
  creates : ∀ ctx p, lim.creates ctx p → p.plain = true
  wires : ∀ source target recipe, lim.wires source target recipe →
    source.flat.plain = true ∨ recipe.conversion = true
  copies : ∀ ctx s t, lim.copies ctx s t → t.plain = true ∧ ctx.graph.CopiesApart s t
  loads : ∀ g, lim.loads g → g.Spelled

section Moves

variable {env : Substrate} {lim : Limits} {ctx ctx' : Ctx}

/-- Fewer edges, among the same nodes. -/
theorem ContextGraph.Spelled.of_outline (h : ctx.graph.Spelled) (ho : ctx'.outline = ctx.outline)
    (he : ∀ edge ∈ ctx'.graph.edges, edge ∈ ctx.graph.edges) : ctx'.graph.Spelled where
  nodes p hp := h.nodes p (by rwa [mem_nodes_iff_outline, ho, ← mem_nodes_iff_outline] at hp)
  edges edge hedge := (h.edges edge (he edge hedge)).mono fun hp => by
    rwa [mem_nodes_iff_outline, ho, ← mem_nodes_iff_outline]

/-- A node is put at a path, and edges may be dropped. -/
theorem ContextGraph.Spelled.of_update {path : NodePath} {node : Outline} (h : ctx.graph.Spelled)
    (hpath : path.plain = true) (ho : ctx'.outline = Function.update ctx.outline path (some node))
    (he : ∀ edge ∈ ctx'.graph.edges, edge ∈ ctx.graph.edges) : ctx'.graph.Spelled where
  nodes p hp := by
    by_cases hq : p = path
    · exact hq ▸ hpath
    · rw [mem_nodes_iff_outline, ho, Function.update_of_ne hq, ← mem_nodes_iff_outline] at hp
      exact h.nodes p hp
  edges edge hedge := (h.edges edge (he edge hedge)).mono (mem_nodes_of_update ho)

theorem mem_nodes_of_some {path : NodePath} {node : Outline} (h : ctx.outline path = some node) :
    path ∈ ctx.graph.nodes := by
  rw [mem_nodes_iff_outline, h]
  rfl

/-- A move keeps the edges spelled, when the copies of its limits do. -/
theorem Move.spelled (h : Move env lim ctx ctx') (hk : lim.Spells)
    (hcopies : ∀ s t, lim.copies ctx s t → (finalState (copySubcontext env s t ctx)).graph.Spelled)
    (hs : ctx.graph.Spelled) : ctx'.graph.Spelled := by
  cases h with
  | quiet h => exact hs.of_outline h.outline fun edge hedge => h.edges ▸ hedge
  | edit h => exact hs.of_outline h.outline fun edge hedge => h.edges ▸ hedge
  | derive hsort hr =>
    refine hs.of_outline (outline_deriveGraph env _ ctx) fun edge hedge => ?_
    rw [edges_deriveGraph] at hedge
    exact hedge
  | raise hr =>
    refine hs.of_outline (outline_raised hr) fun edge hedge => ?_
    rw [edges_raised hr] at hedge
    exact hedge
  | drop keep h =>
    refine hs.of_outline h.outline fun edge hedge => ?_
    rw [h.edges] at hedge
    exact (List.mem_filter.mp hedge).1
  | recast hn ht h =>
    exact hs.of_update (hs.nodes _ (mem_nodes_of_some hn)) h.outline fun edge hedge => h.edges ▸ hedge
  | connect hg hr h =>
    obtain ⟨plain, graph, hplain, hregister⟩ := hr.registered
    obtain ⟨node, localPath, hregisters⟩ := ContextGraph.registers_of_register hplain hregister
    have hnew := hregisters.spelled hs.nodes (by
      rw [Edge.sourceFlat]
      exact hk.wires _ _ _ hr.wires)
    refine ⟨fun p hp => ?_, fun edge hedge => ?_⟩
    · rw [mem_nodes_iff_outline, h.outline, ← mem_nodes_iff_outline] at hp
      exact hs.nodes p hp
    · rw [h.edges] at hedge
      refine Edge.Spelled.mono (g := ctx.graph) ?_ (mem_nodes_of_outline h.outline)
      rcases List.mem_append.mp hedge with hold | hlast
      · exact hs.edges edge hold
      · rw [List.mem_singleton.mp hlast]
        exact hnew
  | create hp hc h =>
    exact hs.of_update (hk.creates _ _ hc) h.outline fun edge hedge => h.edges ▸ hedge
  | remove path hr h =>
    refine ⟨fun p hp => ?_, fun edge hedge => ?_⟩
    · rw [mem_nodes_iff_outline, h.outline] at hp
      dsimp only at hp
      split at hp
      · cases hp
      · exact hs.nodes p (mem_nodes_iff_outline.mpr hp)
    · rw [h.edges] at hedge
      obtain ⟨hold, hkeep⟩ := List.mem_filter.mp hedge
      rw [Bool.and_eq_true, Bool.not_eq_true'] at hkeep
      refine (hs.edges edge hold).mono fun hin => ?_
      rw [mem_nodes_iff_outline, h.outline]
      dsimp only
      rw [hkeep.1, if_neg Bool.false_ne_true, ← mem_nodes_iff_outline]
      exact hin
  | retype hn ht h =>
    refine hs.of_update (hs.nodes _ (mem_nodes_of_some hn)) h.outline fun edge hedge => ?_
    rw [h.edges] at hedge
    exact (List.mem_filter.mp hedge).1
  | copy hc => exact hcopies _ _ hc
  | @load _ graph hl h hkind _ =>
    have hmem : ∀ p, p ∈ ctx'.graph.nodes ↔ p ∈ graph.nodes := fun p => by
      rw [mem_nodes_iff_outline, ← AList.lookup_isSome, ← Option.isSome_map (f := Outline.kind), hkind,
        Option.isSome_map]
    exact ⟨fun p hp => (hk.loads _ hl).nodes p ((hmem p).mp hp), fun edge hedge =>
      ((hk.loads _ hl).edges edge (h.edges ▸ hedge)).mono (hmem _).mpr⟩
  | deliver hd =>
    refine hs.of_outline (outline_updateRun _ _ _ ctx) fun edge hedge => ?_
    rw [edges_updateRun] at hedge
    exact hedge

/-- A copied edge is spelled as the original is. -/
theorem CopyOf.spelled {s t : NodePath} {g : ContextGraph} {edge copied : Edge}
    (h : CopyOf s t g edge copied) (ht : t.plain = true) (hnodes : ∀ p ∈ g.nodes, p.plain = true)
    {start : ContextGraph} (hstart : ∀ p ∈ start.nodes, p.plain = true) (hs : edge.Spelled start) :
    copied.Spelled g := by
  have hsource : edge.source.plain = true → copied.source.plain = true := fun hplain => by
    rw [h.source_moved]
    exact plain_moved ht hplain
  by_cases hchain : edge.sourceChain = []
  · obtain ⟨node, localPath, hregisters⟩ := h.registered hchain
    exact hregisters.spelled hnodes (Or.inl (hsource (hstart _ (hs.whole hchain).2)))
  · obtain ⟨hlinks, r, hr, hstarts⟩ := h.chained hchain
    have hlength := congrArg List.length hlinks
    rw [List.length_map, List.length_map] at hlength
    refine ⟨fun hnone => ?_, hs.linked.imp hsource fun hlong => hlength ▸ hlong,
      hstarts.plain (hnodes _ (ContextGraph.resolveExisting_mem hr))⟩
    rw [hnone, List.length_nil] at hlength
    exact absurd (List.length_eq_zero_iff.mp hlength.symm) hchain

theorem Limits.spells_message {delivers : NodePath → Nat → (RunRecord → RunRecord) → Prop} :
    (Limits.message delivers).Spells :=
  ⟨fun _ _ => False.elim, fun _ _ _ => False.elim, fun _ _ _ => False.elim, fun _ => False.elim⟩

/-- A message about a run keeps the edges spelled. -/
theorem message_spelled {delivers : NodePath → Nat → (RunRecord → RunRecord) → Prop}
    (h : Moves env (.message delivers) ctx ctx') (hs : ctx.graph.Spelled) : ctx'.graph.Spelled := by
  induction h with
  | refl => exact hs
  | tail _ hmove ih => exact hmove.spelled Limits.spells_message (fun _ _ => False.elim) ih

/-- A namespace copy apart from everything else keeps the edges spelled. -/
theorem spelled_copy {s t : NodePath} (ht : t.plain = true) (hapart : ctx.graph.CopiesApart s t)
    (hs : ctx.graph.Spelled) :
    (finalState (copySubcontext env s t ctx)).graph.Spelled := by
  obtain ⟨mid, hmid, hmoves⟩ := copySubcontext_cases env (.message fun _ _ _ => False) s t ctx
  have hmid : mid.graph.Spelled := by
    rcases hmid with h | h
    · exact hs.of_outline h.outline fun edge hedge => h.edges ▸ hedge
    · have hnodes : ∀ p ∈ mid.graph.nodes, p.plain = true := fun p hp => by
        by_cases hcopied : ∃ q ∈ ctx.graph.nodes, s <+: q ∧ moved s t q = p
        · obtain ⟨q, hq, -, rfl⟩ := hcopied
          exact plain_moved ht (hs.nodes q hq)
        · rw [mem_nodes_iff_outline, h.other p fun q hq hsq hqp => hcopied ⟨q, hq, hsq, hqp⟩,
            ← mem_nodes_iff_outline] at hp
          exact hs.nodes p hp
      refine ⟨hnodes, fun edge hedge => ?_⟩
      obtain ⟨inside, new, hsub, hnew, hedges⟩ := h.edges
      rw [hedges] at hedge
      rcases List.mem_append.mp hedge with hold | hcopied
      · refine (hs.edges edge hold).mono fun hin => ?_
        rw [mem_nodes_iff_outline, h.other _ fun p hp hsp hpq => hapart.free p hp hsp ?_]
        · exact mem_nodes_iff_outline.mp hin
        · exact (show moved s t p ∈ _ from hpq ▸ hin)
      · obtain ⟨original, hin, hcopy⟩ := exists_related hnew hcopied
        exact hcopy.spelled ht hnodes hs.nodes
          (hs.edges original (mem_edgesBelow.mp (hsub.subset hin)).1)
  exact message_spelled hmoves hmid

/-- The moves of a turn keep the edges spelled. -/
theorem Moves.spelled (h : Moves env lim ctx ctx') (hk : lim.Spells) (hs : ctx.graph.Spelled) :
    ctx'.graph.Spelled := by
  induction h with
  | refl => exact hs
  | tail _ hmove ih => exact hmove.spelled hk (fun s t hc =>
      spelled_copy (hk.copies _ s t hc).1 (hk.copies _ s t hc).2 ih) ih

end Moves

/-! ## Documents -/

/-- The flattened path that the source of a connection reads. -/
def Document.sourcePath (doc : Document) (source : ConnectionSource) : Option ViewPath :=
  match source with
  | .flat path => some path
  | source => (doc.reference source).map Place.flat

/-- Does a connection convert, or read its source through two links at least? -/
def Document.readsLinked (doc : Document) (source : ConnectionSource) : Bool :=
  match source with
  | .flat _ => false
  | .node _ _ steps => !steps.isEmpty
  | .symbol name sourcePath =>
    !sourcePath.isEmpty || (doc.anonymousNodes.lookup name).any fun entry => entry.source.isSymbol

/-- There is no slice in what the source of a connection reads, or the connection reads it through two
links at least. -/
def Document.spellsSource (doc : Document) (source : ConnectionSource) : Bool :=
  (doc.sourcePath source).all Path.plain || doc.readsLinked source

/-- No path of a node has a slice in it, and the sources of the connections are spelled. -/
structure Document.Spelled (doc : Document) : Prop where
  nodes : ∀ entry ∈ doc.nodes, entry.path.plain = true
  sources : ∀ connection ∈ doc.connections, doc.spellsSource connection.source = true

instance (doc : Document) : Decidable doc.Spelled :=
  decidable_of_iff ((∀ entry ∈ doc.nodes, entry.path.plain = true) ∧
      ∀ connection ∈ doc.connections, doc.spellsSource connection.source = true)
    ⟨fun h => ⟨h.1, h.2⟩, fun h => ⟨h.nodes, h.sources⟩⟩

/-- An edge that is read from a document is spelled by its chain, or gets a chain that spells it. -/
structure Edge.LoadedSpelled (g : ContextGraph) (edge : Edge) : Prop where
  nodes : ∀ p ∈ g.nodes, p.plain = true
  direct : edge.sourceChain = [] → edge.source.plain = true ∨ edge.sourceConversion = true
  chained : edge.sourceChain ≠ [] → edge.Spelled g

theorem connectionEdge_sourcePath {doc : Document} {g : ContextGraph} {entry : ConnectionEntry}
    {edge : Edge} (h : connectionEdge doc g entry = .ok edge) :
    doc.sourcePath entry.source = some edge.source := by
  unfold Document.sourcePath
  obtain ⟨-, -, hplace⟩ := connectionEdge_ok h
  rcases hplace with ⟨path, hs, hplace⟩ | hplace
  · rw [hs]
    dsimp only
    rw [edge.sourceFlat, hplace, ← g.placeOf_flat]
  · cases hs : entry.source with
    | flat path =>
      rw [hs] at hplace
      cases hplace
    | node path sourcePath steps =>
      rw [hs] at hplace
      rw [edge.sourceFlat, ← Option.some.inj hplace]
      rfl
    | symbol name sourcePath =>
      rw [hs] at hplace
      dsimp only
      rw [hplace, edge.sourceFlat]
      rfl

theorem connectionEdge_loadedSpelled {env : Substrate} {doc : Document} {g : ContextGraph}
    {entry : ConnectionEntry} {edge : Edge} (hprepared : NodesPrepared env doc g) (hdoc : doc.Spelled)
    (hspells : doc.spellsSource entry.source = true) (h : connectionEdge doc g entry = .ok edge) :
    edge.LoadedSpelled g := by
  have hnodes : ∀ p ∈ g.nodes, p.plain = true := fun p hp => by
    obtain ⟨item, hitem, rfl⟩ := hprepared.mem p hp
    exact hdoc.nodes item hitem
  have hpath := connectionEdge_sourcePath h
  have hspells : edge.source.plain = true ∨ doc.readsLinked entry.source = true := by
    unfold Document.spellsSource at hspells
    rwa [hpath, Bool.or_eq_true] at hspells
  unfold Document.readsLinked at hspells
  unfold connectionEdge at h
  dsimp only at h
  split at h
  · rename_i path hs
    rw [hs] at hspells
    cases h
    exact ⟨hnodes, fun _ => Or.inl (hspells.resolve_right Bool.false_ne_true),
      fun hchain => absurd rfl hchain⟩
  · rename_i path sourcePath steps hs
    rw [hs] at hspells
    split at h
    · rename_i hsteps
      cases h
      rw [hsteps] at hspells
      exact ⟨hnodes, fun _ => Or.inl (hspells.resolve_right Bool.false_ne_true),
        fun hchain => absurd rfl hchain⟩
    · cases h
      exact ⟨hnodes, fun _ => Or.inr rfl, fun hchain => absurd rfl hchain⟩
  · rename_i name sourcePath hs
    rw [hs] at hspells
    obtain ⟨resolved, hr, h⟩ := bind_ok h
    obtain ⟨last, hlast, hstart⟩ := resolveAnonymous_starts hr
    obtain ⟨item, hitem, hread⟩ := hstart.reads
    have hnode : resolved.node.plain = true := hnodes _ (hprepared.reads item hitem _ hread)
    cases h
    by_cases hsourcePath : sourcePath = []
    · have hchain : ∀ {chain : List Recipe}, (if sourcePath = [] then resolved.chain else chain) =
          resolved.chain := fun {_} => if_pos hsourcePath
      refine ⟨hnodes, fun hnone => absurd (hchain.symm.trans hnone) hstart.nonempty, fun _ =>
        ⟨fun hnone => absurd (hchain.symm.trans hnone) hstart.nonempty, ?_, ?_⟩⟩
      · dsimp only
        rw [hchain]
        refine hspells.imp id fun hlong => hstart.linked ?_
        dsimp only at hlong
        rw [hsourcePath, hlast] at hlong
        exact hlong
      · dsimp only
        rw [hchain]
        exact hstart.starts.plain hnode
    · have hchain : ∀ {chain : List Recipe}, (if sourcePath = [] then chain else resolved.chain ++
          [⟨.symbol name, projectedCelltype resolved.celltype sourcePath, sourcePath⟩]) = resolved.chain ++
          [⟨.symbol name, projectedCelltype resolved.celltype sourcePath, sourcePath⟩] :=
        fun {_} => if_neg hsourcePath
      have hne : resolved.chain ++ [(⟨.symbol name, projectedCelltype resolved.celltype sourcePath,
          sourcePath⟩ : Recipe)] ≠ [] := List.append_ne_nil_of_right_ne_nil _ (List.cons_ne_nil _ _)
      refine ⟨hnodes, fun hnone => absurd (hchain.symm.trans hnone) hne, fun _ =>
        ⟨fun hnone => absurd (hchain.symm.trans hnone) hne, Or.inr ?_, ?_⟩⟩
      · dsimp only
        rw [hchain, List.length_append, List.length_singleton]
        exact Nat.succ_le_succ (List.length_pos_iff.mpr hstart.nonempty)
      · dsimp only
        rw [hchain]
        exact (hstart.starts.concat hstart.nonempty _ _ _).plain hnode

/-- Registering an edge that comes from a document spells it. -/
theorem Edge.LoadedSpelled.register {env : Substrate} {g g' : ContextGraph} {edge edge' : Edge}
    (h : edge.LoadedSpelled g) (hr : g.registerEdgeSymbols env edge = some (edge', g')) :
    edge'.Spelled g := by
  by_cases hchain : edge.sourceChain = []
  · obtain ⟨node, localPath, hregisters⟩ := ContextGraph.registers_of_register hchain hr
    obtain ⟨-, chain, rfl⟩ := ContextGraph.registerEdgeSymbols_spec hr
    exact hregisters.spelled h.nodes (h.direct hchain)
  · obtain rfl := ContextGraph.register_chained hchain hr
    exact h.chained hchain

/-- A graph that is loaded from a spelled document is spelled. -/
theorem prepareGraph_spelled {env : Substrate} {doc : Document} {g : ContextGraph} (hdoc : doc.Spelled)
    (h : prepareGraph env doc = .ok g) : g.Spelled where
  nodes p hp := by
    obtain ⟨item, hitem, rfl⟩ := ((prepareGraph_spec h).mem p).mp hp
    exact hdoc.nodes item hitem
  edges := by
    refine prepareGraph_edges (P := fun g edge => edge.LoadedSpelled g) (Q := fun g edge => edge.Spelled g)
      (fun hnodes hloaded => ⟨hnodes ▸ hloaded.nodes, hloaded.direct, fun hchain =>
        (hloaded.chained hchain).mono (hnodes ▸ id)⟩)
      (fun hnodes hspelled => hspelled.mono (hnodes ▸ id))
      (fun g hprepared entry hentry edge deepMember hedge => ?_) (fun hloaded hr => hloaded.register hr) h
    have hloaded := connectionEdge_loadedSpelled hprepared hdoc (hdoc.sources entry hentry) hedge
    exact ⟨hloaded.nodes, hloaded.direct, fun hchain =>
      ⟨(hloaded.chained hchain).whole, (hloaded.chained hchain).linked, (hloaded.chained hchain).chain⟩⟩

end SeamlessWorkflow
