import SeamlessWorkflow.Proofs.LoadedChains
import SeamlessWorkflow.Proofs.SourcedGraphs

/-!
# The recorded chains of every reachable graph

An edge is read as it was wired for as long as its source resolves to the node that its chain starts
at, and this node stays deep where the chain reads below a deep step. So the chains hold in every run
in which no node takes over a source that is in use, no such node is retyped, copies are put apart from
everything else, and the chains of the loaded documents are those that live wiring records.
-/

namespace SeamlessWorkflow

open Program Relation Wiring

/-! ## What a source resolves to -/

namespace ContextGraph

variable {g g' : ContextGraph}

/-- A node at `p` takes over what a path resolves to. -/
def Captures (g : ContextGraph) (p : NodePath) (path : ViewPath) : Prop :=
  ∃ r ∈ g.resolveExisting path, p <+: path ∧ r.1.length < p.length

/-- A path resolves as before when its node stays and no longer node is on its way. -/
theorem resolveExisting_stays {path : ViewPath} {r : NodePath × Path}
    (hr : g.resolveExisting path = some r) (hn : r.1 ∈ g'.nodes)
    (hlong : ∀ p ∈ g'.nodes, p <+: path → p.length ≤ r.1.length) :
    g'.resolveExisting path = some r := by
  have hreads := LongestPrefix.reads_of_split hr
  refine LongestPrefix.split_eq_some_iff.mpr ⟨hreads.nonempty, decide_eq_true hn, hreads.flat, ?_⟩
  exact fun p hp hway => hlong p (of_decide_eq_true hp) hway

/-- No node is longer on the way of a path than the one that it resolves to. -/
theorem length_le_of_resolves {path : ViewPath} {r : NodePath × Path}
    (hr : g.resolveExisting path = some r) {p : NodePath} (hp : p ∈ g.nodes) (hway : p <+: path) :
    p.length ≤ r.1.length :=
  (LongestPrefix.reads_of_split hr).longest p (decide_eq_true hp) hway

/-- A path resolves as before after a node has been put that does not take it over. -/
theorem resolveExisting_put {path : ViewPath} (hsome : (g.resolveExisting path).isSome = true)
    {put : NodePath → Prop} (hnodes : ∀ p, p ∈ g.nodes → p ∈ g'.nodes)
    (hnew : ∀ p, p ∈ g'.nodes → p ∈ g.nodes ∨ put p) (hspared : ∀ p, put p → ¬ g.Captures p path) :
    g'.resolveExisting path = g.resolveExisting path := by
  obtain ⟨r, hr⟩ := Option.isSome_iff_exists.mp hsome
  rw [hr]
  refine resolveExisting_stays hr (hnodes _ (resolveExisting_mem hr)) fun p hp hway => ?_
  rcases hnew p hp with hold | hput
  · exact length_le_of_resolves hr hold hway
  · exact not_lt.mp fun hlonger => hspared p hput ⟨r, hr, hway, hlonger⟩

/-- A root node takes nothing over. -/
theorem not_captures_root {path : ViewPath} {p : NodePath} (hp : p.length ≤ 1) :
    ¬ g.Captures p path := by
  rintro ⟨r, hr, -, hlonger⟩
  have := List.length_pos_iff.mpr (LongestPrefix.reads_of_split hr).nonempty
  omega

end ContextGraph

/-! ## Edges in a turn -/

/-- A recipe converts exactly when it has conversions. -/
def EdgeRecipe.Converts (recipe : EdgeRecipe) : Prop :=
  recipe.conversion = true ↔ recipe.conversionSteps ≠ []

/-- An edge in a turn is read as it was wired. It resolves as it did at the start, or the turn has wired
it, or the turn retypes nothing. -/
structure Edge.Accounted (lim : Limits) (start g : ContextGraph) (edge : Edge) : Prop where
  sourced : (g.resolveExisting edge.source).isSome = true
  read : edge.ReadAsWired g
  origin : (edge ∈ start.edges ∧ g.resolveExisting edge.source = start.resolveExisting edge.source) ∨
    (∃ recipe, lim.wires edge.sourcePlace edge.targetPlace recipe) ∨ ∀ path celltype, ¬ lim.types path celltype

/-- The limits of a turn under which the chains are read as they were wired. -/
structure Limits.KeepsChains (lim : Limits) (start : Ctx) : Prop where
  creates : ∀ ctx p, lim.creates ctx p → p.length ≤ 1 ∨
    ctx = start ∧ ∀ edge ∈ start.graph.edges, ¬ start.graph.Captures p edge.source
  wires : ∀ source place recipe, lim.wires source place recipe → recipe.Converts
  types : ∀ path celltype, lim.types path celltype → celltype.isDeep = false →
    (∀ edge ∈ start.graph.edges, edge.ReadsBelowDeep →
      ∀ r ∈ start.graph.resolveExisting edge.source, r.1 ≠ path) ∧
    ∀ source place recipe, lim.wires source place recipe → path <+: source.flat →
      source.flat.length < path.length + 2
  copies : ∀ ctx s t, lim.copies ctx s t → ctx = start ∧ ctx.graph.CopiesApart s t ∧
    (∀ q ∈ ctx.graph.nodes, s <+: q → ∀ edge ∈ ctx.graph.edges,
      ¬ ctx.graph.Captures (moved s t q) edge.source) ∧ ∀ path celltype, ¬ lim.types path celltype
  loads : ∀ g, lim.loads g → (∀ edge ∈ g.edges, edge.ReadAsWired g) ∧ g.Sourced ∧
    ∀ path celltype, ¬ lim.types path celltype

theorem Limits.KeepsChains.gentle {lim : Limits} {start : Ctx} (h : lim.KeepsChains start) :
    lim.gentle.KeepsChains start where
  creates := h.creates
  wires := h.wires
  types := h.types
  copies _ _ _ hc := hc.elim
  loads _ hl := hl.elim

/-- A chain that reads below a deep step has two components at least. -/
theorem Edge.ReadsBelowDeep.two_le {edge : Edge} (h : edge.ReadsBelowDeep) :
    2 ≤ (edge.sourceChain.flatMap Recipe.path).length := by
  rw [← flatMap_link]
  unfold Edge.ReadsBelowDeep at h
  match hlinks : edge.sourceChain.map Recipe.link with
  | [] => rw [hlinks] at h; cases h
  | [_] => rw [hlinks] at h; cases h
  | first :: second :: rest =>
    rw [hlinks] at h
    unfold readsBelowDeep at h
    simp only [Bool.and_eq_true, Bool.not_eq_true', List.isEmpty_eq_false_iff] at h
    have hfirst := List.length_pos_iff.mpr h.1
    have hsecond := List.length_pos_iff.mpr h.2
    rw [List.flatMap_cons, List.flatMap_cons, List.length_append, List.length_append]
    omega

section Accounted

variable {env : Substrate} {lim : Limits} {start ctx ctx' : Ctx} {g g' : ContextGraph} {edge : Edge}

/-- An edge stays read as it was wired when it resolves as before, and what is deep stays deep. -/
theorem Edge.Accounted.stays {start : ContextGraph} (h : edge.Accounted lim start g)
    (hresolve : g'.resolveExisting edge.source = g.resolveExisting edge.source)
    (hdeep : ∀ r ∈ g.resolveExisting edge.source, edge.ReadsBelowDeep →
      (g.nodeCelltype r.1).isDeep = true → (g'.nodeCelltype r.1).isDeep = true) :
    edge.Accounted lim start g' where
  sourced := hresolve ▸ h.sourced
  read :=
    { formed := h.read.formed
      cut := h.read.cut
      localPath := hresolve ▸ h.read.localPath
      starts := hresolve ▸ h.read.starts
      deep := fun r hr hbelow =>
        hdeep r (hresolve ▸ hr) hbelow (h.read.deep r (hresolve ▸ hr) hbelow) }
  origin := h.origin.imp_left fun hold => ⟨hold.1, hresolve.trans hold.2⟩

theorem Edge.Accounted.of_outline {start : ContextGraph} (h : edge.Accounted lim start ctx.graph)
    (ho : ctx'.outline = ctx.outline) : edge.Accounted lim start ctx'.graph := by
  refine h.stays (congrFun (Ctx.resolveExisting_of_outline ho) _) fun r _ _ hdeep => ?_
  rw [Ctx.nodeCelltype_of_outline ho]
  exact hdeep

/-- The celltype of a node that keeps its outline. -/
theorem Ctx.nodeCelltype_congr {p q : NodePath} (h : (ctx'.outline p).map Outline.kind =
    (ctx.outline q).map Outline.kind) : ctx'.graph.nodeCelltype p = ctx.graph.nodeCelltype q := by
  have hcelltype := congrArg (Option.map Prod.snd) h
  rw [Option.map_map, Option.map_map] at hcelltype
  rw [Ctx.nodeCelltype_eq, Ctx.nodeCelltype_eq]
  exact congrArg (Option.getD · Celltype.mixed) hcelltype

/-- A node that is put keeps the edges whose source it does not take over. -/
theorem Edge.Accounted.put {start : ContextGraph} {path : NodePath} {node : Outline}
    (h : edge.Accounted lim start ctx.graph) (hnew : path ∉ ctx.graph.nodes)
    (ho : ctx'.outline = Function.update ctx.outline path (some node))
    (hspared : ¬ ctx.graph.Captures path edge.source) : edge.Accounted lim start ctx'.graph := by
  have hmem : ∀ p, p ∈ ctx'.graph.nodes → p ∈ ctx.graph.nodes ∨ p = path := fun p hp => by
    rw [mem_nodes_iff_outline, ho] at hp
    by_cases hpath : p = path
    · exact Or.inr hpath
    · rw [Function.update_of_ne hpath] at hp
      exact Or.inl (mem_nodes_iff_outline.mpr hp)
  refine h.stays (ContextGraph.resolveExisting_put h.sourced (fun _ => mem_nodes_of_update ho) hmem
    fun p hp => hp ▸ hspared) fun r hr _ hdeep => ?_
  have hother : r.1 ≠ path := fun hpath => hnew (hpath ▸ ContextGraph.resolveExisting_mem hr)
  have hsame : ctx'.outline r.1 = ctx.outline r.1 := by rw [ho, Function.update_of_ne hother]
  rw [Ctx.nodeCelltype_congr (congrArg (Option.map Outline.kind) hsame)]
  exact hdeep

/-- A node that gets another celltype keeps the edges, when it stays deep where they read below it. -/
theorem Edge.Accounted.retype {path : NodePath} {node : Outline} {celltype : Celltype}
    {isCell : Bool} (hk : lim.KeepsChains start) (h : edge.Accounted lim start.graph ctx.graph)
    (hnode : ctx.outline path = some node) (ht : lim.types path celltype)
    (ho : ctx'.outline = Function.update ctx.outline path (some ⟨isCell, node.ident, celltype⟩)) :
    edge.Accounted lim start.graph ctx'.graph := by
  have hstands : path ∈ ctx.graph.nodes := by
    rw [mem_nodes_iff_outline, hnode]
    rfl
  have hmem : ∀ p, p ∈ ctx'.graph.nodes ↔ p ∈ ctx.graph.nodes := fun p => by
    rw [mem_nodes_iff_outline, mem_nodes_iff_outline, ho]
    by_cases hpath : p = path
    · rw [hpath, Function.update_self, hnode]
      rfl
    · rw [Function.update_of_ne hpath]
  refine h.stays (congrFun (ContextGraph.resolveExisting_congr hmem) _) fun r hr hbelow hdeep => ?_
  by_cases hpath : r.1 = path
  · rw [Ctx.nodeCelltype_eq, ho, hpath, Function.update_self]
    show celltype.isDeep = true
    by_contra hshallow
    obtain ⟨hold, hwires⟩ := hk.types path celltype ht (by simpa using hshallow)
    rcases h.origin with ⟨hedge, hsame⟩ | ⟨recipe, hwired⟩ | hnone
    · exact hold edge hedge hbelow r (hsame ▸ hr) hpath
    · -- the path of the chain has two components at least
      have hflat : r.1 ++ r.2 = edge.source := (LongestPrefix.reads_of_split hr).flat
      have hlength := hbelow.two_le
      rw [h.read.localPath r hr] at hlength
      have hshort := hwires _ _ recipe hwired (by
        rw [← edge.sourceFlat, ← hflat, hpath]
        exact List.prefix_append _ _)
      rw [← edge.sourceFlat, ← hflat, hpath, List.length_append] at hshort
      omega
    · exact hnone path celltype ht
  · have hsame : ctx'.outline r.1 = ctx.outline r.1 := by rw [ho, Function.update_of_ne hpath]
    rw [Ctx.nodeCelltype_congr (congrArg (Option.map Outline.kind) hsame)]
    exact hdeep

/-- A node that is not removed keeps the edges from it. -/
theorem Edge.Accounted.remove {start : ContextGraph} {path : NodePath}
    (h : edge.Accounted lim start ctx.graph) (hkeep : below path edge.source = false)
    (ho : ctx'.outline = fun q => if below path q then none else ctx.outline q) :
    edge.Accounted lim start ctx'.graph := by
  have hmem : ∀ p ∈ ctx'.graph.nodes, p ∈ ctx.graph.nodes := fun p hp => by
    rw [mem_nodes_iff_outline, ho] at hp
    dsimp only at hp
    split at hp
    · cases hp
    · exact mem_nodes_iff_outline.mpr hp
  have hstays : ∀ r ∈ ctx.graph.resolveExisting edge.source,
      ctx'.outline r.1 = ctx.outline r.1 := fun r hr => by
    have hway : r.1 <+: edge.source := ⟨r.2, (LongestPrefix.reads_of_split hr).flat⟩
    have hoff : ¬ below path r.1 = true := fun hbelow => by
      rw [below_iff.mpr ((below_iff.mp hbelow).trans hway)] at hkeep
      cases hkeep
    rw [ho]
    exact if_neg hoff
  refine h.stays ?_ fun r hr _ hdeep => ?_
  · obtain ⟨r, hr⟩ := Option.isSome_iff_exists.mp h.sourced
    rw [hr]
    refine ContextGraph.resolveExisting_stays hr ?_ fun p hp =>
      ContextGraph.length_le_of_resolves hr (hmem p hp)
    rw [mem_nodes_iff_outline, hstays r hr, ← mem_nodes_iff_outline]
    exact ContextGraph.resolveExisting_mem hr
  · rw [Ctx.nodeCelltype_congr (congrArg (Option.map Outline.kind) (hstays r hr))]
    exact hdeep

/-- An edge that a turn connects is read as it was wired. -/
theorem Recorded.accounted {start : ContextGraph} (hwires : ∀ source place recipe,
    lim.wires source place recipe → recipe.Converts) (h : Recorded env ctx edge lim.joins lim.wires) :
    edge.Accounted lim start ctx.graph := by
  obtain ⟨plain, graph, hplain, hregister⟩ := h.registered
  obtain ⟨node, localPath, hregisters⟩ := ContextGraph.registers_of_register hplain hregister
  exact ⟨by rw [hregisters.resolved]; rfl, hregisters.readAsWired (hwires _ _ _ h.wires),
    Or.inr (Or.inl ⟨_, h.wires⟩)⟩

/-- A loaded edge is read as it was wired, in a Context that shows the loaded nodes. -/
theorem accounted_of_loaded {start : ContextGraph} (hread : edge.ReadAsWired g) (hsourced :
    (g.resolveExisting edge.source).isSome = true) (hnone : ∀ path celltype, ¬ lim.types path celltype)
    (hkind : ∀ path, (ctx.outline path).map Outline.kind =
      (g.nodes.lookup path).map fun node => node.outline.kind) :
    edge.Accounted lim start ctx.graph := by
  have hmem : ∀ p, p ∈ ctx.graph.nodes ↔ p ∈ g.nodes := fun p => by
    rw [mem_nodes_iff_outline, ← AList.lookup_isSome, ← Option.isSome_map (f := Outline.kind), hkind,
      Option.isSome_map]
  have hresolve := ContextGraph.resolveExisting_congr hmem
  have hcelltype : ctx.graph.nodeCelltype = g.nodeCelltype := by
    funext path
    have hsame := congrArg (Option.map Prod.snd) (hkind path)
    rw [Option.map_map, Option.map_map] at hsame
    rw [Ctx.nodeCelltype_eq]
    exact congrArg (Option.getD · Celltype.mixed) hsame
  exact ⟨hresolve ▸ hsourced, hread.of_graph hresolve hcelltype, Or.inr (Or.inr hnone)⟩

/-- A move keeps the edges accounted for, when the copies of its limits do. -/
theorem Move.accounted (h : Move env lim ctx ctx') (hk : lim.KeepsChains start)
    (hcopies : ∀ s t, lim.copies ctx s t →
      ∀ edge ∈ (finalState (copySubcontext env s t ctx)).graph.edges,
        edge.Accounted lim start.graph (finalState (copySubcontext env s t ctx)).graph)
    (ha : ∀ edge ∈ ctx.graph.edges, edge.Accounted lim start.graph ctx.graph) :
    ∀ edge ∈ ctx'.graph.edges, edge.Accounted lim start.graph ctx'.graph := by
  have same : ∀ {next : Ctx}, next.outline = ctx.outline →
      (∀ edge ∈ next.graph.edges, edge ∈ ctx.graph.edges) →
        ∀ edge ∈ next.graph.edges, edge.Accounted lim start.graph next.graph :=
    fun ho he edge hedge => (ha edge (he edge hedge)).of_outline ho
  cases h with
  | quiet h => exact same h.outline fun edge hedge => h.edges ▸ hedge
  | edit h => exact same h.outline fun edge hedge => h.edges ▸ hedge
  | derive hsort hr =>
    refine same (outline_deriveGraph env _ ctx) fun edge hedge => ?_
    rw [edges_deriveGraph] at hedge
    exact hedge
  | raise hr =>
    refine same (outline_raised hr) fun edge hedge => ?_
    rw [edges_raised hr] at hedge
    exact hedge
  | drop keep h =>
    refine same h.outline fun edge hedge => ?_
    rw [h.edges] at hedge
    exact (List.mem_filter.mp hedge).1
  | recast hn ht h =>
    exact fun edge hedge => (ha edge (h.edges ▸ hedge)).retype hk hn ht h.outline
  | connect hg hr h =>
    intro edge hedge
    rw [h.edges] at hedge
    refine Edge.Accounted.of_outline ?_ h.outline
    rcases List.mem_append.mp hedge with hold | hnew
    · exact ha edge hold
    · rw [List.mem_singleton.mp hnew]
      exact hr.accounted hk.wires
  | create hp hc h =>
    intro edge hedge
    rw [h.edges] at hedge
    refine (ha edge hedge).put hp h.outline ?_
    rcases hk.creates _ _ hc with hroot | ⟨rfl, hspared⟩
    · exact ContextGraph.not_captures_root hroot
    · exact hspared edge hedge
  | remove path hr h =>
    intro edge hedge
    rw [h.edges] at hedge
    obtain ⟨hold, hkeep⟩ := List.mem_filter.mp hedge
    rw [Bool.and_eq_true, Bool.not_eq_true'] at hkeep
    exact (ha edge hold).remove hkeep.1 h.outline
  | retype hn ht h =>
    intro edge hedge
    rw [h.edges] at hedge
    exact (ha edge (List.mem_filter.mp hedge).1).retype hk hn ht h.outline
  | copy hc => exact hcopies _ _ hc
  | load hl h hkind _ =>
    intro edge hedge
    obtain ⟨hread, hsourced, hnone⟩ := hk.loads _ hl
    rw [h.edges] at hedge
    exact accounted_of_loaded (hread edge hedge) (hsourced edge hedge) hnone hkind
  | deliver hd =>
    refine same (outline_updateRun _ _ _ ctx) fun edge hedge => ?_
    rw [edges_updateRun] at hedge
    exact hedge

/-! ## Copies -/

theorem Edge.cut_congr {edge copied : Edge}
    (hlinks : copied.sourceChain.map Recipe.link = edge.sourceChain.map Recipe.link)
    (hrecipe : copied.recipe = edge.recipe) (h : edge.Cut) : copied.Cut := by
  have hsteps : copied.sourceConversionSteps = edge.sourceConversionSteps :=
    congrArg EdgeRecipe.conversionSteps hrecipe
  intro celltype hwired hdeep
  unfold Edge.ReadsBelowDeep at hdeep
  rw [hlinks] at hwired hdeep ⊢
  rw [hsteps, ← flatMap_link, hlinks, flatMap_link]
  exact h celltype hwired hdeep

/-- A copied edge is read as it was wired, from the copied node. -/
theorem CopyOf.readAsWired {s t : NodePath} {copied : Edge} {r : NodePath × Path}
    (h : CopyOf s t ctx'.graph edge copied) (hread : edge.ReadAsWired ctx.graph)
    (hr : ctx.graph.resolveExisting edge.source = some r)
    (hmoved : ctx'.graph.resolveExisting copied.source = some (moved s t r.1, r.2))
    (hkind : (ctx'.outline (moved s t r.1)).map Outline.kind = (ctx.outline r.1).map Outline.kind) :
    copied.ReadAsWired ctx'.graph := by
  have hformed : copied.Formed := by
    have hconverts : copied.recipe.Converts := h.recipe ▸ hread.formed
    exact hconverts
  by_cases hchain : edge.sourceChain = []
  · obtain ⟨node, localPath, hregisters⟩ := h.registered hchain
    exact hregisters.readAsWired hformed
  · obtain ⟨hlinks, r', hr', hstarts⟩ := h.chained hchain
    obtain rfl : r' = (moved s t r.1, r.2) := Option.some.inj (hr'.symm.trans hmoved)
    have hat : ∀ r' ∈ ctx'.graph.resolveExisting copied.source, r' = (moved s t r.1, r.2) :=
      fun r' hr' => Option.some.inj (hr'.symm.trans hmoved)
    refine ⟨hformed, Edge.cut_congr hlinks h.recipe hread.cut, fun r' hr' => ?_, fun r' hr' => ?_,
      fun r' hr' hbelow => ?_⟩
    · rw [hat r' hr', ← flatMap_link, hlinks, flatMap_link]
      exact hread.localPath r hr
    · rw [hat r' hr']
      exact hstarts
    · rw [hat r' hr', Ctx.nodeCelltype_congr hkind]
      refine hread.deep r hr ?_
      unfold Edge.ReadsBelowDeep at hbelow ⊢
      rwa [hlinks] at hbelow

/-- The nodes and edges that a copy apart from everything else leaves behind. -/
theorem Copying.accounted {start : ContextGraph} {s t : NodePath} (h : Copying s t ctx ctx')
    (hapart : ctx.graph.CopiesApart s t)
    (hspared : ∀ q ∈ ctx.graph.nodes, s <+: q → ∀ edge ∈ ctx.graph.edges,
      ¬ ctx.graph.Captures (moved s t q) edge.source)
    (hnone : ∀ path celltype, ¬ lim.types path celltype)
    (ha : ∀ edge ∈ ctx.graph.edges, edge.Accounted lim start ctx.graph) :
    ∀ edge ∈ ctx'.graph.edges, edge.Accounted lim start ctx'.graph := by
  have hcopy := h.isCopy hapart.free
  have hother : ∀ q ∈ ctx.graph.nodes, ctx'.outline q = ctx.outline q := fun q hq => by
    refine h.other q fun p hp hs hpq => ?_
    exact hapart.free p hp hs (show moved s t p ∈ _ from hpq ▸ hq)
  obtain ⟨inside, new, hsub, hnew, hedges⟩ := h.edges
  intro edge hedge
  rw [hedges] at hedge
  rcases List.mem_append.mp hedge with hold | hcopied
  · have hput : ∀ p, p ∈ ctx'.graph.nodes → p ∈ ctx.graph.nodes ∨
        ∃ q ∈ ctx.graph.nodes, s <+: q ∧ moved s t q = p := fun p hp => by
      rcases hcopy.stands (by rw [ContextGraph.stands_wiring]; exact decide_eq_true hp) with hc | hc
      · exact Or.inr (copied_iff.mp hc)
      · rw [ContextGraph.stands_wiring] at hc
        exact Or.inl (of_decide_eq_true hc)
    refine (ha edge hold).stays (ContextGraph.resolveExisting_put (ha edge hold).sourced
      (fun p hp => ?_) hput ?_) fun r hr _ hdeep => ?_
    · rw [mem_nodes_iff_outline, hother p hp, ← mem_nodes_iff_outline]
      exact hp
    · rintro p ⟨q, hq, hs, rfl⟩
      exact hspared q hq hs edge hold
    · have hsame := hother r.1 (ContextGraph.resolveExisting_mem hr)
      rw [Ctx.nodeCelltype_congr (congrArg (Option.map Outline.kind) hsame)]
      exact hdeep
  · obtain ⟨original, horiginal, hof⟩ := exists_related hnew hcopied
    obtain ⟨hold, hin⟩ := mem_edgesBelow.mp (hsub.subset horiginal)
    obtain ⟨r, hr⟩ := Option.isSome_iff_exists.mp (ha original hold).sourced
    have hs : s <+: r.1 := (hapart.closed original (hsub.subset horiginal)).1 r hr
    have hmoved : ctx'.graph.resolveExisting edge.source = some (moved s t r.1, r.2) := by
      rw [hof.source_moved]
      refine ContextGraph.resolveExisting_eq_some.mpr (hcopy.resolves_moved hapart.named ?_
        (ContextGraph.resolveExisting_eq_some.mp hr) hs)
      intro p hp m hm hpm
      have hclear := hapart.copyable.clear p hp m hm hpm original.wire (List.mem_map_of_mem hold)
        (inside_wire.mpr hin)
      rw [Edge.wire_source] at hclear
      exact hclear.1
    have hkind := h.copied hapart.free r.1 (ContextGraph.resolveExisting_mem hr) hs
    exact ⟨by rw [hmoved]; rfl, hof.readAsWired (ha original hold).read hr hmoved hkind,
      Or.inr (Or.inr hnone)⟩

/-- A namespace copy apart from everything else keeps the edges accounted for. -/
theorem accounted_copy {s t : NodePath} (hk : lim.KeepsChains start) (hc : lim.copies ctx s t)
    (ha : ∀ edge ∈ ctx.graph.edges, edge.Accounted lim start.graph ctx.graph) :
    ∀ edge ∈ (finalState (copySubcontext env s t ctx)).graph.edges,
      edge.Accounted lim start.graph (finalState (copySubcontext env s t ctx)).graph := by
  obtain ⟨-, hapart, hspared, hnone⟩ := hk.copies ctx s t hc
  obtain ⟨mid, hmid, hmoves⟩ := copySubcontext_cases env lim.gentle s t ctx
  have hgentle : ∀ edge ∈ mid.graph.edges, edge.Accounted lim.gentle start.graph mid.graph := by
    intro edge hedge
    rcases hmid with h | h
    · have h' := (ha edge (h.edges ▸ hedge)).of_outline h.outline
      exact ⟨h'.sourced, h'.read, h'.origin⟩
    · have h' := h.accounted hapart hspared hnone ha edge hedge
      exact ⟨h'.sourced, h'.read, h'.origin⟩
  generalize finalState (copySubcontext env s t ctx) = final at hmoves
  suffices h : ∀ edge ∈ final.graph.edges, edge.Accounted lim.gentle start.graph final.graph from
    fun edge hedge => ⟨(h edge hedge).sourced, (h edge hedge).read, (h edge hedge).origin⟩
  induction hmoves with
  | refl => exact hgentle
  | tail _ hmove ih => exact hmove.accounted hk.gentle (fun _ _ => False.elim) ih

/-- After the moves of a turn every edge is read as it was wired. -/
theorem Moves.accounted (h : Moves env lim start ctx) (hk : lim.KeepsChains start)
    (hs : ∀ edge ∈ start.graph.edges, edge.ReadAsWired start.graph) (hsourced : start.graph.Sourced) :
    ∀ edge ∈ ctx.graph.edges, edge.Accounted lim start.graph ctx.graph := by
  induction h with
  | refl => exact fun edge hedge => ⟨hsourced edge hedge, hs edge hedge, Or.inl ⟨hedge, rfl⟩⟩
  | tail _ hmove ih => exact hmove.accounted hk (fun s t hc => accounted_copy hk hc ih) ih

end Accounted

/-! ## The condition on a run -/

/-- A turn after which the edges are read as they were wired: no node that it puts takes over a source,
copies are put apart from everything else, a recipe that it wires converts exactly when it has
conversions, no node that an edge reads below a deep step gets a celltype that is not deep, and the
chains of a document are those that live wiring records. -/
structure Turn.KeepsChains (env : Substrate) (turn : Turn) (g : ContextGraph) : Prop where
  spared : ∀ p, turn.puts g p → ∀ edge ∈ g.edges, ¬ g.Captures p edge.source
  apart : ∀ s t, turn = .assign t (.subcontext s) → t ∉ g.nodes → g.CopiesApart s t
  wires : ∀ source place recipe, turn.wires source place recipe → recipe.Converts
  types : ∀ path celltype, turn.types g path celltype → celltype.isDeep = false →
    (∀ edge ∈ g.edges, edge.ReadsBelowDeep → ∀ r ∈ g.resolveExisting edge.source, r.1 ≠ path) ∧
    ∀ source place recipe, turn.wires source place recipe → path <+: source.flat →
      source.flat.length < path.length + 2
  document : ∀ doc attachments, turn = .setGraph doc attachments → doc.RecordsChains env

def KeepsChains (env : Substrate) (sys : System) (event : Event) : Prop :=
  match event with
  | .turn t _ _ => t.KeepsChains env sys.ctx.graph
  | _ => True

theorem Turn.KeepsChains.limits {env : Substrate} {turn : Turn} {start : Ctx}
    (h : turn.KeepsChains env start.graph) : (turn.limits env start).KeepsChains start where
  creates ctx p hc := by
    obtain ⟨hcreates, rfl | ⟨i, rfl⟩⟩ := hc
    · exact Or.inr ⟨rfl, h.spared p (Or.inl hcreates)⟩
    · exact Or.inl (le_refl 1)
  wires := h.wires
  types := h.types
  copies ctx s t hc := by
    obtain ⟨rfl, rfl, hnew⟩ := hc
    refine ⟨rfl, h.apart s t rfl hnew, fun q hq hs => ?_, fun path celltype ht => ?_⟩
    · exact h.spared _ (Or.inr ⟨s, t, rfl, hnew, q, hq, hs, rfl⟩)
    · cases ht.2
  loads g hl := by
    obtain ⟨doc, attachments, rfl, hg⟩ := Turn.loads_only hl
    refine ⟨prepareGraph_readAsWired (h.document doc attachments rfl) hg, ?_, fun _ _ => id⟩
    exact ContextGraph.sourced_of_loaded (prepareGraph_spec hg)

theorem Limits.keepsChains_message {delivers : NodePath → Nat → (RunRecord → RunRecord) → Prop}
    {start : Ctx} : (Limits.message delivers).KeepsChains start where
  creates _ _ hc := hc.elim
  wires _ _ _ hw := hw.elim
  types _ _ ht := ht.elim
  copies _ _ _ hc := hc.elim
  loads _ hl := hl.elim

theorem KeepsChains.limits {env : Substrate} {sys : System} {event : Event}
    (h : KeepsChains env sys event) (now : Nat) (missing : List Checksum) :
    (event.limits env (sys.ctx.arrive now missing)).KeepsChains (sys.ctx.arrive now missing) := by
  cases event with
  | turn t now' missing' =>
    have h : t.KeepsChains env (sys.ctx.arrive now missing).graph := h
    exact h.limits
  | _ => exact Limits.keepsChains_message

/-- In every reachable Context each edge is read as it was wired, when every event of the run keeps the
chains. -/
theorem reachable_readAsWired {env : Substrate} {sys : System}
    (h : Reachable env (KeepsChains env) sys) :
    ∀ edge ∈ sys.ctx.graph.edges, edge.ReadAsWired sys.ctx.graph := by
  have hkept : sys.ctx.graph.Sourced ∧ ∀ edge ∈ sys.ctx.graph.edges,
      edge.ReadAsWired sys.ctx.graph := by
    refine h.ctx_invariant (I := fun ctx => ctx.graph.Sourced ∧ ∀ edge ∈ ctx.graph.edges,
      edge.ReadAsWired ctx.graph) ?_ (fun _ _ _ hi => hi) ?_
    · exact ⟨fun _ hedge => absurd hedge List.not_mem_nil,
        fun _ hedge => absurd hedge List.not_mem_nil⟩
    · intro sys event now missing ctx hc hi hmoves
      have ha := Moves.accounted hmoves (hc.limits now missing) hi.2 hi.1
      exact ⟨fun edge hedge => (ha edge hedge).sourced, fun edge hedge => (ha edge hedge).read⟩
  exact hkept.2

/-- The end point of a handle converts exactly when it has conversions. -/
theorem CellHandle.Made.endpoint_converts {handle : CellHandle} (h : handle.Made) (g : ContextGraph) :
    (handle.endpoint g).recipe.Converts := by
  have hformed := h.endpoint_formed g
  unfold BoundEndpoint.Formed EdgeRecipe.Records at hformed
  unfold EdgeRecipe.Converts
  split at hformed
  · rename_i hconverts
    exact iff_of_true hconverts hformed.1
  · rename_i hconverts
    exact iff_of_false hconverts (not_not.mpr hformed)

/-- The recipe of an expression converts exactly when it has conversions. -/
theorem expressionRecipe_converts (steps : List ConversionStep) (celltype : Celltype) :
    (expressionRecipe steps celltype).Converts := decide_eq_true_iff

/-- The edge of a cell builder converts exactly when it has conversions, if its input is an expression or
an end point of which that holds. -/
theorem InputRef.wires_converts {input : InputRef} {target : NodePath} {source place : Place}
    {recipe : EdgeRecipe} (hw : input.wires target source place recipe)
    (hinput : ∀ ep, input = .endpoint ep → ep.recipe.Converts) : recipe.Converts := by
  cases input with
  | endpoint ep =>
    obtain ⟨-, rfl, -⟩ := hw
    exact hinput ep rfl
  | expression first links producer =>
    obtain ⟨-, -, -, rfl, -⟩ := hw
    exact expressionRecipe_converts _ _
  | _ => exact hw.elim

/-- The links of a recipe with a deep step are those in front of it, its own and those of the recipe
that is left, and every intermediate result of an edge is held under the entry of its chain that it is
the result of. -/
structure LinkIndexes (env : Substrate) (sys : System) : Prop where
  split : ∀ celltype localPath steps deep, splitDeepStep celltype localPath steps = some deep →
    (∀ k ∈ localPath.head?, k.isSlice = false) →
      anonymousLinks celltype localPath steps =
        deep.before.map (fun converted => (converted, [])) ++
          (deep.member, localPath.take 1) :: anonymousLinks deep.member deep.restPath deep.restSteps
  named : ∀ edge ∈ sys.ctx.graph.edges, edge.NamesLinks env sys.ctx.view

/-- In every reachable state the link indexes name recorded links, when every event of the run keeps the
chains. -/
theorem reachable_linkIndexes {env : Substrate} {sys : System}
    (h : Reachable env (KeepsChains env) sys) : LinkIndexes env sys where
  split _ _ _ _ hsplit hslice := anonymousLinks_split hsplit hslice
  named edge hedge := (reachable_readAsWired h edge hedge).namesLinks

/-! ## Runs -/

/-- What is known of an Expression that has no validator. -/
def FactKey.agrees (E : ExpressionClass) (key : FactKey) (value : FactValue) : Prop :=
  match key, value with
  | .expression checksum path celltype targetType none none _ _, .result result =>
    E.apply path celltype targetType checksum = some result
  | _, _ => True

instance (E : ExpressionClass) (key : FactKey) (value : FactValue) : Decidable (key.agrees E value) := by
  unfold FactKey.agrees
  split <;> infer_instance

theorem View.agrees_of_entries {v : View} {E : ExpressionClass}
    (h : ∀ entry ∈ v.facts.entries, FactKey.agrees E entry.1 entry.2) : v.Agrees E := by
  intro checksum path celltype targetType scratch materialize result hlookup
  exact h _ (AList.mem_lookup_iff.mp hlookup)

/-- A member of a folder in a text, read behind one conversion and converted again. -/
def readInText : CellHandle :=
  (((CellHandle.mk [.key "a"] [] false false false []).asCelltype .plain).item (.key "x")).asCelltype .str

/-- The first conversion of such a member is known, and held. -/
def holdConversion : List Event :=
  [.turn (.assign [.key "a"] (.cell { recipe := { celltype := .text }, input := .checksum ⟨10⟩ })) 0 [],
    .turn (.assign [.key "b"] (.cell
      { recipe := { celltype := .str }, input := .endpoint (readInText.endpoint {}) })) 0 [],
    .turn (.acceptFact (.expression ⟨10⟩ [] .text .plain none none true false) (.result ⟨21⟩)) 0 []]

theorem holdConversion_runs : (System.run .fixed holdConversion {}).isSome = true := by decide +kernel

/-- A cell that is assigned to a graph without edges keeps the chains, when its input does. -/
theorem Turn.keepsChains_assignCell {env : Substrate} {g : ContextGraph} {path : NodePath}
    {prepared : PreparedCell} (hedges : g.edges = [])
    (hconverts : ∀ ep, prepared.input = .endpoint ep → ep.recipe.Converts)
    (hlength : ∀ source place recipe, prepared.input.wires path source place recipe →
      source.flat.length < path.length + 2) :
    (Turn.assign path (.cell prepared)).KeepsChains env g where
  spared _ _ edge hedge := absurd (hedges ▸ hedge) List.not_mem_nil
  apart _ _ h := AssignValue.noConfusion (Turn.assign.inj h).2
  wires source place recipe hw := by
    rcases hw with hw | ⟨_, _, _, _, rfl, _⟩
    · exact InputRef.wires_converts hw hconverts
    · exact iff_of_false Bool.false_ne_true (fun h => h rfl)
  types q celltype ht _ := by
    obtain rfl : q = path := ht.1
    refine ⟨fun edge hedge => absurd (hedges ▸ hedge) List.not_mem_nil, fun source place recipe hw _ => ?_⟩
    rcases hw with hw | ⟨_, _, i, rfl, _⟩
    · exact hlength source place recipe hw
    · exact Nat.lt_of_lt_of_le Nat.one_lt_two (Nat.le_add_left 2 _)
  document _ _ h := Turn.noConfusion h

theorem holdConversion_keeps : System.Meets .fixed (KeepsChains .fixed) holdConversion {} := by
  refine ⟨Turn.keepsChains_assignCell rfl (fun _ h => nomatch h) fun _ _ _ hw => hw.elim,
    fun next hnext => ⟨?_, ?_⟩⟩
  · -- the graph holds one cell and no edge
    obtain rfl := Option.some.inj hnext
    refine Turn.keepsChains_assignCell (by decide +kernel) ?_ fun source place recipe hw => ?_
    · rintro _ ⟨⟩
      exact CellHandle.Made.endpoint_converts (.asCelltype .str (.item _ (.asCelltype .plain (.bare _ _)))) {}
    · obtain ⟨rfl, -, -⟩ := hw
      decide
  · refine fun next' _ => ⟨⟨?_, ?_, fun _ _ _ h => h.elim, fun _ _ h => h.elim, ?_⟩, fun _ _ => trivial⟩
    · rintro p (h | ⟨_, _, h, -⟩)
      · exact h.elim
      · cases h
    · exact fun _ _ h => nomatch h
    · exact fun _ _ h => nomatch h

theorem reachable_linkIndexes_holdConversion :
    LinkIndexes .fixed ((System.run .fixed holdConversion {}).get holdConversion_runs) :=
  reachable_linkIndexes (Reachable.of_run .start holdConversion_keeps holdConversion_runs)

/-- A member two levels below a deep cell, converted to a text and then to a string. -/
def readBelowDeep : CellHandle :=
  ((((CellHandle.mk [.key "a"] [] false false false []).item (.key "x")).item (.key "y")).asCelltype
    .text).asCelltype .str

/-- The deep cell becomes a mixed one, of which the whole path is read at once. -/
def retypeDeep : List Event :=
  [.turn (.assign [.key "a"]
      (.cell { recipe := { celltype := .deepcell }, input := .checksum ⟨10⟩ })) 0 [],
    .turn (.assign [.key "b"] (.cell
      { recipe := { celltype := .str }, input := .endpoint (readBelowDeep.endpoint {}) })) 0 [],
    .turn (.publishConfig [.key "a"] 1 (.cell { celltype := .mixed })) 0 [],
    .turn (.acceptFact (.expression ⟨10⟩ [] .deepcell .mixed none none false false)
      (.result ⟨21⟩)) 0 [],
    .turn (.acceptFact (.expression ⟨21⟩ [.key "x", .key "y"] .mixed .text none none true false)
      (.result ⟨47⟩)) 0 []]

theorem retypeDeep_runs : (System.run .fixed retypeDeep {}).isSome = true := by decide +kernel

/-- The text is held under the symbol of the member, whose recipe gives another checksum. -/
theorem not_reachable_linkIndexes :
    ¬ ∀ sys, Reachable .fixed (fun _ _ => True) sys → LinkIndexes .fixed sys := by
  intro h
  have hnamed := (h _ (Reachable.of_run .start (by decide +kernel) retypeDeep_runs)).named
  set sys := (System.run .fixed retypeDeep {}).get retypeDeep_runs with hsys
  have hagrees : sys.ctx.view.Agrees (countingClass Substrate.fixed.preserving) := by
    refine View.agrees_of_entries ?_
    decide +kernel
  have hheld : ∃ edge ∈ sys.ctx.graph.edges,
      (⟨.symbol "aaaaa", .mixed, [.key "y"]⟩, ⟨47⟩) ∈
        (sourceState .fixed sys.ctx.view (sys.ctx.view.graph.ownLink edge)).anonymous ∧
      edge.sourceChain.take 2 = [⟨.node [.key "a"], .mixed, [.key "x"]⟩,
        ⟨.symbol "aaaaa", .mixed, [.key "y"]⟩] ∧
      ∀ i < edge.sourceChain.length,
        edge.sourceChain[i]? = some ⟨.symbol "aaaaa", .mixed, [.key "y"]⟩ → i = 1 := by
    decide +kernel
  have hroot : ∀ node ∈ sys.ctx.view.graph.nodes.lookup [.key "a"],
      node.celltype = .mixed ∧ node.currentChecksum = some ⟨21⟩ := by decide +kernel
  obtain ⟨edge, hedge, hmem, hchain, honly⟩ := hheld
  obtain ⟨i, source, node, root, hi, hsource, hnode, hchecksum, hvalue⟩ :=
    hnamed edge hedge _ (countingClass_lawful _) hagrees _ hmem
  obtain rfl : i = 1 := honly i (List.getElem?_eq_some_iff.mp hi).1 hi
  have hstart : source = [.key "a"] := by
    have hfirst : (edge.sourceChain.take 2).head? = edge.sourceChain.head? := by
      rw [List.head?_take]
      rfl
    rw [← hfirst, hchain] at hsource
    exact (RecipeSource.node.inj (Option.some.inj hsource)).symm
  subst hstart
  obtain ⟨hcelltype, hresult⟩ := hroot node hnode
  obtain rfl : root = ⟨21⟩ := Option.some.inj (hchecksum.symm.trans hresult)
  rw [hchain, hcelltype] at hvalue
  exact absurd hvalue (by decide)

end SeamlessWorkflow
