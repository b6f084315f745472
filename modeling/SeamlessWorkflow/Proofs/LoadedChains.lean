import SeamlessWorkflow.Proofs.ChainCuts
import SeamlessWorkflow.Proofs.Endpoints
import SeamlessWorkflow.Proofs.SymbolDocuments

/-!
# Loaded chains

The chain of a loaded edge follows the anonymous entries of its document. It is cut as live wiring cuts
it when every conversion among them changes the celltype, and no path is cut in two, except below a
deep celltype: otherwise the conversion steps of the edge and its chain count differently.
-/

namespace SeamlessWorkflow

/-! ## What a document records -/

/-- The celltype of a node of a document. -/
def Document.celltypeAt (env : Substrate) (doc : Document) (path : NodePath) : Celltype :=
  (((doc.nodes.find? fun entry => decide (entry.path = path)).bind fun entry =>
    (entry.node env).toOption).map Node.celltype).getD .mixed

section Document

variable (doc : Document) (celltypeAt : NodePath → Celltype)

/-- The celltype that an anonymous entry reads. -/
def Document.readCelltype (entry : AnonymousEntry) : Celltype :=
  match entry.source with
  | .node path => celltypeAt path
  | .symbol name => ((doc.anonymousNodes.lookup name).map AnonymousEntry.celltype).getD .mixed

/-- A path may follow an anonymous entry: the entry is a conversion, or it steps into a deep celltype. -/
def Document.LeavesPath (name : String) : Prop :=
  ∀ entry ∈ doc.anonymousNodes.lookup name, entry.path ≠ [] →
    (doc.readCelltype celltypeAt entry).isDeep = true

/-- An anonymous entry is a link that live wiring records: a conversion changes the celltype, and a path
follows no other path, except below a deep celltype. -/
def Document.RecordsLink (entry : AnonymousEntry) : Prop :=
  if entry.path = [] then entry.celltype ≠ doc.readCelltype celltypeAt entry
  else match entry.source with
    | .node _ => True
    | .symbol name => doc.LeavesPath celltypeAt name

/-- The anonymous entries of a connection are links that live wiring records, and no node is on the way
of the path that they read. -/
def Document.RecordsChain (source : ConnectionSource) : Prop :=
  match source with
  | .flat _ | .node _ _ _ => True
  | .symbol name sourcePath =>
    (∀ used ∈ name :: namedBelow doc.anonymousNodes (doc.anonymousNodes.length + 1) name,
      ∀ entry ∈ doc.anonymousNodes.lookup used, doc.RecordsLink celltypeAt entry) ∧
    (sourcePath ≠ [] → doc.LeavesPath celltypeAt name) ∧
    ∀ place ∈ doc.reference (.symbol name sourcePath), ∀ entry ∈ doc.nodes, ¬ place.BlockedBy entry.path

end Document

/-- The chains of a document are those that live wiring records. -/
def Document.RecordsChains (env : Substrate) (doc : Document) : Prop :=
  ∀ connection ∈ doc.connections, doc.RecordsChain (doc.celltypeAt env) connection.source

instance (doc : Document) (celltypeAt : NodePath → Celltype) (name : String) :
    Decidable (doc.LeavesPath celltypeAt name) := by
  unfold Document.LeavesPath
  infer_instance

instance (doc : Document) (celltypeAt : NodePath → Celltype) (entry : AnonymousEntry) :
    Decidable (doc.RecordsLink celltypeAt entry) := by
  unfold Document.RecordsLink
  split
  · infer_instance
  · split <;> infer_instance

instance (doc : Document) (celltypeAt : NodePath → Celltype) (source : ConnectionSource) :
    Decidable (doc.RecordsChain celltypeAt source) := by
  unfold Document.RecordsChain
  split <;> infer_instance

instance (env : Substrate) (doc : Document) : Decidable (doc.RecordsChains env) := by
  unfold Document.RecordsChains
  infer_instance

/-! ## The nodes -/

theorem lookup_prepareNodes {env : Substrate} {version : String} {entries : List NodeEntry} :
    ∀ {urls : List String} {g g' : ContextGraph}, prepareNodes env version entries urls g = .ok g' →
      ∀ path, g'.nodes.lookup path = ((entries.find? fun entry => decide (entry.path = path)).bind
        fun entry => (entry.node env).toOption).or (g.nodes.lookup path) := by
  induction entries with
  | nil =>
    intro urls g g' h path
    cases h
    rfl
  | cons entry entries ih =>
    intro urls g g' h path
    obtain ⟨-, -, h⟩ := bind_ok h
    obtain ⟨node, hnode, h⟩ := bind_ok h
    obtain ⟨-, -, h⟩ := bind_ok h
    obtain ⟨-, -, h⟩ := bind_ok h
    obtain ⟨-, -, h⟩ := bind_ok h
    by_cases hpath : entry.path = path
    · subst hpath
      have hput : entry.path ∈ (g.putNode entry.path node).nodes :=
        (AList.mem_insert _).mpr (Or.inl rfl)
      have hfound : (entry :: entries).find? (fun other => decide (other.path = entry.path)) =
          some entry := List.find?_cons_of_pos (decide_eq_true rfl)
      rw [(prepareNodes_spec h).stays _ hput, hfound, Option.bind_some, hnode]
      exact AList.lookup_insert _
    · have hskip : (entry :: entries).find? (fun other => decide (other.path = path)) =
          entries.find? fun other => decide (other.path = path) :=
        List.find?_cons_of_neg (by simpa using hpath)
      have hother : (g.putNode entry.path node).nodes.lookup path = g.nodes.lookup path :=
        AList.lookup_insert_ne (Ne.symm hpath)
      rw [ih h path, hskip, hother]

theorem nodeCelltype_prepareNodes {env : Substrate} {doc : Document} {g : ContextGraph}
    (h : prepareNodes env doc.version doc.nodes [] {} = .ok g) :
    g.nodeCelltype = doc.celltypeAt env := by
  funext path
  unfold ContextGraph.nodeCelltype Document.celltypeAt
  rw [lookup_prepareNodes h path, show ({} : ContextGraph).nodes.lookup path = none from rfl,
    Option.or_none]

/-- Every node that an anonymous entry reads exists. -/
theorem prepareAnonymous_nodes {doc : Document} {g g' : ContextGraph}
    (h : prepareAnonymous doc g = .ok g') : ∀ item ∈ doc.anonymousNodes, ∀ path,
      item.2.source = .node path → path ∈ g.nodes := by
  obtain ⟨-, -, h⟩ := bind_ok h
  obtain ⟨_, hchecked, -⟩ := bind_ok h
  generalize doc.anonymousNodes = items at hchecked
  induction items with
  | nil => exact fun _ hitem => nomatch hitem
  | cons item items ih =>
    obtain ⟨_, hfirst, hrest⟩ := bind_ok hchecked
    intro other hother path hsource
    rcases List.mem_cons.mp hother with rfl | hother
    · obtain ⟨_, -, hnode⟩ := bind_ok hfirst
      rw [hsource] at hnode
      exact not_not.mp (rejectIf_ok hnode)
    · exact ih hrest other hother path hsource

/-- The nodes of a document stand in a graph, and those that its anonymous entries read are among them. -/
structure NodesPrepared (env : Substrate) (doc : Document) (g : ContextGraph) : Prop where
  named : ∀ p ∈ g.nodes, p ≠ []
  mem : ∀ p ∈ g.nodes, ∃ item ∈ doc.nodes, item.path = p
  reads : ∀ item ∈ doc.anonymousNodes, ∀ path, item.2.source = .node path → path ∈ g.nodes
  celltype : g.nodeCelltype = doc.celltypeAt env

theorem NodesPrepared.of_nodes {env : Substrate} {doc : Document} {g g' : ContextGraph}
    (h : NodesPrepared env doc g) (hnodes : g'.nodes = g.nodes) : NodesPrepared env doc g' where
  named := hnodes ▸ h.named
  mem := hnodes ▸ h.mem
  reads := hnodes ▸ h.reads
  celltype := (ContextGraph.nodeCelltype_of_nodes hnodes).trans h.celltype

theorem checkConnection_same {g : ContextGraph} {edge edge' : Edge}
    (h : checkConnection g edge = .ok edge') : ∃ deepMember, edge' = { edge with deepMember } := by
  unfold checkConnection at h
  split at h
  · split at h
    · cases h
    · obtain ⟨-, -, h⟩ := bind_ok h
      obtain ⟨-, -, h⟩ := bind_ok h
      obtain ⟨-, -, h⟩ := bind_ok h
      obtain ⟨-, -, h⟩ := bind_ok h
      obtain ⟨-, -, h⟩ := bind_ok h
      cases h
      exact ⟨_, rfl⟩
  · cases h

section Edges

variable {env : Substrate} {doc : Document} {P Q : ContextGraph → Edge → Prop}

theorem prepareConnections_edges (hcongr : ∀ {g g' edge}, g'.nodes = g.nodes → P g edge → P g' edge)
    {connections : List ConnectionEntry} : ∀ {g g' : ContextGraph},
      prepareConnections doc connections g = .ok g' → NodesPrepared env doc g →
      (∀ g, NodesPrepared env doc g → ∀ entry ∈ connections, ∀ edge deepMember,
        connectionEdge doc g entry = .ok edge → P g { edge with deepMember }) →
      (∀ edge ∈ g.edges, P g edge) → ∀ edge ∈ g'.edges, P g' edge := by
  induction connections with
  | nil =>
    intro g g' h _ _ hedges
    cases h
    exact hedges
  | cons entry connections ih =>
    intro g g' h hprepared hmake hedges
    obtain ⟨edge, hedge, h⟩ := bind_ok h
    obtain ⟨edge', hcheck, h⟩ := bind_ok h
    obtain ⟨deepMember, rfl⟩ := checkConnection_same hcheck
    refine ih h (hprepared.of_nodes rfl)
      (fun g hg c hc => hmake g hg c (List.mem_cons_of_mem _ hc)) fun e he => hcongr (g := g) rfl ?_
    rcases List.mem_append.mp he with hold | hnew
    · exact hedges e hold
    · rw [List.mem_singleton.mp hnew]
      exact hmake g hprepared entry (List.mem_cons_self ..) edge deepMember hedge

theorem registerSymbols_edges (hcongr : ∀ {g g' edge}, g'.nodes = g.nodes → P g edge → P g' edge)
    (hcongr' : ∀ {g g' edge}, g'.nodes = g.nodes → Q g edge → Q g' edge)
    (hregister : ∀ {g g' edge edge'}, P g edge → g.registerEdgeSymbols env edge = some (edge', g') →
      Q g edge') {edges : List Edge} : ∀ {g g' : ContextGraph},
      registerSymbols env edges g = .ok g' → (∀ edge ∈ edges, P g edge) →
        (∀ edge ∈ g.edges, Q g edge) → ∀ edge ∈ g'.edges, Q g' edge := by
  induction edges with
  | nil =>
    intro g g' h _ hg
    cases h
    exact hg
  | cons edge edges ih =>
    intro g g' h hedges hg
    unfold registerSymbols at h
    cases hr : g.registerEdgeSymbols env edge with
    | none => rw [hr] at h; cases h
    | some r =>
      obtain ⟨edge', graph⟩ := r
      rw [hr] at h
      have hsame := (ContextGraph.registerEdgeSymbols_spec hr).1
      refine ih h (fun e he => hcongr hsame.nodes (hedges e (List.mem_cons_of_mem _ he))) fun e he =>
        hcongr' (g := g) hsame.nodes ?_
      rcases List.mem_append.mp he with hold | hlast
      · exact hg e (hsame.edges ▸ hold)
      · rw [List.mem_singleton.mp hlast]
        exact hregister (hedges edge (List.mem_cons_self ..)) hr

/-- What the connections of a document give of their edges, and what registering an edge makes of it,
holds of every edge of the loaded graph. -/
theorem prepareGraph_edges {g : ContextGraph}
    (hcongr : ∀ {g g' edge}, g'.nodes = g.nodes → P g edge → P g' edge)
    (hcongr' : ∀ {g g' edge}, g'.nodes = g.nodes → Q g edge → Q g' edge)
    (hmake : ∀ g, NodesPrepared env doc g → ∀ entry ∈ doc.connections, ∀ edge deepMember,
      connectionEdge doc g entry = .ok edge → P g { edge with deepMember })
    (hregister : ∀ {g g' edge edge'}, P g edge → g.registerEdgeSymbols env edge = some (edge', g') →
      Q g edge') (h : prepareGraph env doc = .ok g) : ∀ edge ∈ g.edges, Q g edge := by
  obtain ⟨-, -, h⟩ := bind_ok h
  obtain ⟨g1, hnodes, h⟩ := bind_ok h
  obtain ⟨g2, hanonymous, h⟩ := bind_ok h
  obtain ⟨g3, hconnections, h⟩ := bind_ok h
  obtain ⟨g4, hsymbols, h⟩ := bind_ok h
  obtain ⟨-, -, h⟩ := bind_ok h
  cases h
  have h1 := prepareNodes_spec hnodes
  have h2 := prepareAnonymous_spec hanonymous
  have hmem : ∀ p ∈ g1.nodes, ∃ item ∈ doc.nodes, item.path = p := fun p hp =>
    ((h1.mem p).mp hp).resolve_left (AList.notMem_empty p)
  have hprepared : NodesPrepared env doc g2 := by
    refine NodesPrepared.of_nodes (g := g1) ⟨fun p hp => ?_, hmem,
      prepareAnonymous_nodes hanonymous, nodeCelltype_prepareNodes hnodes⟩ h2.nodes
    obtain ⟨item, hitem, rfl⟩ := hmem p hp
    exact h1.nonempty item hitem
  have hnone : g2.edges = [] := h2.edges.trans h1.edges
  have hedges := prepareConnections_edges (P := P) hcongr hconnections hprepared hmake
    fun edge hedge => absurd (hnone ▸ hedge) List.not_mem_nil
  exact registerSymbols_edges (P := P) (Q := Q) hcongr hcongr' hregister hsymbols
    (fun edge hedge => hcongr (g := g3) rfl (hedges edge hedge))
    fun edge hedge => absurd hedge List.not_mem_nil

end Edges

/-! ## The anonymous entries -/

/-- Does an anonymous entry read another one? -/
def SourceRef.isSymbol : SourceRef → Bool
  | .node _ => false
  | .symbol _ => true

/-- A chain with one more link behind it starts at the same node. -/
theorem StartsAt.concat {chain : List Recipe} {node : NodePath} (h : StartsAt chain node)
    (hchain : chain ≠ []) (name : String) (celltype : Celltype) (path : Path) :
    StartsAt (chain ++ [⟨.symbol name, celltype, path⟩]) node := by
  obtain ⟨first, rest, rfl⟩ := List.exists_cons_of_ne_nil hchain
  refine ⟨h.head, fun recipe hrecipe => ?_⟩
  rcases List.mem_append.mp (show recipe ∈ rest ++ [_] from hrecipe) with hrest | hlast
  · exact h.behind recipe hrest
  · rw [List.mem_singleton.mp hlast]
    exact ⟨name, rfl⟩

/-- The chain that `resolve_anonymous_node` finds starts at a node that an entry reads, and has two links
at least when the entry reads another one. -/
structure ResolvedStart (entries : List (String × AnonymousEntry)) (entry : AnonymousEntry)
    (r : ResolvedAnonymous) : Prop where
  nonempty : r.chain ≠ []
  starts : StartsAt r.chain r.node
  reads : ∃ item ∈ entries, item.2.source = .node r.node
  linked : entry.source.isSymbol = true → 2 ≤ r.chain.length

theorem resolveAnonymous_starts {g : ContextGraph} {entries : List (String × AnonymousEntry)} :
    ∀ {fuel : Nat} {resolving : List String} {symbol : String} {r : ResolvedAnonymous},
      resolveAnonymous g entries fuel resolving symbol = .ok r →
        ∃ entry, entries.lookup symbol = some entry ∧ ResolvedStart entries entry r := by
  intro fuel
  induction fuel with
  | zero => intro _ _ _ h; cases h
  | succ fuel ih =>
    intro resolving symbol r h
    obtain ⟨-, -, h⟩ := bind_ok h
    cases he : entries.lookup symbol with
    | none => rw [he] at h; cases h
    | some entry =>
      rw [he] at h
      dsimp only at h
      refine ⟨entry, rfl, ?_⟩
      cases hs : entry.source with
      | node path =>
        rw [hs] at h
        cases h
        obtain ⟨before, after, hitems, -⟩ := List.lookup_eq_some_iff.mp he
        refine ⟨List.cons_ne_nil _ _, ⟨?_, fun recipe hrecipe => absurd hrecipe List.not_mem_nil⟩,
          ⟨(symbol, entry), ?_, hs⟩, fun hsymbol => ?_⟩
        · exact fun recipe hrecipe => Option.some.inj hrecipe ▸ rfl
        · rw [hitems]
          exact List.mem_append_right _ (List.mem_cons_self ..)
        · rw [hs] at hsymbol
          cases hsymbol
      | symbol name =>
        rw [hs] at h
        obtain ⟨below, hbelow, h⟩ := bind_ok h
        cases h
        obtain ⟨_, -, hstart⟩ := ih hbelow
        refine ⟨List.append_ne_nil_of_right_ne_nil _ (List.cons_ne_nil _ _),
          hstart.starts.concat hstart.nonempty _ _ _, hstart.reads, fun _ => ?_⟩
        show 2 ≤ (below.chain ++ [_]).length
        rw [List.length_append, List.length_singleton]
        exact Nat.succ_le_succ (List.length_pos_iff.mpr hstart.nonempty)

/-- What `resolve_anonymous_node` finds for an entry: a chain in which no path is cut in two, which ends
with the entry, and the conversions among its links. -/
structure ResolvedChain (doc : Document) (celltypeAt : NodePath → Celltype) (entry : AnonymousEntry)
    (r : ResolvedAnonymous) : Prop where
  ends : ∃ below source, r.chain = below ++ [⟨source, entry.celltype, entry.path⟩] ∧
    linksCelltype (celltypeAt r.node) (below.map Recipe.link) = doc.readCelltype celltypeAt entry
  path : r.path = r.chain.flatMap Recipe.path
  celltype : r.celltype = entry.celltype
  steps : r.steps = conversionsFrom 0 (r.chain.map Recipe.link)
  canonical : Canonical (celltypeAt r.node) (r.chain.map Recipe.link)

/-- One more link on top of an entry keeps the chain canonical, if a path may follow the entry. -/
theorem ResolvedChain.concat {doc : Document} {celltypeAt : NodePath → Celltype} {name : String}
    {entry : AnonymousEntry} {r : ResolvedAnonymous} (h : ResolvedChain doc celltypeAt entry r)
    (hentry : doc.anonymousNodes.lookup name = some entry) {celltype : Celltype} {path : Path}
    (hpath : path ≠ [] → doc.LeavesPath celltypeAt name) :
    Canonical (celltypeAt r.node)
      ((r.chain ++ [(⟨.symbol name, celltype, path⟩ : Recipe)]).map Recipe.link) := by
  obtain ⟨below, source, hchain, hread⟩ := h.ends
  have hcanonical := h.canonical
  rw [hchain, List.map_append, List.map_singleton] at hcanonical
  rw [hchain, List.append_assoc, List.map_append]
  refine hcanonical.concat fun hlast hnext => ?_
  rw [hread]
  exact hpath hnext entry hentry hlast

theorem resolveAnonymous_chain {doc : Document} {g : ContextGraph} :
    ∀ {fuel : Nat} {resolving : List String} {symbol : String} {r : ResolvedAnonymous},
      resolveAnonymous g doc.anonymousNodes fuel resolving symbol = .ok r →
        (∀ used ∈ symbol :: namedBelow doc.anonymousNodes fuel symbol,
          ∀ entry ∈ doc.anonymousNodes.lookup used, doc.RecordsLink g.nodeCelltype entry) →
        ∃ entry, doc.anonymousNodes.lookup symbol = some entry ∧
          ResolvedChain doc g.nodeCelltype entry r := by
  intro fuel
  induction fuel with
  | zero => intro _ _ _ h; cases h
  | succ fuel ih =>
    intro resolving symbol r h hrecords
    obtain ⟨-, -, h⟩ := bind_ok h
    cases he : doc.anonymousNodes.lookup symbol with
    | none => rw [he] at h; cases h
    | some entry =>
      rw [he] at h
      dsimp only at h
      have hentry := hrecords symbol (List.mem_cons_self ..) entry he
      refine ⟨entry, rfl, ?_⟩
      cases hs : entry.source with
      | node path =>
        rw [hs] at h
        cases h
        have hread : doc.readCelltype g.nodeCelltype entry = g.nodeCelltype path := by
          unfold Document.readCelltype
          rw [hs]
        refine ⟨⟨[], .node path, rfl, hread.symm⟩, ?_, rfl, ?_, trivial⟩
        · exact (List.append_nil _).symm
        · -- a conversion of the node changes its celltype
          unfold Document.RecordsLink at hentry
          rw [hread] at hentry
          by_cases hpath : entry.path = []
          · rw [if_pos hpath] at hentry
            unfold ResolvedAnonymous.extend
            dsimp only
            rw [if_pos ⟨hpath, hentry⟩, hpath]
            rfl
          · unfold ResolvedAnonymous.extend
            dsimp only
            rw [if_neg fun h => hpath h.1]
            exact (conversionsFrom_path hpath 0 _ []).symm
      | symbol name =>
        rw [hs] at h
        obtain ⟨below, hbelow, h⟩ := bind_ok h
        cases h
        have hnamed : namedBelow doc.anonymousNodes (fuel + 1) symbol =
            name :: namedBelow doc.anonymousNodes fuel name := by
          rw [namedBelow, he]
          dsimp only
          rw [hs]
        rw [hnamed] at hrecords
        obtain ⟨entry', he', hresolved⟩ := ih hbelow fun used hused =>
          hrecords used (List.mem_cons_of_mem _ hused)
        have hread : doc.readCelltype g.nodeCelltype entry = entry'.celltype := by
          unfold Document.readCelltype
          rw [hs]
          dsimp only
          rw [he']
          rfl
        have hlast : linksCelltype (g.nodeCelltype below.node) (below.chain.map Recipe.link) =
            entry'.celltype := by
          obtain ⟨under, source, hchain, -⟩ := hresolved.ends
          rw [hchain, List.map_append, linksCelltype_append]
          rfl
        refine ⟨⟨below.chain, .symbol name, rfl, hlast.trans hread.symm⟩, ?_, rfl, ?_, ?_⟩
        · show below.path ++ entry.path = (below.chain ++ [_]).flatMap Recipe.path
          rw [hresolved.path, List.flatMap_append]
          exact congrArg (_ ++ ·) (List.append_nil _).symm
        · -- the conversion is counted in the steps as it is in the chain
          have hlength : 0 + ((below.chain.map Recipe.link).flatMap Prod.snd).length =
              below.path.length := by
            rw [flatMap_link, ← hresolved.path, Nat.zero_add]
          show (if entry.path = [] ∧ entry.celltype ≠ below.celltype then _ else below.steps) =
            conversionsFrom 0 ((below.chain ++ [_]).map Recipe.link)
          rw [List.map_append, conversionsFrom_append, hlength, ← hresolved.steps, hresolved.celltype]
          unfold Document.RecordsLink at hentry
          rw [hread] at hentry
          by_cases hpath : entry.path = []
          · rw [if_pos hpath] at hentry
            rw [if_pos ⟨hpath, hentry⟩, hpath, List.append_nil]
            rfl
          · rw [if_neg fun h => hpath h.1]
            exact (congrArg (below.steps ++ ·) (conversionsFrom_path hpath _ _ [])).symm ▸
              (List.append_nil _).symm
        · refine hresolved.concat he' fun hpath => ?_
          unfold Document.RecordsLink at hentry
          rw [if_neg hpath, hs] at hentry
          exact hentry

/-! ## The edges -/

/-- An edge that is read from a document is formed, and its chain is cut as live wiring cuts it. -/
structure Edge.LoadedAsWired (g : ContextGraph) (edge : Edge) : Prop where
  formed : edge.Formed
  chain : edge.sourceChain ≠ [] → ∃ node, StartsAt edge.sourceChain node ∧
    g.resolveExisting edge.source = some (node, edge.sourceChain.flatMap Recipe.path) ∧
    edge.sourceConversionSteps = conversionsFrom 0 (edge.sourceChain.map Recipe.link) ∧
    Canonical (g.nodeCelltype node) (edge.sourceChain.map Recipe.link)

theorem connectionEdge_loadedAsWired {env : Substrate} {doc : Document} {g : ContextGraph}
    {entry : ConnectionEntry} {edge : Edge} (hprepared : NodesPrepared env doc g)
    (hrecords : doc.RecordsChain g.nodeCelltype entry.source)
    (h : connectionEdge doc g entry = .ok edge) : edge.LoadedAsWired g := by
  unfold connectionEdge at h
  dsimp only at h
  split at h
  · cases h
    exact ⟨by simp [Edge.Formed], fun hchain => absurd rfl hchain⟩
  · split at h
    · cases h
      exact ⟨by simp [Edge.Formed], fun hchain => absurd rfl hchain⟩
    · rename_i hsteps
      cases h
      exact ⟨by simp [Edge.Formed, hsteps], fun hchain => absurd rfl hchain⟩
  · rename_i name sourcePath hs
    obtain ⟨resolved, hr, h⟩ := bind_ok h
    cases h
    rw [hs] at hrecords
    obtain ⟨hentries, hpath, hapart⟩ := hrecords
    obtain ⟨last, hlast, hresolved⟩ := resolveAnonymous_chain hr hentries
    obtain ⟨_, -, hstart⟩ := resolveAnonymous_starts hr
    refine ⟨by simp [Edge.Formed], fun _ => ⟨resolved.node, ?_⟩⟩
    -- the source resolves to the node and the path that the chain reads
    have hplace : doc.reference (.symbol name sourcePath) =
        some ⟨resolved.node, resolved.path ++ sourcePath⟩ := by
      unfold Document.reference
      dsimp only
      rw [anonymousPlace_of_resolve hr]
      rfl
    have hstands : resolved.node ∈ g.nodes := by
      obtain ⟨item, hitem, hsource⟩ := hstart.reads
      exact hprepared.reads item hitem _ hsource
    have hresolves : g.resolveExisting (⟨resolved.node, resolved.path ++ sourcePath⟩ : Place).flat =
        some (resolved.node, resolved.path ++ sourcePath) := by
      refine resolveExisting_place.mpr ⟨hprepared.named _ hstands, hstands, fun p hp => ?_⟩
      obtain ⟨item, hitem, rfl⟩ := hprepared.mem p hp
      exact hapart _ hplace item hitem
    by_cases hsourcePath : sourcePath = []
    · rw [hsourcePath, List.append_nil] at hresolves
      dsimp only
      rw [if_pos hsourcePath, hsourcePath, List.append_nil, ← hresolved.path]
      exact ⟨hstart.starts, hresolves, hresolved.steps, hresolved.canonical⟩
    · dsimp only
      rw [if_neg hsourcePath]
      refine ⟨hstart.starts.concat hstart.nonempty _ _ _, hresolves.trans ?_, ?_,
        hresolved.concat hlast hpath⟩
      · rw [List.flatMap_append, ← hresolved.path]
        exact congrArg (fun p => some (resolved.node, resolved.path ++ p)) (List.append_nil _).symm
      · rw [List.map_append, conversionsFrom_append, ← hresolved.steps]
        exact ((congrArg (resolved.steps ++ ·) (conversionsFrom_path hsourcePath _ _ [])).trans
          (List.append_nil _)).symm

theorem Edge.LoadedAsWired.of_nodes {g g' : ContextGraph} {edge : Edge} (h : edge.LoadedAsWired g)
    (hnodes : g'.nodes = g.nodes) : edge.LoadedAsWired g' where
  formed := h.formed
  chain hchain := by
    obtain ⟨node, hstarts, hresolves, hsteps, hcanonical⟩ := h.chain hchain
    refine ⟨node, hstarts, ?_, hsteps, ?_⟩
    · rw [ContextGraph.resolveExisting_of_nodes hnodes]
      exact hresolves
    · rw [ContextGraph.nodeCelltype_of_nodes hnodes]
      exact hcanonical

/-- Registering the symbols leaves a chain as it is, or records the links of the recipe. -/
theorem Edge.LoadedAsWired.register {env : Substrate} {g g' : ContextGraph} {edge edge' : Edge}
    (h : edge.LoadedAsWired g) (hr : g.registerEdgeSymbols env edge = some (edge', g')) :
    edge'.ReadAsWired g := by
  by_cases hchain : edge.sourceChain = []
  · obtain ⟨node, localPath, hregisters⟩ := ContextGraph.registers_of_register hchain hr
    obtain ⟨-, chain, rfl⟩ := ContextGraph.registerEdgeSymbols_spec hr
    exact hregisters.readAsWired h.formed
  · obtain rfl := ContextGraph.register_chained hchain hr
    obtain ⟨node, hstarts, hresolves, hsteps, hcanonical⟩ := h.chain hchain
    exact Edge.readAsWired_of_canonical h.formed hresolves hstarts hsteps hcanonical

/-- In a graph that is loaded from a document whose chains live wiring records, every edge is read as it
was wired. -/
theorem prepareGraph_readAsWired {env : Substrate} {doc : Document} {g : ContextGraph}
    (hdoc : doc.RecordsChains env) (h : prepareGraph env doc = .ok g) :
    ∀ edge ∈ g.edges, edge.ReadAsWired g := by
  refine prepareGraph_edges (P := fun g edge => edge.LoadedAsWired g)
    (Q := fun g edge => edge.ReadAsWired g) (fun hnodes hloaded => hloaded.of_nodes hnodes)
    (fun hnodes hread => hread.of_nodes hnodes) (fun g hprepared entry hentry edge deepMember hedge => ?_)
    (fun hloaded hr => hloaded.register hr) h
  have hloaded := connectionEdge_loadedAsWired hprepared
    (hprepared.celltype ▸ hdoc entry hentry) hedge
  exact ⟨hloaded.formed, hloaded.chain⟩

/-- Two entries, one behind the other, that live wiring records. -/
example : twoLinks.RecordsChains .fixed := by decide

end SeamlessWorkflow
