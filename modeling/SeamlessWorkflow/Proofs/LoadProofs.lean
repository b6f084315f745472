import SeamlessWorkflow.Proofs.CopyProofs

/-!
# Loaded graphs

What `prepareGraph` guarantees of the graph that it reads from a document.
-/

namespace SeamlessWorkflow

open Program Relation

theorem bind_ok {α β : Type} {x : Except Error α} {f : α → Except Error β} {b : β}
    (h : (x >>= f) = .ok b) : ∃ a, x = .ok a ∧ f a = .ok b := by
  cases x with
  | error e => cases h
  | ok a => exact ⟨a, rfl, h⟩

theorem rejectIf_ok {c : Prop} [Decidable c] {kind : ErrorKind} {text : String} {u : Unit}
    (h : rejectIf c kind text = .ok u) : ¬ c := by
  unfold rejectIf at h
  by_cases hc : c
  · rw [if_pos hc] at h
    cases h
  · exact hc

def NodeEntry.isCell (entry : NodeEntry) : Bool :=
  match entry.body with
  | .cell _ _ => true
  | .transformer _ => false

theorem isCell_entryNode {env : Substrate} {entry : NodeEntry} {node : Node}
    (h : entry.node env = .ok node) : node.isCell = entry.isCell := by
  obtain ⟨body, hbody, hnode⟩ := bind_ok h
  cases hnode
  unfold NodeEntry.isCell Node.isCell
  cases hentry : entry.body with
  | cell config value =>
    rw [hentry] at hbody
    cases hbody
    rfl
  | transformer transformer =>
    rw [hentry] at hbody
    obtain ⟨config, -, hbody⟩ := bind_ok hbody
    cases hbody
    rfl

/-! ## The nodes -/

/-- Nodes have been added for the entries of a document, at new paths. -/
structure NodesLoaded (entries : List NodeEntry) (g g' : ContextGraph) : Prop where
  edges : g'.edges = g.edges
  mem : ∀ p, p ∈ g'.nodes ↔ p ∈ g.nodes ∨ ∃ entry ∈ entries, entry.path = p
  stays : ∀ p ∈ g.nodes, g'.nodes.lookup p = g.nodes.lookup p
  kind : ∀ entry ∈ entries, (g'.nodes.lookup entry.path).map Node.isCell = some entry.isCell
  nonempty : ∀ entry ∈ entries, entry.path ≠ []

theorem prepareNodes_spec {env : Substrate} {version : String} {entries : List NodeEntry} :
    ∀ {urls : List String} {g g' : ContextGraph},
      prepareNodes env version entries urls g = .ok g' → NodesLoaded entries g g' := by
  induction entries with
  | nil =>
    intro urls g g' h
    cases h
    exact ⟨rfl, by simp, fun _ _ => rfl, by simp, by simp⟩
  | cons entry entries ih =>
    intro urls g g' h
    obtain ⟨_, hpath, h⟩ := bind_ok h
    obtain ⟨node, hnode, h⟩ := bind_ok h
    obtain ⟨-, -, h⟩ := bind_ok h
    obtain ⟨-, -, h⟩ := bind_ok h
    obtain ⟨-, -, h⟩ := bind_ok h
    obtain ⟨hne, hnew⟩ := not_or.mp (rejectIf_ok hpath)
    have hload := ih h
    have hput : ∀ p, p ∈ (g.putNode entry.path node).nodes ↔ p = entry.path ∨ p ∈ g.nodes :=
      fun p => AList.mem_insert _
    refine ⟨hload.edges, fun p => ?_, fun p hp => ?_, fun e he => ?_, fun e he => ?_⟩
    · rw [hload.mem, hput, List.exists_mem_cons_iff, eq_comm (a := p), or_assoc, or_left_comm]
    · rw [hload.stays p ((hput p).mpr (Or.inr hp))]
      exact AList.lookup_insert_ne fun h => hnew (h ▸ hp)
    · rcases List.mem_cons.mp he with rfl | he
      · rw [hload.stays _ ((hput _).mpr (Or.inl rfl))]
        show ((g.nodes.insert e.path node).lookup e.path).map Node.isCell = _
        rw [AList.lookup_insert, Option.map_some, isCell_entryNode hnode]
      · exact hload.kind e he
    · rcases List.mem_cons.mp he with rfl | he
      · exact hne
      · exact hload.nonempty e he

theorem prepareAnonymous_spec {doc : Document} {g g' : ContextGraph}
    (h : prepareAnonymous doc g = .ok g') : ContextGraph.SameGraph g g' := by
  obtain ⟨-, -, h⟩ := bind_ok h
  obtain ⟨-, -, h⟩ := bind_ok h
  obtain ⟨-, -, h⟩ := bind_ok h
  cases h
  exact ⟨rfl, rfl, rfl⟩

/-! ## The connections -/

/-- Two edges have the same end points. -/
structure SameEnds (edge edge' : Edge) : Prop where
  sourcePlace : edge'.sourcePlace = edge.sourcePlace
  targetPlace : edge'.targetPlace = edge.targetPlace

theorem SameEnds.source {edge edge' : Edge} (h : SameEnds edge edge') :
    edge'.source = edge.source := by rw [edge'.sourceFlat, h.sourcePlace, edge.sourceFlat]

theorem SameEnds.target {edge edge' : Edge} (h : SameEnds edge edge') :
    edge'.target = edge.target := by rw [edge'.targetFlat, h.targetPlace, edge.targetFlat]

/-- The place that a chain of anonymous entries reads. -/
def anonymousPlace (entries : List (String × AnonymousEntry)) : Nat → String → Option Place
  | 0, _ => none
  | fuel + 1, symbol =>
    match entries.lookup symbol with
    | none => none
    | some entry =>
      match entry.source with
      | .node path => some ⟨path, entry.path⟩
      | .symbol name => (anonymousPlace entries fuel name).map fun below =>
        ⟨below.node, below.localPath ++ entry.path⟩

/-- The place that a connection refers to: none when its source is a flattened path. -/
def Document.reference (doc : Document) (source : ConnectionSource) : Option Place :=
  match source with
  | .flat _ => none
  | .node path sourcePath _ => some ⟨path, sourcePath⟩
  | .symbol name sourcePath =>
    (anonymousPlace doc.anonymousNodes (doc.anonymousNodes.length + 1) name).map fun below =>
      ⟨below.node, below.localPath ++ sourcePath⟩

theorem anonymousPlace_of_resolve {g : ContextGraph} {entries : List (String × AnonymousEntry)} :
    ∀ {fuel : Nat} {resolving : List String} {symbol : String} {r : ResolvedAnonymous},
      resolveAnonymous g entries fuel resolving symbol = .ok r →
        anonymousPlace entries fuel symbol = some ⟨r.node, r.path⟩ := by
  intro fuel
  induction fuel with
  | zero => intro _ _ _ h; cases h
  | succ fuel ih =>
    intro resolving symbol r h
    obtain ⟨-, -, h⟩ := bind_ok h
    unfold anonymousPlace
    cases he : entries.lookup symbol with
    | none => rw [he] at h; cases h
    | some entry =>
      rw [he] at h
      dsimp only at h ⊢
      cases hs : entry.source with
      | node path =>
        rw [hs] at h
        cases h
        rfl
      | symbol name =>
        rw [hs] at h
        obtain ⟨below, hbelow, h⟩ := bind_ok h
        cases h
        dsimp only
        rw [ih hbelow]
        rfl

/-- An edge that reads as a connection of a document, and has passed the checks on it. -/
structure ConnectionLoaded (doc : Document) (g : ContextGraph) (entry : ConnectionEntry)
    (edge : Edge) : Prop where
  target : edge.target = entry.target
  targetPlace : edge.targetPlace = g.placeOf entry.target
  sourcePlace : (∃ path, entry.source = .flat path ∧ edge.sourcePlace = g.placeOf path) ∨
    doc.reference entry.source = some edge.sourcePlace
  source : ∃ n l, g.resolveExisting edge.source = some (n, l)
  resolves : ∃ n l, g.resolveExisting edge.target = some (n, l) ∧ l.length ≤ 1

theorem connectionEdge_ok {doc : Document} {g : ContextGraph} {entry : ConnectionEntry}
    {edge : Edge} (h : connectionEdge doc g entry = .ok edge) : edge.target = entry.target ∧
      edge.targetPlace = g.placeOf entry.target ∧ ((∃ path, entry.source = .flat path ∧
        edge.sourcePlace = g.placeOf path) ∨ doc.reference entry.source = some edge.sourcePlace) := by
  unfold connectionEdge at h
  dsimp only at h
  split at h
  · rename_i hs
    cases h
    exact ⟨rfl, rfl, Or.inl ⟨_, hs, rfl⟩⟩
  · rename_i hs
    rw [hs]
    split at h <;> (cases h; exact ⟨rfl, rfl, Or.inr rfl⟩)
  · rename_i hs
    obtain ⟨resolved, hr, h⟩ := bind_ok h
    cases h
    refine ⟨rfl, rfl, Or.inr ?_⟩
    unfold Document.reference
    rw [hs]
    dsimp only
    rw [anonymousPlace_of_resolve hr]
    rfl

theorem checkConnection_ok {g : ContextGraph} {edge edge' : Edge}
    (h : checkConnection g edge = .ok edge') :
    SameEnds edge edge' ∧
      (∃ n l, g.resolveExisting edge.source = some (n, l)) ∧
      (∃ n l, g.resolveExisting edge.target = some (n, l) ∧ l.length ≤ 1) ∧
      ∀ other ∈ g.edges, other.target ≠ edge.target := by
  unfold checkConnection at h
  cases hs : g.resolveExisting edge.source with
  | none => rw [hs] at h; cases h
  | some s =>
    cases ht : g.resolveExisting edge.target with
    | none => rw [hs, ht] at h; cases h
    | some t =>
      obtain ⟨n, l⟩ := t
      rw [hs, ht] at h
      dsimp only at h
      cases hn : g.nodes.lookup n with
      | none => rw [hn] at h; cases h
      | some node =>
        rw [hn] at h
        obtain ⟨-, -, h⟩ := bind_ok h
        obtain ⟨-, -, h⟩ := bind_ok h
        obtain ⟨_, hcell, h⟩ := bind_ok h
        obtain ⟨_, htransformer, h⟩ := bind_ok h
        obtain ⟨_, hfree, h⟩ := bind_ok h
        cases h
        refine ⟨⟨rfl, rfl⟩, ⟨s.1, s.2, rfl⟩, ⟨n, l, rfl, ?_⟩, fun other ho heq => ?_⟩
        · have hcell := rejectIf_ok hcell
          have htransformer := rejectIf_ok htransformer
          cases hk : node.isCell with
          | true =>
            rw [hk] at hcell
            by_contra hl
            exact hcell ⟨rfl, Or.inl (by omega)⟩
          | false =>
            rw [hk] at htransformer
            by_contra hl
            exact htransformer ⟨rfl, by omega⟩
        · refine rejectIf_ok hfree (List.any_eq_true.mpr ⟨other, ho, ?_⟩)
          exact decide_eq_true heq

/-- The edges of the connections have been added, each with a target of its own. -/
structure ConnectionsLoaded (doc : Document) (connections : List ConnectionEntry)
    (g g' : ContextGraph) : Prop where
  nodes : g'.nodes = g.nodes
  edges : ∃ new, List.Forall₂ (ConnectionLoaded doc g) connections new ∧
    g'.edges = g.edges ++ new
  distinct : (g.edges.map Edge.target).Nodup → (g'.edges.map Edge.target).Nodup

theorem prepareConnections_spec {doc : Document} {connections : List ConnectionEntry} :
    ∀ {g g' : ContextGraph}, prepareConnections doc connections g = .ok g' →
      ConnectionsLoaded doc connections g g' := by
  induction connections with
  | nil =>
    intro g g' h
    cases h
    exact ⟨rfl, ⟨[], .nil, by simp⟩, id⟩
  | cons entry connections ih =>
    intro g g' h
    obtain ⟨edge, hedge, h⟩ := bind_ok h
    obtain ⟨edge', hcheck, h⟩ := bind_ok h
    obtain ⟨hends, hs, ht, hfree⟩ := checkConnection_ok hcheck
    have hends : SameEnds edge edge' := ⟨hends.sourcePlace, hends.targetPlace⟩
    obtain ⟨hnodes, ⟨new, hnew, hedges⟩, hdistinct⟩ := ih h
    obtain ⟨htarget, htargetPlace, hsourcePlace⟩ := connectionEdge_ok hedge
    have hloaded : ConnectionLoaded doc g entry edge' := by
      refine ⟨hends.target.trans htarget, hends.targetPlace.trans htargetPlace, ?_, ?_, ?_⟩
      · rw [hends.sourcePlace]; exact hsourcePlace
      · rw [hends.source]; exact hs
      · rw [hends.target]; exact ht
    refine ⟨hnodes, ⟨_, .cons hloaded (hnew.imp fun c e he =>
        ⟨he.target, he.targetPlace, he.sourcePlace, he.source, he.resolves⟩),
      by rw [hedges]; simp⟩, fun hd => hdistinct ?_⟩
    rw [List.map_append, List.map_singleton, List.nodup_append]
    refine ⟨hd, by simp, fun a ha b hb hab => ?_⟩
    obtain ⟨other, ho, rfl⟩ := List.mem_map.mp ha
    exact hfree other ho ((hab.trans (List.mem_singleton.mp hb)).trans hends.target)

/-- Registering the symbols of the edges changes their chains only. -/
theorem registerSymbols_spec {env : Substrate} {edges : List Edge} :
    ∀ {g g' : ContextGraph}, registerSymbols env edges g = .ok g' → g'.nodes = g.nodes ∧
      ∃ new, List.Forall₂ SameEnds edges new ∧ g'.edges = g.edges ++ new := by
  induction edges with
  | nil =>
    intro g g' h
    cases h
    exact ⟨rfl, [], .nil, by simp⟩
  | cons edge edges ih =>
    intro g g' h
    unfold registerSymbols at h
    cases hr : g.registerEdgeSymbols env edge with
    | none => rw [hr] at h; cases h
    | some r =>
      obtain ⟨edge', graph⟩ := r
      rw [hr] at h
      obtain ⟨hsame, chain, rfl⟩ := ContextGraph.registerEdgeSymbols_spec hr
      obtain ⟨hnodes, new, hnew, hedges⟩ := ih h
      refine ⟨hnodes.trans hsame.nodes, { edge with sourceChain := chain } :: new,
        .cons ⟨rfl, rfl⟩ hnew, ?_⟩
      rw [hedges]
      simp [hsame.edges]

/-! ## The whole graph -/

section Related

variable {α β γ δ : Type} {R : α → β → Prop} {S : β → γ → Prop} {T : α → γ → Prop} {l : List α}
  {l' : List β} {l'' : List γ}

theorem map_eq_of_related (h : List.Forall₂ R l l') {f : α → δ} {g : β → δ}
    (hfg : ∀ a b, R a b → g b = f a) : l'.map g = l.map f := by
  induction h with
  | nil => rfl
  | cons hab _ ih => rw [List.map_cons, List.map_cons, hfg _ _ hab, ih]

theorem related_trans (h : List.Forall₂ R l l') (h' : List.Forall₂ S l' l'')
    (hT : ∀ a b c, R a b → S b c → T a c) : List.Forall₂ T l l'' := by
  induction h generalizing l'' with
  | nil =>
    cases h'
    exact .nil
  | cons hab _ ih =>
    cases h' with
    | cons hbc h' => exact .cons (hT _ _ _ hab hbc) (ih h')

theorem exists_related (h : List.Forall₂ R l l') {b : β} (hb : b ∈ l') : ∃ a ∈ l, R a b := by
  induction h with
  | nil => exact absurd hb List.not_mem_nil
  | @cons a b' l l' hab _ ih =>
    rcases List.mem_cons.mp hb with rfl | hb
    · exact ⟨a, List.mem_cons_self .., hab⟩
    · obtain ⟨a', ha', hr⟩ := ih hb
      exact ⟨a', List.mem_cons_of_mem _ ha', hr⟩

end Related

/-- What a loaded graph is. -/
structure Loaded (doc : Document) (g : ContextGraph) : Prop where
  mem : ∀ p, p ∈ g.nodes ↔ ∃ entry ∈ doc.nodes, entry.path = p
  kind : ∀ entry ∈ doc.nodes, (g.nodes.lookup entry.path).map Node.isCell = some entry.isCell
  nonempty : ∀ entry ∈ doc.nodes, entry.path ≠ []
  edges : List.Forall₂ (ConnectionLoaded doc g) doc.connections g.edges
  distinct : (g.edges.map Edge.target).Nodup
  acyclic : Reach.Acyclic g.Feeds

theorem acyclic_of_not_cyclic {g : ContextGraph} (h : g.cyclic = false) :
    Reach.Acyclic g.Feeds := by
  have hfeeds : ∀ a b, g.Feeds a b → Reach.Edge (g.edges.filterMap g.edgeNodes) a b :=
    fun a b hab => List.mem_filterMap.mpr hab
  intro a hcycle
  obtain ⟨b, hab, hba⟩ := TransGen.head'_iff.mp hcycle
  unfold ContextGraph.cyclic at h
  dsimp only at h
  rw [List.any_eq_false] at h
  exact h (a, b) (hfeeds a b hab) (Reach.reaches_iff.mpr (hba.lift id hfeeds))

theorem ConnectionLoaded.congr {doc : Document} {g g' : ContextGraph} (hg : g'.nodes = g.nodes)
    {entry : ConnectionEntry} {edge edge' : Edge} (h : ConnectionLoaded doc g entry edge)
    (hends : SameEnds edge edge') : ConnectionLoaded doc g' entry edge' := by
  have hres := ContextGraph.resolveExisting_of_nodes hg
  have hplace : g'.placeOf = g.placeOf := by
    funext path
    unfold ContextGraph.placeOf
    rw [hres]
  refine ⟨hends.target.trans h.target, ?_, ?_, ?_, ?_⟩
  · rw [hplace, hends.targetPlace]; exact h.targetPlace
  · rw [hplace, hends.sourcePlace]; exact h.sourcePlace
  · rw [hres, hends.source]; exact h.source
  · rw [hres, hends.target]; exact h.resolves

theorem prepareGraph_spec {env : Substrate} {doc : Document} {g : ContextGraph}
    (h : prepareGraph env doc = .ok g) : Loaded doc g := by
  obtain ⟨-, -, h⟩ := bind_ok h
  obtain ⟨g1, hnodes, h⟩ := bind_ok h
  obtain ⟨g2, hanonymous, h⟩ := bind_ok h
  obtain ⟨g3, hconnections, h⟩ := bind_ok h
  obtain ⟨g4, hsymbols, h⟩ := bind_ok h
  obtain ⟨_, hcyclic, h⟩ := bind_ok h
  cases h
  have h1 := prepareNodes_spec hnodes
  have h2 := prepareAnonymous_spec hanonymous
  obtain ⟨hnodes3, ⟨new, hnew, hedges3⟩, hdistinct⟩ := prepareConnections_spec hconnections
  obtain ⟨hnodes4, new', hnew', hedges4⟩ := registerSymbols_spec hsymbols
  have hall : g.nodes = g1.nodes := (hnodes4.trans hnodes3).trans h2.nodes
  have hnone : g2.edges = [] := h2.edges.trans h1.edges
  rw [hnone, List.nil_append] at hedges3
  rw [List.nil_append] at hedges4
  subst hedges3
  subst hedges4
  have htargets : g.edges.map Edge.target = g3.edges.map Edge.target :=
    map_eq_of_related hnew' fun _ _ => SameEnds.target
  refine ⟨fun p => ?_, fun entry he => ?_, h1.nonempty, ?_, ?_, ?_⟩
  · rw [hall, h1.mem]
    exact ⟨fun h => h.resolve_left (AList.notMem_empty p), Or.inr⟩
  · rw [hall]; exact h1.kind entry he
  · exact related_trans hnew hnew' fun _ _ _ => ConnectionLoaded.congr (hnodes4.trans hnodes3)
  · rw [htargets]
    exact hdistinct (by simp [hnone])
  · exact acyclic_of_not_cyclic (by simpa using rejectIf_ok hcyclic)

/-- A document connects no cell both as a whole and at a sub-path. -/
def Document.RootAlone (doc : Document) : Prop :=
  ∀ entry ∈ doc.nodes, entry.isCell = true → ∀ c ∈ doc.connections, c.target = entry.path →
    ∀ c' ∈ doc.connections, c'.target.dropLast = entry.path →
      ∃ other ∈ doc.nodes, other.path = c'.target

instance (doc : Document) : Decidable doc.RootAlone := by
  unfold Document.RootAlone
  infer_instance

theorem Loaded.wellWired {doc : Document} {g : ContextGraph} (h : Loaded doc g)
    (hroot : doc.RootAlone) : g.wiring.WellWired := by
  have hloaded : ∀ wire ∈ g.wiring.wires, ∃ c ∈ doc.connections, ∃ edge ∈ g.edges,
      edge.wire = wire ∧ ConnectionLoaded doc g c edge := fun wire hw => by
    obtain ⟨edge, hedge, rfl⟩ := List.mem_map.mp hw
    obtain ⟨c, hc, hl⟩ := exists_related h.edges hedge
    exact ⟨c, hc, edge, hedge, rfl, hl⟩
  refine ⟨fun wire hw => ?_, fun wire hw => ?_, ?_, ?_, ?_⟩
  · obtain ⟨c, -, edge, -, rfl, hl⟩ := hloaded wire hw
    obtain ⟨n, l, hr⟩ := hl.source
    exact ⟨n, l, edge.wire_source ▸ ContextGraph.resolveExisting_eq_some.mp hr⟩
  · obtain ⟨c, -, edge, -, rfl, hl⟩ := hloaded wire hw
    obtain ⟨n, l, hr, hlen⟩ := hl.resolves
    exact ⟨n, l, edge.wire_target ▸ ContextGraph.resolveExisting_eq_some.mp hr, hlen⟩
  · show ((g.edges.map Edge.wire).map fun wire => wire.target.flat).Nodup
    rw [List.map_map]
    simpa only [Function.comp_def, Edge.wire_target] using h.distinct
  · intro x hx y hy n l hn hrx hry
    obtain ⟨c, hc, ex, -, rfl, hlx⟩ := hloaded x hx
    obtain ⟨c', hc', ey, -, rfl, hly⟩ := hloaded y hy
    rw [Edge.wire_target] at hrx hry
    obtain ⟨n', l', hr', hlen⟩ := hly.resolves
    obtain ⟨rfl, rfl⟩ := hry.unique (ContextGraph.resolveExisting_eq_some.mp hr')
    obtain ⟨entry, hentry, rfl⟩ := (h.mem n).mp (ContextGraph.mem_of_resolves hrx)
    have hcell : entry.isCell = true := by
      have hkind : g.wiring.node entry.path = some entry.isCell := h.kind entry hentry
      exact Option.some.inj (hkind.symm.trans hn)
    by_contra hne
    obtain ⟨k, rfl⟩ := List.length_eq_one_iff.mp
      (le_antisymm hlen (List.length_pos_iff.mpr hne))
    -- the sub-path would be a node of its own
    have hroot' : c.target = entry.path := by
      rw [← hlx.target, ← hrx.flat, List.append_nil]
    have hsub : c'.target = entry.path ++ [k] := by rw [← hly.target, ← hry.flat]
    obtain ⟨other, ho, hpath⟩ :=
      hroot entry hentry hcell c hc hroot' c' hc' (by rw [hsub, List.dropLast_concat])
    have hstands : g.wiring.stands other.path = true := by
      rw [ContextGraph.stands_wiring]
      exact decide_eq_true ((h.mem _).mpr ⟨other, ho, rfl⟩)
    have := hry.longest _ hstands (by rw [hpath, hly.target])
    rw [hpath, hsub, List.length_append, List.length_singleton] at this
    omega
  · exact h.acyclic.mono fun a b => ContextGraph.feeds_iff.mpr

end SeamlessWorkflow
