import SeamlessWorkflow.Proofs.SymbolRuns
import SeamlessWorkflow.Proofs.LoadProofs

/-!
# Symbols read from a document and written to one

A later entry of a document takes the recipe of an earlier one over. The chains of the loaded graph
are linked when no symbol that they name has been given up that way, and the document that is saved
then contains every anonymous entry it names.
-/

namespace SeamlessWorkflow

open Program Relation

/-- The symbol that a loaded table keeps for a recipe: that of the last entry that has it. -/
def lastSymbol (entries : List (String × AnonymousEntry)) (recipe : Recipe) : Option String :=
  (entries.reverse.find? fun entry => decide (entry.2.recipe = recipe)).map Prod.fst

/-- The symbols that stand between an anonymous entry and the node its chain reads. -/
def namedBelow (entries : List (String × AnonymousEntry)) : Nat → String → List String
  | 0, _ => []
  | fuel + 1, symbol =>
    match entries.lookup symbol with
    | none => []
    | some entry =>
      match entry.source with
      | .node _ => []
      | .symbol name => name :: namedBelow entries fuel name

/-- The symbols that the chain of a connection names. -/
def ConnectionSource.names (entries : List (String × AnonymousEntry)) :
    ConnectionSource → List String
  | .symbol name sourcePath =>
    (if sourcePath = [] then [] else [name]) ++ namedBelow entries (entries.length + 1) name
  | .flat _ | .node _ _ _ => []

/-- A symbol stands for the recipe of its entry. -/
def Document.Stands (doc : Document) (name : String) : Prop :=
  ∀ entry ∈ doc.anonymousNodes.lookup name,
    lastSymbol doc.anonymousNodes entry.recipe = some name

/-- The keys of the anonymous entries are those of a mapping, and none that a connection names has
lost its recipe to a later entry. -/
structure Document.SymbolsStand (doc : Document) : Prop where
  keys : (doc.anonymousNodes.map Prod.fst).Nodup
  stand : ∀ connection ∈ doc.connections, ∀ name ∈ connection.source.names doc.anonymousNodes,
    doc.Stands name

instance (doc : Document) (name : String) : Decidable (doc.Stands name) := by
  unfold Document.Stands
  infer_instance

instance (doc : Document) : Decidable doc.SymbolsStand :=
  decidable_of_iff ((doc.anonymousNodes.map Prod.fst).Nodup ∧
    ∀ connection ∈ doc.connections, ∀ name ∈ connection.source.names doc.anonymousNodes,
      doc.Stands name) ⟨fun h => ⟨h.1, h.2⟩, fun h => ⟨h.keys, h.stand⟩⟩

/-! ## The loaded table -/

theorem lookup_loaded (entries : List (String × AnonymousEntry)) (table : SymbolTable)
    (recipe : Recipe) :
    (entries.foldl (fun symbols entry => symbols.insert entry.2.recipe entry.1) table).lookup
      recipe = (lastSymbol entries recipe).or (table.lookup recipe) := by
  unfold lastSymbol
  induction entries generalizing table with
  | nil => rfl
  | cons entry entries ih =>
    rw [List.foldl_cons, ih, List.reverse_cons, List.find?_append]
    cases hf : entries.reverse.find? fun entry => decide (entry.2.recipe = recipe) with
    | some last => rfl
    | none =>
      by_cases he : entry.2.recipe = recipe
      · have hl : (table.insert entry.2.recipe entry.1).lookup recipe = some entry.1 := by
          rw [he]
          exact AList.lookup_insert _
        simp [he]
      · have hl : (table.insert entry.2.recipe entry.1).lookup recipe = table.lookup recipe :=
          AList.lookup_insert_ne (Ne.symm he)
        simp [he, hl]

theorem lastSymbol_mem {entries : List (String × AnonymousEntry)} {recipe : Recipe}
    {symbol : String} (h : lastSymbol entries recipe = some symbol) :
    ∃ entry, (symbol, entry) ∈ entries ∧ entry.recipe = recipe := by
  obtain ⟨⟨key, entry⟩, hf, hk⟩ := Option.map_eq_some_iff.mp h
  subst hk
  refine ⟨entry, List.mem_reverse.mp (List.mem_of_find?_eq_some hf), ?_⟩
  have := List.find?_some hf
  simpa using this

/-- The loaded table gives a recipe the symbol of the last entry that has it. -/
theorem oneToOne_loaded {entries : List (String × AnonymousEntry)} {table : SymbolTable}
    (hkeys : (entries.map Prod.fst).Nodup)
    (htable : ∀ recipe, table.lookup recipe = lastSymbol entries recipe) : OneToOne table := by
  intro r r' symbol hr hr'
  obtain ⟨entry, hm, rfl⟩ := lastSymbol_mem ((htable r).symm.trans hr)
  obtain ⟨entry', hm', rfl⟩ := lastSymbol_mem ((htable r').symm.trans hr')
  have he : (symbol, entry) = (symbol, entry') := List.inj_on_of_nodup_map hkeys hm hm' rfl
  rw [(Prod.mk.inj he).2]

theorem symbols_prepareNodes {env : Substrate} {version : String} {entries : List NodeEntry} :
    ∀ {urls : List String} {g g' : ContextGraph},
      prepareNodes env version entries urls g = .ok g' → g'.symbols = g.symbols := by
  induction entries with
  | nil =>
    intro urls g g' h
    cases h
    rfl
  | cons entry entries ih =>
    intro urls g g' h
    obtain ⟨_, -, h⟩ := bind_ok h
    obtain ⟨node, -, h⟩ := bind_ok h
    obtain ⟨-, -, h⟩ := bind_ok h
    obtain ⟨-, -, h⟩ := bind_ok h
    obtain ⟨-, -, h⟩ := bind_ok h
    exact (ih h).trans rfl

/-! ## The loaded chains -/

/-- The chain of an anonymous entry ends with the recipe of the entry, and the symbols before it
are linked. -/
structure ChainLoaded (table : SymbolTable) (entry : AnonymousEntry) (r : ResolvedAnonymous) :
    Prop where
  links : ∃ below, r.chain = below ++ [entry.recipe] ∧
    Links table (.node r.node) below entry.recipe.source

theorem chainLoaded {doc : Document} {g : ContextGraph} {table : SymbolTable}
    (htable : ∀ recipe, table.lookup recipe = lastSymbol doc.anonymousNodes recipe) :
    ∀ {fuel : Nat} {resolving : List String} {symbol : String} {r : ResolvedAnonymous},
      resolveAnonymous g doc.anonymousNodes fuel resolving symbol = .ok r →
        (∀ name ∈ namedBelow doc.anonymousNodes fuel symbol, doc.Stands name) →
          ∃ entry, doc.anonymousNodes.lookup symbol = some entry ∧ ChainLoaded table entry r := by
  intro fuel
  induction fuel with
  | zero => intro _ _ _ h; cases h
  | succ fuel ih =>
    intro resolving symbol r h hstands
    obtain ⟨-, -, h⟩ := bind_ok h
    unfold namedBelow at hstands
    cases he : doc.anonymousNodes.lookup symbol with
    | none => rw [he] at h; cases h
    | some entry =>
      rw [he] at h hstands
      dsimp only at h hstands
      refine ⟨entry, rfl, ?_⟩
      cases hs : entry.source with
      | node path =>
        rw [hs] at h
        cases h
        have hrecipe : entry.recipe = ⟨.node path, entry.celltype, entry.path⟩ := by
          unfold AnonymousEntry.recipe
          rw [hs]
        refine ⟨[], ?_, ?_⟩
        · rw [hrecipe]
          rfl
        · rw [hrecipe]
          rfl
      | symbol name =>
        rw [hs] at h hstands
        obtain ⟨below, hbelow, h⟩ := bind_ok h
        cases h
        have hname := hstands name (List.mem_cons_self ..)
        obtain ⟨entry', he', ⟨chain, hchain, hlinks⟩⟩ :=
          ih hbelow fun n hn => hstands n (List.mem_cons_of_mem _ hn)
        have hrecipe : entry.recipe = ⟨.symbol name, entry.celltype, entry.path⟩ := by
          unfold AnonymousEntry.recipe
          rw [hs]
        have hlookup : table.lookup entry'.recipe = some name :=
          (htable _).trans (hname entry' he')
        refine ⟨below.chain, ?_, ?_⟩
        · rw [hrecipe]
          rfl
        · rw [hrecipe, hchain]
          exact hlinks.append (Links.single hlookup)

/-- The chain of a connection whose symbols all stand is linked up to its last link. -/
theorem connectionEdge_prelinked {doc : Document} {g : ContextGraph} {entry : ConnectionEntry}
    {edge : Edge} {table : SymbolTable}
    (htable : ∀ recipe, table.lookup recipe = lastSymbol doc.anonymousNodes recipe)
    (hstands : ∀ name ∈ entry.source.names doc.anonymousNodes, doc.Stands name)
    (h : connectionEdge doc g entry = .ok edge) : edge.Prelinked table := by
  unfold connectionEdge at h
  dsimp only at h
  split at h
  · cases h
    exact prelinked_nil table rfl
  · split at h
    · cases h
      exact prelinked_nil table rfl
    · cases h
      exact prelinked_nil table rfl
  · rename_i name sourcePath hs
    obtain ⟨resolved, hr, h⟩ := bind_ok h
    cases h
    rw [hs] at hstands
    unfold ConnectionSource.names at hstands
    dsimp only at hstands
    obtain ⟨last, hlast, ⟨chain, hchain, hlinks⟩⟩ :=
      chainLoaded htable hr fun n hn => hstands n (List.mem_append_right _ hn)
    by_cases hp : sourcePath = []
    · refine ⟨resolved.node, chain, _, hlinks, Or.inr ⟨last.celltype, last.path, ?_⟩⟩
      exact (if_pos hp).trans hchain
    · rw [if_neg hp] at hstands
      have hname := hstands name (List.mem_append_left _ (List.mem_cons_self ..))
      have hlookup : table.lookup last.recipe = some name := (htable _).trans (hname last hlast)
      refine ⟨resolved.node, resolved.chain, .symbol name, ?_, Or.inr ⟨_, sourcePath, if_neg hp⟩⟩
      rw [hchain]
      exact hlinks.append (Links.single hlookup)

theorem checkConnection_chain {g : ContextGraph} {edge edge' : Edge}
    (h : checkConnection g edge = .ok edge') : edge'.sourceChain = edge.sourceChain := by
  unfold checkConnection at h
  split at h
  · split at h
    · cases h
    · obtain ⟨-, -, h⟩ := bind_ok h
      obtain ⟨-, -, h⟩ := bind_ok h
      obtain ⟨-, -, h⟩ := bind_ok h
      obtain ⟨-, -, h⟩ := bind_ok h
      obtain ⟨-, -, h⟩ := bind_ok h
      cases h
      rfl
  · cases h

theorem prepareConnections_prelinked {doc : Document} {table : SymbolTable}
    (htable : ∀ recipe, table.lookup recipe = lastSymbol doc.anonymousNodes recipe)
    {connections : List ConnectionEntry} :
    ∀ {g g' : ContextGraph}, prepareConnections doc connections g = .ok g' →
      (∀ c ∈ connections, ∀ name ∈ c.source.names doc.anonymousNodes, doc.Stands name) →
        (∀ edge ∈ g.edges, edge.Prelinked table) →
          g'.symbols = g.symbols ∧ ∀ edge ∈ g'.edges, edge.Prelinked table := by
  induction connections with
  | nil =>
    intro g g' h _ hg
    cases h
    exact ⟨rfl, hg⟩
  | cons entry connections ih =>
    intro g g' h hstands hg
    obtain ⟨edge, hedge, h⟩ := bind_ok h
    obtain ⟨edge', hcheck, h⟩ := bind_ok h
    have hnew : edge'.Prelinked table := by
      obtain ⟨path, chain, middle, hl, hc⟩ :=
        connectionEdge_prelinked htable (hstands entry (List.mem_cons_self ..)) hedge
      refine ⟨path, chain, middle, hl, ?_⟩
      rw [checkConnection_chain hcheck]
      exact hc
    have hg' : ∀ e ∈ g.edges ++ [edge'], e.Prelinked table := by
      intro e he
      rcases List.mem_append.mp he with he | he
      · exact hg e he
      · rw [List.mem_singleton.mp he]
        exact hnew
    obtain ⟨hsame, hall⟩ := ih h (fun c hc => hstands c (List.mem_cons_of_mem _ hc)) hg'
    exact ⟨hsame, hall⟩

theorem registerSymbols_linked {env : Substrate} {edges : List Edge} :
    ∀ {g g' : ContextGraph}, registerSymbols env edges g = .ok g' →
      (∀ edge ∈ edges, edge.Prelinked g.symbols) → SymbolsKept ∅ g → SymbolsKept ∅ g' := by
  induction edges with
  | nil =>
    intro g g' h _ hg
    cases h
    exact hg
  | cons edge edges ih =>
    intro g g' h hedges hg
    unfold registerSymbols at h
    cases hr : g.registerEdgeSymbols env edge with
    | none => rw [hr] at h; cases h
    | some r =>
      obtain ⟨edge', graph⟩ := r
      rw [hr] at h
      have hfirst := hedges edge (List.mem_cons_self ..)
      have hgrows := (registerEdgeSymbols_linked hfirst hr).1.grows
      have hkept := hg.append hfirst hr
      rw [← (ContextGraph.registerEdgeSymbols_spec hr).1.edges] at hkept
      exact ih h (fun e he => (hedges e (List.mem_cons_of_mem _ he)).extends hgrows) hkept

/-- A graph that is loaded from a document whose symbols stand has its symbols in order. -/
theorem prepareGraph_symbols {env : Substrate} {doc : Document} {g : ContextGraph}
    (hdoc : doc.SymbolsStand) (h : prepareGraph env doc = .ok g) : SymbolsKept ∅ g := by
  obtain ⟨-, -, h⟩ := bind_ok h
  obtain ⟨g1, hnodes, h⟩ := bind_ok h
  obtain ⟨g2, hanonymous, h⟩ := bind_ok h
  obtain ⟨g3, hconnections, h⟩ := bind_ok h
  obtain ⟨g4, hsymbols, h⟩ := bind_ok h
  obtain ⟨-, -, h⟩ := bind_ok h
  cases h
  have hnone : g2.edges = [] :=
    (prepareAnonymous_spec hanonymous).edges.trans (prepareNodes_spec hnodes).edges
  have htable : ∀ recipe, g2.symbols.lookup recipe = lastSymbol doc.anonymousNodes recipe := by
    intro recipe
    obtain ⟨-, -, ha⟩ := bind_ok hanonymous
    obtain ⟨-, -, ha⟩ := bind_ok ha
    obtain ⟨-, -, ha⟩ := bind_ok ha
    cases ha
    have hstart : g1.symbols = ∅ := symbols_prepareNodes hnodes
    rw [lookup_loaded, hstart]
    exact Option.or_none
  obtain ⟨hsame, hedges⟩ := prepareConnections_prelinked htable hconnections hdoc.stand
    fun edge he => absurd (hnone ▸ he) List.not_mem_nil
  refine registerSymbols_linked hsymbols (fun edge he => ?_) ⟨?_, ?_, ?_⟩
  · have := hedges edge he
    rwa [← hsame] at this
  · exact fun _ _ hl => absurd hl (by simp)
  · show OneToOne g3.symbols
    rw [hsame]
    exact oneToOne_loaded hdoc.keys htable
  · exact fun edge he => absurd he List.not_mem_nil

/-! ## The saved document -/

/-- The keys of the anonymous entries. -/
def keysOf (entries : List (String × AnonymousEntry)) : List String := entries.map Prod.fst

/-- Every symbol that an anonymous entry reads is the key of one. -/
def EntriesClosed (entries : List (String × AnonymousEntry)) : Prop :=
  ∀ key entry name, (key, entry) ∈ entries → entry.source = .symbol name → name ∈ keysOf entries

/-- A document contains every anonymous entry that it names. -/
structure Document.Closed (doc : Document) : Prop where
  entries : EntriesClosed doc.anonymousNodes
  connections : ∀ connection ∈ doc.connections, ∀ name sourcePath,
    connection.source = .symbol name sourcePath → name ∈ keysOf doc.anonymousNodes

theorem mem_keysOf_setItem {key name : String} {entry : AnonymousEntry}
    {entries : List (String × AnonymousEntry)} :
    name ∈ keysOf (Dict.setItem key entry entries) ↔ key = name ∨ name ∈ keysOf entries := by
  unfold keysOf
  rw [List.mem_map, List.mem_map]
  exact Dict.exists_setItem key entry entries name

/-- The source of a recipe as it is written. -/
def RecipeSource.written : RecipeSource → SourceRef
  | .node path => .node path
  | .symbol name => .symbol name

theorem RecipeSource.eq_symbol_of_written {source : RecipeSource} {name : String}
    (h : source.written = .symbol name) : source = .symbol name := by
  cases source with
  | node path => cases h
  | symbol other =>
    obtain rfl := SourceRef.symbol.inj h
    rfl

/-- A linked chain is written after what it reads. -/
theorem anonymousChain_closed {g : ContextGraph} {chain : List Recipe} :
    ∀ {entries entries' : List (String × AnonymousEntry)} {last last' : Option String}
      {source final : RecipeSource},
      anonymousChain g chain entries last = .ok (entries', last') →
        Links g.symbols source chain final → EntriesClosed entries →
          (∀ name, source = .symbol name → name ∈ keysOf entries) →
            EntriesClosed entries' ∧ keysOf entries ⊆ keysOf entries' ∧
              (chain ≠ [] → ∃ name ∈ keysOf entries', last' = some name) := by
  induction chain with
  | nil =>
    intro entries entries' last last' source final h _ hclosed _
    cases h
    exact ⟨hclosed, List.Subset.refl _, fun hne => absurd rfl hne⟩
  | cons recipe chain ih =>
    rintro entries entries' last last' source final h ⟨hs, symbol, hl, hlinks⟩ hclosed hsource
    obtain ⟨symbol', hsymbol, h⟩ := bind_ok h
    unfold symbolOf at hsymbol
    rw [hl] at hsymbol
    cases hsymbol
    set written := Dict.setItem symbol ⟨recipe.source.written, recipe.celltype, recipe.path⟩ entries
      with hwritten
    have hkey : symbol ∈ keysOf written := mem_keysOf_setItem.mpr (Or.inl rfl)
    have hnext : EntriesClosed written := by
      intro key entry name hm hn
      refine mem_keysOf_setItem.mpr (Or.inr ?_)
      rcases Dict.mem_setItem hm with he | hm
      · obtain ⟨-, rfl⟩ := Prod.mk.inj he
        refine hsource name ?_
        rw [← hs]
        exact RecipeSource.eq_symbol_of_written hn
      · exact hclosed key entry name hm hn
    obtain ⟨hclosed', hsub, hlast⟩ := ih h hlinks hnext fun name hn => by
      cases hn
      exact hkey
    refine ⟨hclosed', fun name hn => hsub (mem_keysOf_setItem.mpr (Or.inr hn)), fun _ => ?_⟩
    by_cases hc : chain = []
    · subst hc
      cases h
      exact ⟨symbol, hkey, rfl⟩
    · exact hlast hc

/-- What is written for an edge: a direct source, or the chain and the symbol of its last link. -/
def WritesSource (g : ContextGraph) (edge : Edge) (entries middle : List (String × AnonymousEntry))
    (source : ConnectionSource) : Prop :=
  middle = entries ∧ directSource g edge = .ok source ∨
    edge.sourceChain ≠ [] ∧ ∃ symbol,
      anonymousChain g edge.sourceChain entries none = .ok (middle, symbol) ∧
        source = .symbol (symbol.getD "") []

theorem checked_ok {α : Type} {c d : Prop} [Decidable c] [Decidable d] {e : Error}
    {x : Except Error PUnit} {tail : Except Error α} {a : α}
    (h : (if c then if d then (throw e : Except Error PUnit) >>= fun _ => x >>= fun _ => tail
      else x >>= fun _ => tail else tail) = .ok a) : tail = .ok a := by
  split at h
  · split at h
    · cases h
    · obtain ⟨-, -, h⟩ := bind_ok h
      exact h
  · exact h

/-- Is the connection of an edge written without anonymous entries? -/
def ContextGraph.savesDirectly (g : ContextGraph) (edge : Edge) : Bool :=
  decide (edge.sourceChain = []) || g.collapsesOnSave edge

theorem graphConnections_split {g : ContextGraph} {edge : Edge} {edges : List Edge}
    {entries entries' : List (String × AnonymousEntry)} {connections : List ConnectionEntry}
    (h : graphConnections g (edge :: edges) entries = .ok (connections, entries')) :
    ∃ source middle rest,
      (g.savesDirectly edge = true ∧ middle = entries ∧ directSource g edge = .ok source ∨
        g.savesDirectly edge = false ∧ ∃ symbol,
          anonymousChain g edge.sourceChain entries none = .ok (middle, symbol) ∧
            source = .symbol (symbol.getD "") []) ∧
      graphConnections g edges middle = .ok (rest, entries') ∧
        connections = ⟨source, edge.target, edge.deepMember⟩ :: rest := by
  unfold graphConnections at h
  cases hr : g.resolveExisting edge.source with
  | none => rw [hr] at h; cases h
  | some r =>
    rw [hr] at h
    have h := checked_ok h
    split at h
    · rename_i hdirect
      obtain ⟨source, hsource, h⟩ := bind_ok h
      obtain ⟨_, hpair, h⟩ := bind_ok h
      cases hpair
      obtain ⟨⟨rest, final⟩, hrest, h⟩ := bind_ok h
      cases h
      exact ⟨source, entries, rest, Or.inl ⟨hdirect, rfl, hsource⟩, hrest, rfl⟩
    · rename_i hdirect
      obtain ⟨⟨middle, symbol⟩, hwritten, h⟩ := bind_ok h
      obtain ⟨_, hpair, h⟩ := bind_ok h
      cases hpair
      obtain ⟨⟨rest, final⟩, hrest, h⟩ := bind_ok h
      cases h
      exact ⟨_, middle, rest, Or.inr ⟨Bool.not_eq_true _ ▸ hdirect, symbol, hwritten, rfl⟩, hrest, rfl⟩

theorem graphConnections_cons {g : ContextGraph} {edge : Edge} {edges : List Edge}
    {entries entries' : List (String × AnonymousEntry)} {connections : List ConnectionEntry}
    (h : graphConnections g (edge :: edges) entries = .ok (connections, entries')) :
    ∃ source middle rest, WritesSource g edge entries middle source ∧
      graphConnections g edges middle = .ok (rest, entries') ∧
        connections = ⟨source, edge.target, edge.deepMember⟩ :: rest := by
  obtain ⟨source, middle, rest, hsource, hrest⟩ := graphConnections_split h
  refine ⟨source, middle, rest, ?_, hrest⟩
  rcases hsource with ⟨-, hdirect⟩ | ⟨hchain, hwritten⟩
  · exact Or.inl hdirect
  · refine Or.inr ⟨fun he => ?_, hwritten⟩
    simp [ContextGraph.savesDirectly, he] at hchain

theorem directSource_names {g : ContextGraph} {edge : Edge} {name : String} {sourcePath : Path} :
    directSource g edge ≠ .ok (.symbol name sourcePath) := by
  intro h
  unfold directSource at h
  split at h
  · split at h
    · dsimp only at h
      split at h <;> cases h
    · cases h
  · cases h

theorem writesSource_closed {g : ContextGraph} {edge : Edge}
    {entries middle : List (String × AnonymousEntry)} {source : ConnectionSource}
    (h : WritesSource g edge entries middle source) (hlinked : edge.Linked g.symbols)
    (hclosed : EntriesClosed entries) : EntriesClosed middle ∧ keysOf entries ⊆ keysOf middle ∧
      ∀ name sourcePath, source = .symbol name sourcePath → name ∈ keysOf middle := by
  rcases h with ⟨rfl, hdirect⟩ | ⟨hne, symbol, hwritten, rfl⟩
  · refine ⟨hclosed, List.Subset.refl _, ?_⟩
    rintro name sourcePath rfl
    exact absurd hdirect directSource_names
  · obtain ⟨path, final, hlinks⟩ := hlinked
    obtain ⟨hc, hsub, hlast⟩ := anonymousChain_closed hwritten hlinks hclosed
      fun name hn => by cases hn
    refine ⟨hc, hsub, fun name sourcePath he => ?_⟩
    obtain ⟨key, hkey, rfl⟩ := hlast hne
    cases he
    exact hkey

theorem graphConnections_closed {g : ContextGraph} {edges : List Edge} :
    ∀ {entries entries' : List (String × AnonymousEntry)} {connections : List ConnectionEntry},
      graphConnections g edges entries = .ok (connections, entries') →
        (∀ edge ∈ edges, edge.Linked g.symbols) → EntriesClosed entries →
          EntriesClosed entries' ∧ keysOf entries ⊆ keysOf entries' ∧
            ∀ connection ∈ connections, ∀ name sourcePath,
              connection.source = .symbol name sourcePath → name ∈ keysOf entries' := by
  induction edges with
  | nil =>
    intro entries entries' connections h _ hclosed
    cases h
    exact ⟨hclosed, List.Subset.refl _, fun _ hm => absurd hm List.not_mem_nil⟩
  | cons edge edges ih =>
    intro entries entries' connections h hlinked hclosed
    obtain ⟨source, middle, rest, hsource, hrest, rfl⟩ := graphConnections_cons h
    obtain ⟨hmiddle, hfirst, hnames⟩ :=
      writesSource_closed hsource (hlinked edge (List.mem_cons_self ..)) hclosed
    obtain ⟨hclosed', hsub, hconnections⟩ :=
      ih hrest (fun e he => hlinked e (List.mem_cons_of_mem _ he)) hmiddle
    refine ⟨hclosed', List.Subset.trans hfirst hsub, fun connection hm name sourcePath he => ?_⟩
    rcases List.mem_cons.mp hm with rfl | hm
    · exact hsub (hnames name sourcePath he)
    · exact hconnections connection hm name sourcePath he

theorem getGraph_closed {g : ContextGraph} {doc : Document}
    (hlinked : ∀ edge ∈ g.edges, edge.Linked g.symbols) (h : getGraph g = .ok doc) : doc.Closed := by
  unfold getGraph at h
  split at h
  · rename_i paths edges hpaths hedges
    obtain ⟨⟨connections, entries⟩, hwritten, h⟩ := bind_ok h
    cases h
    have hsame : ∀ edge ∈ edges, edge ∈ g.edges := by
      intro edge he
      unfold sortEdges at hedges
      split at hedges
      · cases hedges
        exact (List.mem_insertionSort _).mp he
      · cases hedges
    obtain ⟨hclosed, -, hconnections⟩ := graphConnections_closed hwritten
      (fun edge he => hlinked edge (hsame edge he))
      fun _ _ _ hm => absurd hm List.not_mem_nil
    have hkeys : ∀ name, name ∈ keysOf (entries.insertionSort fun a b => decide (a.1 ≤ b.1)) ↔
        name ∈ keysOf entries := fun name =>
      ((List.perm_insertionSort _ entries).map Prod.fst).mem_iff
    refine ⟨fun key entry name hm hn => (hkeys name).mpr ?_, fun connection hm name sourcePath he =>
      (hkeys name).mpr (hconnections connection hm name sourcePath he)⟩
    exact hclosed key entry name ((List.mem_insertionSort _).mp hm) hn
  · cases h

/-! ## Reachable graphs -/

/-- The symbols of a document that is loaded stand. -/
def Event.SymbolsStand : Event → Prop
  | .turn (.setGraph doc _) _ _ => doc.SymbolsStand
  | _ => True

instance (event : Event) : Decidable event.SymbolsStand := by
  unfold Event.SymbolsStand
  split <;> infer_instance

/-- The event neither loads another graph nor drops the graph. -/
def Event.KeepsGraph (env : Substrate) : Event → Prop
  | .turn (.setGraph doc _) _ _ => ∀ graph, prepareGraph env doc ≠ .ok graph
  | .turn .close _ _ => False
  | _ => True

/-- The symbol table of a graph. A table gives a recipe one symbol at most. -/
structure SymbolsIntact (g : ContextGraph) : Prop where
  oneToOne : OneToOne g.symbols
  registered : ∀ edge ∈ g.edges, ∀ recipe ∈ edge.sourceChain, ∃ symbol,
    g.symbols.lookup recipe = some symbol
  /-- A symbol that a recipe in use reads is that of a registered recipe. -/
  named : ∀ edge ∈ g.edges, ∀ recipe ∈ edge.sourceChain, ∀ name,
    recipe.source = .symbol name → ∃ r, g.symbols.lookup r = some name
  saved : ∀ doc, getGraph g = .ok doc → doc.Closed

/-- The symbols of a system are in order, and stay those of their recipes until another graph is
loaded. -/
structure System.SymbolsStay (env : Substrate) (sys : System) : Prop where
  intact : SymbolsIntact sys.ctx.graph
  stay : ∀ later, ReflTransGen (System.Follows env fun _ event => event.KeepsGraph env) sys later →
    Extends sys.ctx.graph.symbols later.ctx.graph.symbols

theorem SymbolsKept.intact {start : SymbolTable} {g : ContextGraph} (h : SymbolsKept start g) :
    SymbolsIntact g := by
  refine ⟨h.oneToOne, fun edge he recipe hr => ?_, fun edge he recipe hr name hn => ?_,
    fun doc hdoc => getGraph_closed h.linked hdoc⟩
  · obtain ⟨path, final, hl⟩ := h.linked edge he
    exact (hl.mem hr).1
  · obtain ⟨path, final, hl⟩ := h.linked edge he
    rcases (hl.mem hr).2 with hsource | ⟨before, -, symbol, hb, hsource⟩
    · rw [hsource] at hn
      cases hn
    · rw [hsource] at hn
      cases hn
      exact ⟨before, hb⟩

theorem SymbolsKept.step {env : Substrate} {start : SymbolTable} {sys next : System} {event : Event}
    (h : SymbolsKept start sys.ctx.graph) (hs : sys.step env event = some next)
    (hloads : event.Admitted env (fun _ _ _ _ => True) (fun _ _ _ => True)
      (SeamlessWorkflow.SymbolsKept start) (event.arrive sys.ctx)) :
    SymbolsKept start next.ctx.graph := by
  have harrive : (event.arrive sys.ctx).graph = sys.ctx.graph := by cases event <;> rfl
  have hfull : (event.arrive sys.ctx).SymbolsKept start := by
    unfold Ctx.SymbolsKept
    rw [harrive]
    exact h
  rcases (symbols_upheld env start).step hfull hs hloads with rfl | ⟨ctx, hctx, rfl⟩
  · have hsame : (sys.accept event).ctx.graph = sys.ctx.graph := by cases event <;> rfl
    rw [hsame]
    exact h
  · exact hctx

theorem Event.SymbolsStand.admitted {env : Substrate} {event : Event} (h : event.SymbolsStand)
    (ctx : Ctx) : event.Admitted env (fun _ _ _ _ => True) (fun _ _ _ => True)
      (SymbolsKept ∅) ctx := by
  have hempty : SymbolsKept ∅ {} :=
    ⟨.refl _, fun _ _ _ hl => absurd hl (by simp), fun _ he => absurd he List.not_mem_nil⟩
  unfold Event.Admitted
  split
  · trivial
  · exact fun graph hg => prepareGraph_symbols h hg
  · exact hempty
  all_goals trivial

theorem Event.KeepsGraph.admitted {env : Substrate} {event : Event} {start : SymbolTable}
    (h : event.KeepsGraph env) (ctx : Ctx) : event.Admitted env (fun _ _ _ _ => True)
      (fun _ _ _ => True) (SymbolsKept start) ctx := by
  unfold Event.Admitted
  split
  · trivial
  · exact fun graph hg => absurd hg (h graph)
  · exact h.elim
  all_goals trivial

/-- In every reachable state the symbol table is one to one and keeps its entries, and every symbol
that is named has an entry, in the graph and in the document saved from it, when the symbols of
the loaded documents stand. -/
theorem reachable_symbolsStay {env : Substrate} {sys : System}
    (h : Reachable env (fun _ event => event.SymbolsStand) sys) : sys.SymbolsStay env := by
  have hkept : SymbolsKept ∅ sys.ctx.graph := by
    refine h.invariant (I := fun sys => SymbolsKept ∅ sys.ctx.graph) ?_ ?_
    · exact ⟨.refl _, fun _ _ _ hl => absurd hl (by simp), fun _ he => absurd he List.not_mem_nil⟩
    · exact fun sys next event hi hc hs => hi.step hs (hc.admitted _)
  refine ⟨hkept.intact, fun later hlater => ?_⟩
  have hlater' : SymbolsKept sys.ctx.graph.symbols later.ctx.graph := by
    induction hlater with
    | refl => exact ⟨.refl _, hkept.oneToOne, hkept.linked⟩
    | tail _ hstep ih =>
      obtain ⟨event, hc, hs⟩ := hstep
      exact ih.step hs (hc.admitted _)
  exact hlater'.grows

/-- A cell that is reached through two anonymous entries, and a copy of it. -/
def twoLinks : Document where
  nodes := [⟨[.key "s", .key "a"], .cell { celltype := .int } none, none, none⟩,
    ⟨[.key "s", .key "b"], .cell { celltype := .str } none, none, none⟩]
  anonymousNodes := [("aaaaa", ⟨.node [.key "s", .key "a"], .float, []⟩),
    ("bbbbb", ⟨.symbol "aaaaa", .str, []⟩)]
  connections := [⟨.symbol "bbbbb" [], [.key "s", .key "b"], false⟩]

def loadTwoLinks : List Event :=
  [.turn (.setGraph twoLinks []) 0 [], .turn (.assign [.key "t"] (.subcontext [.key "s"])) 0 []]

theorem loadTwoLinks_runs : (System.run .fixed loadTwoLinks {}).isSome = true := by
  decide +kernel

theorem reachable_symbolsStay_loadTwoLinks :
    ((System.run .fixed loadTwoLinks {}).get loadTwoLinks_runs).SymbolsStay .fixed :=
  reachable_symbolsStay (Reachable.of_run .start (by decide +kernel) loadTwoLinks_runs)

/-- Two entries with one recipe, of which a further entry names the first. -/
def shadowedLink : Document :=
  { twoLinks with
    anonymousNodes := [("aaaaa", ⟨.node [.key "s", .key "a"], .float, []⟩),
      ("ccccc", ⟨.node [.key "s", .key "a"], .float, []⟩),
      ("bbbbb", ⟨.symbol "aaaaa", .str, []⟩)] }

def loadShadowedLink : List Event := [.turn (.setGraph shadowedLink []) 0 []]

theorem loadShadowedLink_runs : (System.run .fixed loadShadowedLink {}).isSome = true := by
  decide +kernel

/-- The saved document names the first entry, and contains the second one only. -/
theorem not_reachable_symbolsStay :
    ¬ ∀ sys, Reachable .fixed (fun _ _ => True) sys → sys.SymbolsStay .fixed := by
  intro h
  have hk := h _ (Reachable.of_run .start (by decide +kernel) loadShadowedLink_runs)
  have hedge : ∃ edge ∈ ((System.run .fixed loadShadowedLink {}).get
      loadShadowedLink_runs).ctx.graph.edges, ∃ recipe ∈ edge.sourceChain,
        recipe.source = .symbol "aaaaa" := by decide +kernel
  have hgiven : ∀ entry ∈ ((System.run .fixed loadShadowedLink {}).get
      loadShadowedLink_runs).ctx.graph.symbols.entries, entry.2 ≠ "aaaaa" := by decide +kernel
  obtain ⟨edge, he, recipe, hr, hs⟩ := hedge
  obtain ⟨r, hl⟩ := hk.intact.named edge he recipe hr _ hs
  exact hgiven ⟨r, "aaaaa"⟩ (AList.mem_lookup_iff.mp hl) rfl

end SeamlessWorkflow
