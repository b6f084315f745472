import SeamlessWorkflow.Context.StateGraph
import SeamlessWorkflow.Library.Transition
import SeamlessWorkflow.Proofs.SymbolDocuments
import SeamlessWorkflow.Proofs.ChainRuns
import SeamlessWorkflow.Proofs.Endpoints
import SeamlessWorkflow.Proofs.PathTexts
import Mathlib.Data.List.Chain

/-!
# Publications of the state graph

A state graph can be published when what it describes can be put in order and encoded. The markers of
the publications of a Context follow their digests.
-/

namespace SeamlessWorkflow

/-! ## What can be described -/

/-- Is a path without slices? -/
def Path.plain (path : Path) : Bool := path.all fun k => !k.isSlice

def RecipeSource.plain : RecipeSource → Bool
  | .node path => path.plain
  | .symbol _ => true

/-- Are the keys of a block reason all strings or all integers? -/
def BlockReason.plain : BlockReason → Bool
  | .one _ => true
  | .slots reasons =>
    reasons.all (fun entry => !entry.1.isSlice) &&
      reasons.all fun a => reasons.all fun b => a.1.comparable b.1

namespace ContextGraph

/-- Does an edge convert, or read below the node that its source resolves to? -/
def projects (g : ContextGraph) (edge : Edge) : Bool :=
  edge.sourceConversion || (g.resolveExisting edge.source).any fun r => decide (r.2 ≠ [])

/-- The connection of an edge can be made: its ends resolve, and its anonymous links are recorded
and have symbols. -/
structure Connects (g : ContextGraph) (edge : Edge) : Prop where
  source : (g.resolveExisting edge.source).isSome = true
  target : g.savesDirectly edge = true → (g.resolveExisting edge.target).isSome = true
  linked : g.projects edge = true → edge.sourceChain ≠ []
  named : (g.projects edge || !g.savesDirectly edge) = true →
    ∀ recipe ∈ edge.sourceChain, (g.symbols.lookup recipe).isSome = true

/-- What is written of an edge as a path contains no slice. -/
structure Spells (g : ContextGraph) (edge : Edge) : Prop where
  target : edge.target.plain = true
  direct : g.savesDirectly edge = true → edge.source.plain = true
  chain : g.savesDirectly edge = false → ∀ recipe ∈ edge.sourceChain, recipe.source.plain = true

/-- A graph whose state graph can be put in order and encoded. -/
structure Describable (g : ContextGraph) : Prop where
  nodesCompare : ∀ p ∈ g.nodes.keys, ∀ q ∈ g.nodes.keys, p.comparable q = true
  edgesCompare : ∀ a ∈ g.edges, ∀ b ∈ g.edges, a.comparable b = true
  connects : ∀ edge ∈ g.edges, g.Connects edge
  spells : ∀ edge ∈ g.edges, g.Spells edge
  nodes : ∀ path ∈ g.nodes.keys, path.plain = true
  reasons : ∀ path ∈ g.nodes.keys, ∀ node ∈ g.nodes.lookup path,
    node.isCell = true → ∀ reason ∈ node.blockReason, reason.plain = true

end ContextGraph

/-! ## Encoding -/

open JsonInput (Encodes)

theorem encodes_path (path : Path) : Encodes componentKeys path.described ↔ path.plain = true := by
  unfold Path.described Path.plain
  rw [JsonInput.encodes_list, List.forall_mem_map, List.all_eq_true]
  refine forall₂_congr fun k _ => ?_
  cases k <;> simp [Component.described, Component.isSlice]

/-- The values alone decide whether a mapping with string keys can be encoded. -/
theorem encodes_described (entries : List (String × Described)) :
    Encodes componentKeys (described entries) ↔ ∀ entry ∈ entries, Encodes componentKeys entry.2 := by
  unfold described
  rw [JsonInput.encodes_dict_of_all, List.forall_mem_map]
  · simp only [List.forall_mem_map]
    exact fun _ _ _ _ => rfl
  · simp only [List.forall_mem_map]
    exact fun _ _ => rfl

theorem encodes_text (text : Option String) : Encodes componentKeys (describedText text) := by
  cases text <;> simp [describedText]

theorem encodes_cellBlockReason (node : Node) :
    Encodes componentKeys (cellBlockReason node) ↔ ∀ reason ∈ node.blockReason, reason.plain = true := by
  unfold cellBlockReason
  cases node.blockReason with
  | none => simp
  | some reason =>
    simp only [Option.mem_some_iff, forall_eq']
    cases reason with
    | one reason => simp [BlockReason.plain]
    | slots reasons =>
      refine (JsonInput.encodes_dict componentKeys _).trans ?_
      simp only [List.forall_mem_map, BlockReason.plain, Bool.and_eq_true, List.all_eq_true]
      have htext (k : Component) : (componentKeys.text k).isSome = true ↔ (!k.isSlice) = true := by
        cases k <;> simp [componentKeys, Component.isSlice]
      simp only [htext]
      exact ⟨fun h => ⟨h.2.2, h.2.1⟩, fun h => ⟨fun _ _ => JsonInput.encodes_str _ _, h.2, h.1⟩⟩

theorem encodes_transformerBlockReason (node : Node) (fields : TransformerFields) :
    Encodes componentKeys (transformerBlockReason node fields) := by
  unfold transformerBlockReason
  split
  case h_5 => exact JsonInput.encodes_null _
  all_goals
    split
    · exact JsonInput.encodes_null _
    · rw [encodes_described]
      simp only [List.forall_mem_map]
      exact fun _ _ => JsonInput.encodes_str _ _

theorem encodes_node (path : NodePath) (node : Node) :
    Encodes componentKeys (describedNode path node) ↔ path.plain = true ∧
      (node.isCell = true → ∀ reason ∈ node.blockReason, reason.plain = true) := by
  unfold describedNode Node.isCell
  rw [encodes_described]
  cases hbody : node.body with
  | cell fields =>
    simp only [List.cons_append, List.nil_append, List.forall_mem_cons, encodes_path,
      encodes_cellBlockReason, encodes_text, JsonInput.encodes_str, List.not_mem_nil]
    simp
  | transformer fields =>
    simp only [List.cons_append, List.nil_append, List.forall_mem_cons, encodes_path,
      encodes_transformerBlockReason, encodes_text, JsonInput.encodes_str, List.not_mem_nil]
    simp

/-- What the source of a connection writes as a path contains no slice. -/
def ConnectionSource.plain : ConnectionSource → Bool
  | .flat path => path.plain
  | .node path _ _ => path.plain
  | .symbol _ _ => true

theorem encodes_source (source : ConnectionSource) :
    Encodes componentKeys source.described ↔ source.plain = true := by
  cases source with
  | flat path => exact encodes_path path
  | node path sourcePath steps =>
    unfold ConnectionSource.described ConnectionSource.plain
    rw [encodes_described, List.forall_mem_singleton, encodes_path]
  | symbol name sourcePath =>
    unfold ConnectionSource.described ConnectionSource.plain
    rw [encodes_described, List.forall_mem_singleton]
    simp

theorem encodes_connection (entry : ConnectionEntry) :
    Encodes componentKeys entry.described ↔ entry.target.plain = true ∧ entry.source.plain = true := by
  unfold ConnectionEntry.described
  rw [encodes_described]
  have hmember : ∀ e ∈ (if entry.deepMember then [("deep_member", (.bool true : Described))] else []),
      Encodes componentKeys e.2 := by
    split <;> simp
  rw [List.forall_mem_append]
  simp only [List.forall_mem_cons, encodes_path, encodes_source, JsonInput.encodes_str, true_and]
  exact ⟨fun h => ⟨h.1.1, h.1.2.1⟩, fun h => ⟨⟨h.1, h.2, by simp⟩, hmember⟩⟩

def SourceRef.plain : SourceRef → Bool
  | .node path => path.plain
  | .symbol _ => true

theorem encodes_entry (writer : PathWriter) (entry : AnonymousEntry) :
    Encodes componentKeys (entry.described writer) ↔ entry.source.plain = true := by
  unfold AnonymousEntry.described
  rw [encodes_described]
  simp only [List.forall_mem_cons, JsonInput.encodes_str, true_and]
  refine (and_iff_left (by simp)).trans ?_
  cases entry.source with
  | node path =>
    rw [encodes_described, List.forall_mem_singleton, encodes_path]
    rfl
  | symbol name =>
    rw [encodes_described, List.forall_mem_singleton]
    simp [SourceRef.plain]

/-! ## The connections -/

theorem exists_bind_ok {α β : Type} {x : Except Error α} {f : α → Except Error β} :
    (∃ b, (x >>= f) = .ok b) ↔ ∃ a, x = .ok a ∧ ∃ b, f a = .ok b := by
  cases x with
  | error e =>
    refine ⟨fun ⟨b, hb⟩ => ?_, fun ⟨a, ha, _⟩ => ?_⟩
    · cases hb
    · cases ha
  | ok a =>
    refine ⟨fun h => ⟨a, rfl, h⟩, fun ⟨a', ha, h⟩ => ?_⟩
    cases ha
    exact h

theorem exists_pure_ok {α : Type} (a : α) : ∃ b, (pure a : Except Error α) = .ok b := ⟨a, rfl⟩

theorem exists_symbolOf_ok {g : ContextGraph} {recipe : Recipe} :
    (∃ symbol, symbolOf g recipe = .ok symbol) ↔ (g.symbols.lookup recipe).isSome = true := by
  unfold symbolOf
  cases g.symbols.lookup recipe <;> simp

theorem exists_anonymousChain_ok {g : ContextGraph} {chain : List Recipe} :
    ∀ {entries : List (String × AnonymousEntry)} {last : Option String},
      (∃ r, anonymousChain g chain entries last = .ok r) ↔
        ∀ recipe ∈ chain, (g.symbols.lookup recipe).isSome = true := by
  induction chain with
  | nil => exact fun {entries last} => ⟨fun _ => by simp, fun _ => ⟨(entries, last), rfl⟩⟩
  | cons recipe chain ih =>
    intro entries last
    unfold anonymousChain
    rw [exists_bind_ok, List.forall_mem_cons]
    simp only [ih]
    rw [← exists_symbolOf_ok]
    simp

/-- The loop that looks the symbols of a chain up. -/
theorem lookUp_ok {g : ContextGraph} (chain : List Recipe) :
    (∃ r, (forIn chain PUnit.unit fun recipe _ => do
        let _ ← symbolOf g recipe
        pure (ForInStep.yield PUnit.unit) : Except Error PUnit) = .ok r) ↔
      ∀ recipe ∈ chain, (g.symbols.lookup recipe).isSome = true := by
  induction chain with
  | nil => simp [pure, Except.pure]
  | cons recipe chain ih =>
    rw [List.forIn_cons, List.forall_mem_cons, ← ih, ← exists_symbolOf_ok, bind_assoc,
      exists_bind_ok]
    simp

theorem exists_directSource_ok {g : ContextGraph} {edge : Edge}
    (hsource : (g.resolveExisting edge.source).isSome = true) :
    (∃ source, directSource g edge = .ok source) ↔
      (g.resolveExisting edge.target).isSome = true := by
  unfold directSource
  obtain ⟨r, hr⟩ := Option.isSome_iff_exists.mp hsource
  rw [hr]
  cases g.resolveExisting edge.target with
  | none => simp
  | some t =>
    simp only [Option.isSome_some, iff_true]
    split_ifs <;> exact ⟨_, rfl⟩

/-- The checks on an edge before its connection is made. -/
theorem exists_checked_ok {α : Type} {c d : Prop} [Decidable c] [Decidable d] {e : Error}
    {x : Except Error PUnit} {tail : Except Error α} :
    (∃ a, (if c then if d then (throw e : Except Error PUnit) >>= fun _ => x >>= fun _ => tail
      else x >>= fun _ => tail else tail) = .ok a) ↔
      (c → ¬ d ∧ ∃ r, x = .ok r) ∧ ∃ a, tail = .ok a := by
  split
  · rename_i hc
    split
    · rename_i hd
      exact ⟨fun ⟨a, h⟩ => (by cases h), fun h => absurd hd (h.1 hc).1⟩
    · rename_i hd
      rw [exists_bind_ok]
      exact ⟨fun ⟨r, hr, ht⟩ => ⟨fun _ => ⟨hd, r, hr⟩, ht⟩,
        fun ⟨h, ht⟩ => (h hc).2.imp fun r hr => ⟨hr, ht⟩⟩
  · rename_i hc
    exact ⟨fun h => ⟨fun h' => absurd h' hc, h⟩, fun h => h.2⟩

theorem projects_iff {g : ContextGraph} {edge : Edge} {r : NodePath × Path}
    (h : g.resolveExisting edge.source = some r) :
    g.projects edge = true ↔ edge.sourceConversion = true ∨ r.2 ≠ [] := by
  simp [ContextGraph.projects, h]

/-- The connections of a graph can be made exactly when each of them can. -/
theorem exists_graphConnections_ok {g : ContextGraph} {edges : List Edge} :
    ∀ {entries : List (String × AnonymousEntry)},
      (∃ r, graphConnections g edges entries = .ok r) ↔ ∀ edge ∈ edges, g.Connects edge := by
  induction edges with
  | nil =>
    intro entries
    exact ⟨fun _ => by simp, fun _ => ⟨([], entries), rfl⟩⟩
  | cons edge edges ih =>
    intro entries
    rw [List.forall_mem_cons]
    unfold graphConnections
    cases hr : g.resolveExisting edge.source with
    | none =>
      refine iff_of_false (fun hex => ?_) fun h => ?_
      · obtain ⟨r, h⟩ := hex
        cases h
      have hsource := h.1.source
      rw [hr] at hsource
      cases hsource
    | some r =>
      have hsource : (g.resolveExisting edge.source).isSome = true := by rw [hr]; rfl
      have hchecks : (edge.sourceConversion = true ∨ r.2 ≠ [] → ¬ edge.sourceChain = [] ∧
            ∀ recipe ∈ edge.sourceChain, (g.symbols.lookup recipe).isSome = true) ↔
          (g.projects edge = true → edge.sourceChain ≠ [] ∧
            ∀ recipe ∈ edge.sourceChain, (g.symbols.lookup recipe).isSome = true) := by
        rw [projects_iff hr]
      refine exists_checked_ok.trans ?_
      rw [lookUp_ok, hchecks]
      cases hdirect : g.savesDirectly edge with
      | true =>
        rw [if_pos (show (decide (edge.sourceChain = []) || g.collapsesOnSave edge) = true from hdirect)]
        simp only [exists_bind_ok, pure_bind, exists_pure_ok, and_true, ih, exists_and_right,
          exists_directSource_ok hsource]
        rw [← and_assoc]
        refine and_congr_left fun _ => ⟨fun h => ?_, fun h => ?_⟩
        · exact ⟨hsource, fun _ => h.2, fun hp => (h.1 hp).1, fun hp => (h.1 (by simpa [hdirect] using hp)).2⟩
        · exact ⟨fun hp => ⟨h.linked hp, h.named (by simp [hp])⟩, h.target hdirect⟩
      | false =>
        rw [if_neg (show ¬ (decide (edge.sourceChain = []) || g.collapsesOnSave edge) = true by
          rw [← Bool.not_eq_true] at hdirect
          exact hdirect)]
        simp only [exists_bind_ok, pure_bind, exists_pure_ok, and_true, ih, exists_and_right,
          exists_anonymousChain_ok]
        rw [← and_assoc]
        refine and_congr_left fun _ => ⟨fun h => ?_, fun h => ?_⟩
        · exact ⟨hsource, fun hd => absurd hd (by simp [hdirect]), fun hp => (h.1 hp).1, fun _ => h.2⟩
        · have hnamed := h.named (by simp [hdirect])
          exact ⟨fun hp => ⟨h.linked hp, hnamed⟩, hnamed⟩

/-! ## What the connections write -/

theorem directSource_plain {g : ContextGraph} {edge : Edge} {source : ConnectionSource}
    (h : directSource g edge = .ok source) : source.plain = edge.source.plain := by
  unfold directSource at h
  split at h
  · rename_i targetNode targetLocal sourceNode sourceLocal htarget hsource
    have hflat : edge.source = sourceNode ++ sourceLocal :=
      (LongestPrefix.reads_of_split (n := sourceNode) (l := sourceLocal) hsource).flat.symm
    split at h
    · dsimp only at h
      split at h
      · cases h
        rw [hflat]
        rfl
      · rename_i hroot
        cases h
        rw [not_or, not_not] at hroot
        rw [hflat, hroot.1, List.append_nil]
        rfl
    · cases h
      rfl
  · cases h

/-- The anonymous entry that is written for a recipe. -/
def Recipe.entry (recipe : Recipe) : AnonymousEntry :=
  ⟨match recipe.source with
    | .node path => .node path
    | .symbol name => .symbol name, recipe.celltype, recipe.path⟩

theorem Recipe.entry_plain (recipe : Recipe) : recipe.entry.source.plain = recipe.source.plain := by
  unfold Recipe.entry
  cases recipe.source <;> rfl

/-- Do the entries read no node with a slice in its path? -/
def EntriesPlain (entries : List (String × AnonymousEntry)) : Prop :=
  ∀ entry ∈ entries, entry.2.source.plain = true

theorem anonymousChain_cons {g : ContextGraph} {recipe : Recipe} {chain : List Recipe}
    {entries : List (String × AnonymousEntry)} {last : Option String}
    {r : List (String × AnonymousEntry) × Option String}
    (h : anonymousChain g (recipe :: chain) entries last = .ok r) :
    ∃ symbol, g.symbols.lookup recipe = some symbol ∧
      anonymousChain g chain (Dict.setItem symbol recipe.entry entries) (some symbol) = .ok r := by
  unfold anonymousChain at h
  obtain ⟨symbol, hsymbol, h⟩ := bind_ok h
  refine ⟨symbol, ?_, h⟩
  unfold symbolOf at hsymbol
  split at hsymbol
  · rename_i hl
    cases hsymbol
    exact hl
  · cases hsymbol

theorem anonymousChain_plain {g : ContextGraph} {chain : List Recipe} :
    ∀ {entries : List (String × AnonymousEntry)} {last : Option String}
      {r : List (String × AnonymousEntry) × Option String},
      anonymousChain g chain entries last = .ok r → EntriesPlain entries →
        (∀ recipe ∈ chain, recipe.source.plain = true) → EntriesPlain r.1 := by
  induction chain with
  | nil =>
    intro entries last r h hentries _
    cases h
    exact hentries
  | cons recipe chain ih =>
    intro entries last r h hentries hchain
    obtain ⟨symbol, -, h⟩ := anonymousChain_cons h
    rw [List.forall_mem_cons] at hchain
    refine ih h (fun entry he => ?_) hchain.2
    rcases Dict.mem_setItem he with rfl | he
    · exact recipe.entry_plain.trans hchain.1
    · exact hentries entry he

/-- What is written can be encoded when the edges spell no slice. -/
theorem graphConnections_plain {g : ContextGraph} {edges : List Edge} :
    ∀ {entries entries' : List (String × AnonymousEntry)} {connections : List ConnectionEntry},
      graphConnections g edges entries = .ok (connections, entries') →
        (∀ edge ∈ edges, g.Spells edge) → EntriesPlain entries →
          EntriesPlain entries' ∧ ∀ connection ∈ connections,
            connection.target.plain = true ∧ connection.source.plain = true := by
  induction edges with
  | nil =>
    intro entries entries' connections h _ hentries
    cases h
    exact ⟨hentries, by simp⟩
  | cons edge edges ih =>
    intro entries entries' connections h hspells hentries
    obtain ⟨source, middle, rest, hsource, hrest, rfl⟩ := graphConnections_split h
    rw [List.forall_mem_cons] at hspells
    have hwritten : EntriesPlain middle ∧ source.plain = true := by
      rcases hsource with ⟨hdirect, rfl, hsource⟩ | ⟨hdirect, symbol, hchain, rfl⟩
      · exact ⟨hentries, (directSource_plain hsource).trans (hspells.1.direct hdirect)⟩
      · exact ⟨anonymousChain_plain hchain hentries (hspells.1.chain hdirect), rfl⟩
    obtain ⟨hfinal, hconnections⟩ := ih hrest hspells.2 hwritten.1
    exact ⟨hfinal, List.forall_mem_cons.mpr ⟨⟨hspells.1.target, hwritten.2⟩, hconnections⟩⟩

/-! ## The state graph -/

theorem sortPaths_eq_some {paths sorted : List Path} :
    sortPaths paths = some sorted ↔ (∀ p ∈ paths, ∀ q ∈ paths, p.comparable q = true) ∧
      paths.insertionSort (fun p q => p.le q) = sorted := by
  unfold sortPaths
  simp only [Option.ite_none_right_eq_some, List.all_eq_true, Option.some.injEq]

theorem sortEdges_eq_some {edges sorted : List Edge} :
    sortEdges edges = some sorted ↔ (∀ a ∈ edges, ∀ b ∈ edges, a.comparable b = true) ∧
      edges.insertionSort (fun a b => a.le b) = sorted := by
  unfold sortEdges
  simp only [Option.ite_none_right_eq_some, List.all_eq_true, Option.some.injEq]

/-- The document of a state graph. -/
def stateGraphOf (writer : PathWriter) (g : ContextGraph) (paths : List NodePath)
    (connections : List ConnectionEntry) (entries : List (String × AnonymousEntry)) : Described :=
  described
    [("nodes", .list (paths.filterMap fun path => (g.nodes.lookup path).map (describedNode path))),
      ("anonymous_nodes", described (entries.map fun entry =>
        (entry.1, entry.2.described writer))),
      ("connections", .list (connections.map ConnectionEntry.described))]

theorem encodes_stateGraphOf (writer : PathWriter) (g : ContextGraph) (paths : List NodePath)
    (connections : List ConnectionEntry) (entries : List (String × AnonymousEntry)) :
    Encodes componentKeys (stateGraphOf writer g paths connections entries) ↔
      (∀ path ∈ paths, ∀ node ∈ g.nodes.lookup path, path.plain = true ∧
        (node.isCell = true → ∀ reason ∈ node.blockReason, reason.plain = true)) ∧
      EntriesPlain entries ∧
      ∀ connection ∈ connections, connection.target.plain = true ∧ connection.source.plain = true := by
  unfold stateGraphOf EntriesPlain
  rw [encodes_described]
  simp only [List.forall_mem_cons, List.not_mem_nil, false_imp_iff, implies_true, and_true,
    encodes_described, JsonInput.encodes_list, List.forall_mem_map, encodes_entry,
    encodes_connection]
  refine and_congr_left fun _ => ?_
  simp only [List.mem_filterMap, Option.map_eq_some_iff]
  refine ⟨fun h path hp node hn => ?_, ?_⟩
  · exact (encodes_node path node).mp (h _ ⟨path, hp, node, hn, rfl⟩)
  · rintro h _ ⟨path, hp, node, hn, rfl⟩
    exact (encodes_node path node).mpr (h path hp node hn)

theorem exists_stateGraphBody_ok {writer : PathWriter} {g : ContextGraph} :
    (∃ body, stateGraphBody writer g = .ok body) ↔
      ∃ paths edges connections entries, sortPaths g.nodes.keys = some paths ∧
        sortEdges g.edges = some edges ∧ graphConnections g edges [] = .ok (connections, entries) ∧
        Encodes componentKeys (stateGraphOf writer g paths connections entries) := by
  unfold stateGraphBody stateGraph
  rw [exists_bind_ok]
  constructor
  · rintro ⟨payload, hpayload, body, hbody⟩
    cases hpaths : sortPaths g.nodes.keys with
    | none =>
      rw [hpaths] at hpayload
      cases hpayload
    | some paths =>
      cases hedges : sortEdges g.edges with
      | none =>
        rw [hpaths, hedges] at hpayload
        cases hpayload
      | some edges =>
        rw [hpaths, hedges] at hpayload
        obtain ⟨⟨connections, entries⟩, hwritten, hpayload⟩ := bind_ok hpayload
        cases hpayload
        refine ⟨paths, edges, connections, entries, rfl, rfl, hwritten, ?_⟩
        unfold Encodes
        split at hbody
        · rename_i hdumps
          exact Option.isSome_of_eq_some hdumps
        · cases hbody
  · rintro ⟨paths, edges, connections, entries, hpaths, hedges, hwritten, hencodes⟩
    refine ⟨stateGraphOf writer g paths connections entries, ?_, ?_⟩
    · rw [hpaths, hedges]
      dsimp only
      rw [hwritten]
      rfl
    · obtain ⟨body, hbody⟩ := Option.isSome_iff_exists.mp hencodes
      rw [hbody]
      exact ⟨body, rfl⟩

/-- A describable graph has a text. -/
theorem ContextGraph.Describable.body {g : ContextGraph} (h : g.Describable)
    (writer : PathWriter) : ∃ body, stateGraphBody writer g = .ok body := by
  have hconnects : ∀ edge ∈ g.edges.insertionSort (fun a b => a.le b), g.Connects edge :=
    fun edge he => h.connects edge ((List.mem_insertionSort _).mp he)
  obtain ⟨⟨connections, entries⟩, hwritten⟩ : ∃ r, graphConnections g _ [] = .ok r :=
    exists_graphConnections_ok.mpr hconnects
  obtain ⟨hentries, hconnections⟩ := graphConnections_plain hwritten
    (fun edge he => h.spells edge ((List.mem_insertionSort _).mp he)) (fun _ he => by cases he)
  refine exists_stateGraphBody_ok.mpr ⟨_, _, connections, entries,
    sortPaths_eq_some.mpr ⟨h.nodesCompare, rfl⟩, sortEdges_eq_some.mpr ⟨h.edgesCompare, rfl⟩,
    hwritten, ?_⟩
  refine (encodes_stateGraphOf ..).mpr ⟨fun path hp node hn => ?_, hentries, hconnections⟩
  have hkey := (List.mem_insertionSort _).mp hp
  exact ⟨h.nodes path hkey, h.reasons path hkey node hn⟩

/-! ## Publications -/

namespace Publisher

/-- The publications of a Context so far. -/
def publications (s : Publisher) : List StatePublication := s.refreshes.filterMap Except.toOption

/-- The marker of a publication stays that of the one before it exactly when the digests are equal,
and is the next one otherwise. -/
def Succeeds (previous next : StatePublication) : Prop :=
  (next.marker = previous.marker ↔ next.digest = previous.digest) ∧
    (next.digest ≠ previous.digest → next.marker = previous.marker + 1)

/-- The markers follow the digests, from the first publication on. -/
structure Marked (s : Publisher) : Prop where
  first : ∀ p ∈ s.publications.head?, p.marker = 1
  chain : s.publications.IsChain Succeeds
  latest : s.published = s.publications.getLast?

/-- The state graph can be published, every refresh so far has published it, and the markers are
faithful. -/
structure Publishes (writer : PathWriter) (sha256 : String → Checksum) (s : Publisher) :
    Prop extends s.Marked where
  total : ∃ p, s.publish writer sha256 = .ok p
  refreshed : ∀ result ∈ s.refreshes, ∃ p, result = .ok p

variable {env : Substrate} {writer : PathWriter} {sha256 : String → Checksum}

theorem exists_publish_ok {s : Publisher} : (∃ p, s.publish writer sha256 = .ok p) ↔
    ∃ body, stateGraphBody writer s.system.ctx.graph = .ok body := by
  unfold publish
  rw [exists_bind_ok]
  simp only [exists_pure_ok, and_true]

theorem publish_succeeds {s : Publisher} {p previous : StatePublication}
    (h : s.publish writer sha256 = .ok p) (hprevious : s.published = some previous) :
    Succeeds previous p := by
  unfold publish at h
  obtain ⟨body, -, h⟩ := bind_ok h
  cases h
  unfold GraphSource.publish Succeeds
  rw [hprevious]
  dsimp only
  by_cases hdigest : previous.digest = sha256 body
  · simp [hdigest]
  · rw [if_pos hdigest]
    exact ⟨iff_of_false (by omega) fun h => hdigest h.symm, fun _ => rfl⟩

theorem publish_first {s : Publisher} {p : StatePublication}
    (h : s.publish writer sha256 = .ok p) (hnone : s.published = none) : p.marker = 1 := by
  unfold publish at h
  obtain ⟨body, -, h⟩ := bind_ok h
  cases h
  unfold GraphSource.publish
  rw [hnone]

/-- What a refresh adds. -/
theorem Marked.record {s next : Publisher} (h : s.Marked)
    {result : Except Error StatePublication}
    (hpublish : ∀ p, result = .ok p → (∀ previous ∈ s.published, Succeeds previous p) ∧
      (s.published = none → p.marker = 1))
    (hpublished : next.published = result.toOption.orElse fun _ => s.published)
    (hrefreshes : next.refreshes = s.refreshes ++ [result]) : next.Marked := by
  have hpublications : next.publications = s.publications ++ result.toOption.toList := by
    unfold publications
    rw [hrefreshes, List.filterMap_append]
    cases result <;> rfl
  cases hresult : result with
  | error e =>
    have hsame : next.publications = s.publications := by
      rw [hpublications, hresult]
      exact List.append_nil _
    refine ⟨hsame ▸ h.first, hsame ▸ h.chain, ?_⟩
    rw [hpublished, hresult, hsame]
    exact h.latest
  | ok p =>
    obtain ⟨hnext, hfirst⟩ := hpublish p hresult
    have hsnoc : next.publications = s.publications ++ [p] := by
      rw [hpublications, hresult]
      rfl
    refine ⟨fun q hq => ?_, ?_, ?_⟩
    · rw [hsnoc, List.head?_append] at hq
      cases hhead : s.publications.head? with
      | some q' =>
        rw [hhead] at hq
        exact h.first q (by rw [hhead]; exact hq)
      | none =>
        rw [hhead] at hq
        cases hq
        rw [List.head?_eq_none_iff] at hhead
        exact hfirst (by rw [h.latest, hhead]; rfl)
    · rw [hsnoc, List.isChain_append]
      refine ⟨h.chain, List.isChain_singleton p, fun previous hprevious q hq => ?_⟩
      cases hq
      exact hnext previous (h.latest ▸ hprevious)
    · rw [hpublished, hresult, hsnoc, List.getLast?_concat]
      rfl

theorem step_cases {s next : Publisher} {event : Event}
    (h : s.step env writer sha256 event = some next) :
    (next.published = s.published ∧ next.refreshes = s.refreshes) ∨
      ∃ turned : Publisher, turned.published = s.published ∧ turned.refreshes = s.refreshes ∧
        next = { turned with
          published := (turned.publish writer sha256).toOption.orElse fun _ => s.published
          refreshes := s.refreshes ++ [turned.publish writer sha256] } := by
  cases event with
  | context event =>
    obtain ⟨system, -, rfl⟩ := Option.map_eq_some_iff.mp h
    exact Or.inl ⟨rfl, rfl⟩
  | refresh now missing =>
    simp only [step] at h
    split at h
    · cases h
      exact Or.inl ⟨rfl, rfl⟩
    · cases h
      exact Or.inr ⟨{ s with system := s.system.turn env (pure () : M Unit) now missing }, rfl, rfl, rfl⟩

theorem Marked.step {s next : Publisher} {event : Event} (h : s.Marked)
    (hs : s.step env writer sha256 event = some next) : next.Marked := by
  rcases step_cases hs with ⟨hpublished, hrefreshes⟩ | ⟨turned, hpublished, -, rfl⟩
  · have hsame : next.publications = s.publications := by
      unfold publications
      rw [hrefreshes]
    refine ⟨hsame ▸ h.first, hsame ▸ h.chain, ?_⟩
    rw [hsame, hpublished]
    exact h.latest
  · refine h.record (fun p hp => ⟨fun previous hprevious => ?_, fun hnone => ?_⟩) rfl rfl
    · exact publish_succeeds hp (hpublished.trans hprevious)
    · exact publish_first hp (hpublished.trans hnone)

/-- The markers of a Context follow its digests in every run. -/
theorem Reachable.marked {condition : Publisher → Event → Prop} {s : Publisher}
    (h : Transition.Reachable (step env writer sha256) {} condition s) : s.Marked := by
  refine h.invariant ⟨fun p hp => ?_, List.isChain_nil, rfl⟩ fun s next event hi _ hs => hi.step hs
  cases hp

end Publisher

end SeamlessWorkflow
