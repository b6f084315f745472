import SeamlessWorkflow.Proofs.RecordRuns
import SeamlessWorkflow.Proofs.SortableGraphs

/-!
# The publications of every run

The state graph is published in every state of a run whose turns bring in paths that can be put in order
with those that are there. That the chains of the edges are recorded and have symbols, and that the block
reasons can be written, is kept by every turn.
-/

namespace SeamlessWorkflow

open Program Relation Wiring

/-! ## Loaded graphs -/

/-- No path of a node or of a target has a slice in it, the sources are spelled, and the paths of nodes,
sources and targets can be put in order. -/
structure Document.Describable (doc : Document) : Prop extends doc.Spelled where
  targets : ∀ c ∈ doc.connections, c.target.plain = true
  nodesCompare : ∀ a ∈ doc.nodes, ∀ b ∈ doc.nodes, a.path.comparable b.path = true
  edgesCompare : ∀ c ∈ doc.connections, ∀ c' ∈ doc.connections,
    (∀ p ∈ doc.sourcePath c.source, ∀ q ∈ doc.sourcePath c'.source, p.comparable q = true) ∧
      c.target.comparable c'.target = true

instance (doc : Document) : Decidable doc.Describable :=
  decidable_of_iff (doc.Spelled ∧ (∀ c ∈ doc.connections, c.target.plain = true) ∧
      (∀ a ∈ doc.nodes, ∀ b ∈ doc.nodes, a.path.comparable b.path = true) ∧
      ∀ c ∈ doc.connections, ∀ c' ∈ doc.connections,
        (∀ p ∈ doc.sourcePath c.source, ∀ q ∈ doc.sourcePath c'.source, p.comparable q = true) ∧
          c.target.comparable c'.target = true)
    ⟨fun h => ⟨h.1, h.2.1, h.2.2.1, h.2.2.2⟩,
      fun h => ⟨h.toSpelled, h.targets, h.nodesCompare, h.edgesCompare⟩⟩

theorem ConnectionLoaded.sourcePath {doc : Document} {g : ContextGraph} {entry : ConnectionEntry}
    {edge : Edge} (h : ConnectionLoaded doc g entry edge) :
    doc.sourcePath entry.source = some edge.source := by
  rw [edge.sourceFlat]
  rcases h.sourcePlace with ⟨path, hs, hplace⟩ | hplace
  · rw [hs, hplace, ← g.placeOf_flat]
    rfl
  · unfold Document.sourcePath
    cases hs : entry.source with
    | flat path =>
      rw [hs] at hplace
      cases hplace
    | node path sourcePath steps => exact congrArg (Option.map Place.flat) (hs ▸ hplace)
    | symbol name sourcePath => exact congrArg (Option.map Place.flat) (hs ▸ hplace)

theorem Loaded.sortable {doc : Document} {g : ContextGraph} (h : Loaded doc g) (hdoc : doc.Describable) :
    g.Sortable where
  nodes p hp q hq := by
    obtain ⟨a, ha, rfl⟩ := (h.mem p).mp hp
    obtain ⟨b, hb, rfl⟩ := (h.mem q).mp hq
    exact hdoc.nodesCompare a ha b hb
  edges := by
    rintro _ _ _ ⟨a, ha, rfl, rfl, rfl⟩ _ _ _ ⟨b, hb, rfl, rfl, rfl⟩
    obtain ⟨c, hc, hl⟩ := exists_related h.edges ha
    obtain ⟨c', hc', hl'⟩ := exists_related h.edges hb
    rw [← a.sourceFlat, ← b.sourceFlat, ← a.targetFlat, ← b.targetFlat, hl.target, hl'.target]
    exact ⟨(hdoc.edgesCompare c hc c' hc').1 _ hl.sourcePath _ hl'.sourcePath,
      (hdoc.edgesCompare c hc c' hc').2⟩
  targets := by
    rintro _ _ _ ⟨a, ha, rfl, rfl, rfl⟩
    obtain ⟨c, hc, hl⟩ := exists_related h.edges ha
    rw [← a.targetFlat, hl.target]
    exact hdoc.targets c hc

/-! ## Turns -/

/-- The paths that a turn brings in can be put in order with each other and with those that are there. No
path that is assigned and no target has a slice in it; a source has one only where the edge converts. -/
structure Turn.KeepsDescribable (turn : Turn) (g : ContextGraph) : Prop where
  assigned : ∀ path value, turn = .assign path value → path.plain = true
  wires : ∀ source target recipe, turn.wires source target recipe →
    target.flat.plain = true ∧ (source.flat.plain = true ∨ recipe.conversion = true)
  nodes : ∀ p, turn.puts g p → ∀ q, q ∈ g.nodes ∨ turn.puts g q → p.comparable q = true
  edges : ∀ source target recipe, turn.adds g source target recipe → ∀ source' target' recipe',
    g.HasWire source' target' recipe' ∨ turn.adds g source' target' recipe' →
      source.flat.comparable source'.flat = true ∧ target.flat.comparable target'.flat = true
  document : ∀ doc attachments, turn = .setGraph doc attachments → doc.Describable

/-- A turn that brings in names only, where there are names only, keeps the graph describable. -/
theorem Turn.keepsDescribable_of_named {turn : Turn} {g : ContextGraph}
    (hassigned : ∀ path value, turn = .assign path value → path.named = true)
    (hnodes : ∀ p, p ∈ g.nodes ∨ turn.puts g p → p.named = true)
    (hwires : ∀ source target recipe, g.HasWire source target recipe ∨ turn.adds g source target recipe →
      source.flat.named = true ∧ target.flat.named = true)
    (hdocument : ∀ doc attachments, turn ≠ .setGraph doc attachments) : turn.KeepsDescribable g where
  assigned path value h := Path.plain_of_named (hassigned path value h)
  wires source target recipe h := by
    obtain ⟨hs, ht⟩ := hwires source target recipe (Or.inr (Or.inl h))
    exact ⟨Path.plain_of_named ht, Or.inl (Path.plain_of_named hs)⟩
  nodes p hp q hq := Path.comparable_of_named (hnodes p (Or.inr hp)) (hnodes q hq)
  edges s t r h s' t' r' h' := by
    obtain ⟨hs, ht⟩ := hwires s t r (Or.inr h)
    obtain ⟨hs', ht'⟩ := hwires s' t' r' h'
    exact ⟨Path.comparable_of_named hs hs', Path.comparable_of_named ht ht'⟩
  document doc attachments h := absurd h (hdocument doc attachments)

/-- A cell that is assigned at a path of names keeps the graph describable, where there are names only. -/
theorem Turn.keepsDescribable_assignCell {g : ContextGraph} {path : NodePath} {prepared : PreparedCell}
    (hpath : path.named = true) (hnodes : ∀ p ∈ g.nodes, Path.named p = true)
    (hedges : ∀ edge ∈ g.edges, edge.source.named = true ∧ edge.target.named = true)
    (hinput : ∀ source place recipe, prepared.input.wires path source place recipe →
      source.flat.named = true ∧ place.flat.named = true) :
    (Turn.assign path (.cell prepared)).KeepsDescribable g := by
  have nocopy : ∀ {s}, AssignValue.cell prepared ≠ .subcontext s := fun h => nomatch h
  refine Turn.keepsDescribable_of_named ?_ ?_ ?_ fun _ _ h => nomatch h
  · rintro _ _ ⟨⟩
    exact hpath
  · rintro p (hp | (rfl | ⟨i, rfl⟩) | ⟨_, _, h, -⟩)
    · exact hnodes p hp
    · exact hpath
    · rfl
    · exact absurd (Turn.assign.inj h).2 nocopy
  · rintro source target recipe (⟨edge, hedge, rfl, rfl, -⟩ | hw | ⟨_, _, h, -⟩)
    · rw [← edge.sourceFlat, ← edge.targetFlat]
      exact hedges edge hedge
    · rcases hw with hw | ⟨_, _, i, rfl, -, built, hbuilt, rfl⟩
      · exact hinput source target recipe hw
      · refine ⟨rfl, ?_⟩
        rcases hbuilt with rfl | ⟨j, rfl⟩
        · rw [Place.flat, List.append_nil]
          exact hpath
        · rfl
    · exact absurd (Turn.assign.inj h).2 nocopy

namespace Turn.KeepsDescribable

variable {env : Substrate} {turn : Turn} {start ctx : Ctx}

theorem sortable_brought (h : turn.KeepsDescribable start.graph) (hs : start.graph.Sortable) :
    Sortable (fun p => p ∈ start.graph.nodes ∨ turn.puts start.graph p)
      fun source target recipe => start.graph.HasWire source target recipe ∨
        turn.adds start.graph source target recipe where
  nodes p hp q hq := by
    rcases hp with hp | hp
    · rcases hq with hq | hq
      · exact hs.nodes p hp q hq
      · rw [p.comparable_comm q]
        exact h.nodes q hq p (Or.inl hp)
    · exact h.nodes p hp q hq
  edges s t r hw s' t' r' hw' := by
    rcases hw with hw | hw
    · rcases hw' with hw' | hw'
      · exact hs.edges s t r hw s' t' r' hw'
      · rw [s.flat.comparable_comm, t.flat.comparable_comm]
        exact h.edges s' t' r' hw' s t r (Or.inl hw)
    · exact h.edges s t r hw s' t' r' hw'
  targets s t r hw := by
    rcases hw with hw | hw | ⟨source, target, hturn, -, edge, hedge, -, rfl, -⟩
    · exact hs.targets s t r hw
    · exact (h.wires s t r hw).1
    · rw [copyPlace_flat]
      exact plain_moved (h.assigned _ _ hturn) (hs.targets _ _ _ ⟨edge, (mem_edgesBelow.mp hedge).1,
        rfl, rfl, rfl⟩)

/-- After any moves of the turn the graph can be put in order. -/
theorem sortable (h : turn.KeepsDescribable start.graph) (hs : start.graph.Sortable)
    (hm : Moves env (turn.limits env start) start ctx) : ctx.graph.Sortable := by
  rcases Turn.within hm with hw | ⟨g, hl, hw⟩
  · exact (hw.mono (fun _ => id) fun _ _ _ => Or.imp_right And.left).sortable (h.sortable_brought hs)
  · obtain ⟨doc, attachments, rfl, hg⟩ := Turn.loads_only hl
    exact hw.sortable ((prepareGraph_spec hg).sortable (h.document doc attachments rfl))

theorem spells (h : turn.KeepsDescribable start.graph) (hw : turn.KeepsWiring start.graph) :
    (turn.limits env start).Spells where
  creates ctx p hc := by
    obtain ⟨hc, -⟩ := hc
    cases turn with
    | assign path value =>
      cases value with
      | cell cell =>
        rcases hc with rfl | ⟨i, rfl⟩
        · exact h.assigned _ _ rfl
        · rfl
      | _ =>
        obtain rfl := hc
        exact h.assigned _ _ rfl
    | _ => exact hc.elim
  wires source target recipe hwire := (h.wires source target recipe hwire).2
  copies ctx s t hc := by
    obtain ⟨rfl, rfl, hnew⟩ := hc
    exact ⟨h.assigned _ _ rfl, Or.resolve_left hw hnew⟩
  loads g hl := by
    obtain ⟨doc, attachments, rfl, hg⟩ := Turn.loads_only hl
    exact prepareGraph_spelled (h.document doc attachments rfl).toSpelled hg

/-- The moves of the turn keep the block reasons plain. -/
theorem reasonsPlain (h : turn.KeepsDescribable start.graph) (hs : start.graph.Sortable)
    (hm : Moves env (turn.limits env start) start ctx) (hp : start.ReasonsPlain) : ctx.ReasonsPlain := by
  refine hm.reasonsPlain (fun mid hmid => h.sortable hs hmid) (fun mid s t _ hc hmid => ?_)
    (fun g hl path node hnode => ?_) hp
  · obtain ⟨rfl, rfl, hnew⟩ := hc
    refine reasonsPlain_copy (fun copied hcopied => ?_) hmid
    refine (((within_start mid).mono (fun _ => Or.inl) fun _ _ _ => Or.inl).copying hcopied
      (fun p hp hsp => ?_) fun edge hedge => ?_).sortable (h.sortable_brought hs)
    · exact Or.inr (Or.inr ⟨s, t, rfl, hnew, p, hp, hsp, rfl⟩)
    · exact Or.inr (Or.inr ⟨s, t, rfl, hnew, edge, hedge, rfl, rfl, rfl⟩)
  · obtain ⟨doc, attachments, rfl, hg⟩ := Turn.loads_only hl
    exact congrArg (fun record => record.2.1) (fresh_prepareGraph hg path node hnode)

end Turn.KeepsDescribable

/-! ## Steps -/

/-- A namespace copy is apart from everything else, code is wired into a node that is there, the symbols
of a loaded document stand, and what a turn brings in can be put in order with what is there. -/
structure KeepsDescribable (sys : System) (event : Event) : Prop where
  wiring : KeepsWiring sys event
  symbols : event.SymbolsStand
  turn : ∀ turn now missing, event = .turn turn now missing → turn.KeepsDescribable sys.ctx.graph

/-- What makes the state graph of a Context describable. -/
structure Ctx.Publishable (ctx : Ctx) : Prop where
  wired : ctx.graph.wiring.WellWired
  symbols : SeamlessWorkflow.SymbolsKept ∅ ctx.graph
  spelled : ctx.graph.Spelled
  sortable : ctx.graph.Sortable
  reasons : ctx.ReasonsPlain

theorem publishable_empty : Ctx.Publishable {} where
  wired := wellWired_empty
  symbols := ⟨.refl _, fun _ _ _ hl => absurd hl (by simp), fun _ he => absurd he List.not_mem_nil⟩
  spelled := ⟨fun _ hp => absurd hp (AList.notMem_empty _), fun _ he => absurd he List.not_mem_nil⟩
  sortable := by
    refine ⟨fun _ hp => absurd hp (AList.notMem_empty _), ?_, ?_⟩
    · rintro _ _ _ ⟨edge, hedge, -⟩
      exact absurd hedge List.not_mem_nil
    · rintro _ _ _ ⟨edge, hedge, -⟩
      exact absurd hedge List.not_mem_nil
  reasons _ _ hreason := by cases hreason

section Steps

variable {env : Substrate} {sys next : System} {event : Event} {ctx : Ctx}

theorem message_publishable {delivers : NodePath → Nat → (RunRecord → RunRecord) → Prop} {start : Ctx}
    (hp : start.Publishable) (hm : Moves env (.message delivers) start ctx) (hs : SymbolsKept ∅ ctx.graph) :
    ctx.Publishable where
  wired := message_wellWired hm hp.wired
  symbols := hs
  spelled := message_spelled hm hp.spelled
  sortable := ((within_start _).message hm).sortable hp.sortable
  reasons := message_reasonsPlain hm hp.sortable hp.reasons

/-- A step keeps what makes the state graph describable. -/
theorem Ctx.Publishable.step (h : sys.ctx.Publishable) (hc : KeepsDescribable sys event)
    (hs : sys.step env event = some next) : next.ctx.Publishable := by
  have hsymbols : SeamlessWorkflow.SymbolsKept ∅ next.ctx.graph := h.symbols.step hs (hc.symbols.admitted _)
  rcases step_cases hs with rfl | ⟨now, missing, ctx, hm, rfl⟩
  · cases event <;> exact h
  · have harrive : (sys.ctx.arrive now missing).Publishable :=
      ⟨h.wired, h.symbols, h.spelled, h.sortable, h.reasons⟩
    cases event with
    | turn turn now' missing' =>
      have hturn : turn.KeepsDescribable (sys.ctx.arrive now missing).graph :=
        hc.turn turn now' missing' rfl
      have hwiring : turn.KeepsWiring (sys.ctx.arrive now missing).graph := hc.wiring
      exact ⟨hc.wiring.wellWired harrive.wired hm, hsymbols,
        hm.spelled (hturn.spells hwiring) harrive.spelled, hturn.sortable harrive.sortable hm,
        hturn.reasonsPlain harrive.sortable hm harrive.reasons⟩
    | _ => exact message_publishable harrive hm hsymbols

/-- A turn that runs no operation. -/
theorem Ctx.Publishable.refresh (h : sys.ctx.Publishable) (now : Nat) (missing : List Checksum) :
    (sys.turn env (pure () : M Unit) now missing).ctx.Publishable := by
  have hsymbols : SeamlessWorkflow.SymbolsKept ∅
      (sys.turn env (pure () : M Unit) now missing).ctx.graph := by
    have hkept : (sys.ctx.arrive now missing).SymbolsKept ∅ := h.symbols
    have hprogram : Triple (· = sys.ctx.arrive now missing) (pure () : M Unit)
        (fun _ => Ctx.SymbolsKept ∅) (Ctx.SymbolsKept ∅) := Triple.pure fun ctx hctx => hctx ▸ hkept
    rcases (symbols_upheld env ∅).turn hprogram with heq | ⟨ctx, hctx, heq⟩
    · rw [heq]
      exact h.symbols
    · rw [heq]
      exact hctx
  have harrive : (sys.ctx.arrive now missing).Publishable :=
    ⟨h.wired, h.symbols, h.spelled, h.sortable, h.reasons⟩
  rcases idle_cases env now missing sys with heq | ⟨ctx, hm, heq⟩
  · rw [heq]
    exact h
  · rw [heq] at hsymbols ⊢
    exact message_publishable harrive hm hsymbols

end Steps

/-! ## Descriptions -/

/-- An edge that collapses on save has one link. -/
theorem ContextGraph.length_of_collapses {g : ContextGraph} {edge : Edge}
    (h : g.collapsesOnSave edge = true) : edge.sourceChain.length = 1 := by
  unfold ContextGraph.collapsesOnSave ContextGraph.looksThrough at h
  rw [Bool.and_eq_true] at h
  obtain ⟨h, -⟩ := h
  split at h
  · rename_i hchain
    rw [hchain]
    rfl
  · cases h

/-- An edge reads below its node, or converts, only by its links. -/
theorem Edge.Spelled.linked_of_projects {g : ContextGraph} {edge : Edge} (h : edge.Spelled g)
    (hnamed : edge.source ≠ []) (hp : g.projects edge = true) : edge.sourceChain ≠ [] := by
  intro hchain
  obtain ⟨hconversion, hwhole⟩ := h.whole hchain
  unfold ContextGraph.projects at hp
  rw [hconversion, resolveExisting_self hwhole hnamed] at hp
  simp at hp

theorem Edge.Spelled.direct {g : ContextGraph} {edge : Edge} (h : edge.Spelled g)
    (hnodes : ∀ p ∈ g.nodes, p.plain = true) (hd : g.savesDirectly edge = true) :
    edge.source.plain = true := by
  rcases Bool.or_eq_true_iff.mp hd with hchain | hcollapses
  · exact hnodes _ (h.whole (of_decide_eq_true hchain)).2
  · refine h.linked.resolve_right fun hlong => ?_
    rw [ContextGraph.length_of_collapses hcollapses] at hlong
    exact absurd hlong (by decide)

/-- A publishable graph can be described. -/
theorem Ctx.Publishable.describable {ctx : Ctx} (h : ctx.Publishable) : ctx.graph.Describable := by
  have hmem : ∀ edge ∈ ctx.graph.edges, edge.wire ∈ ctx.graph.wiring.wires :=
    fun edge => List.mem_map_of_mem
  have hsource : ∀ edge ∈ ctx.graph.edges, (ctx.graph.resolveExisting edge.source).isSome = true :=
    fun edge hedge => by
      obtain ⟨n, l, hr⟩ := h.wired.sourceResolves _ (hmem edge hedge)
      rw [Edge.wire_source] at hr
      rw [ContextGraph.resolveExisting_eq_some.mpr hr]
      rfl
  have htarget : ∀ edge ∈ ctx.graph.edges, (ctx.graph.resolveExisting edge.target).isSome = true :=
    fun edge hedge => by
      obtain ⟨n, l, hr, -⟩ := h.wired.targetResolves _ (hmem edge hedge)
      rw [Edge.wire_target] at hr
      rw [ContextGraph.resolveExisting_eq_some.mpr hr]
      rfl
  have hnamed : ∀ edge ∈ ctx.graph.edges, edge.source ≠ [] := fun edge hedge hnil => by
    obtain ⟨r, hr⟩ := Option.isSome_iff_exists.mp (hsource edge hedge)
    have hreads := ContextGraph.resolveExisting_eq_some.mp hr
    rw [hnil] at hreads
    exact hreads.nonempty (List.append_eq_nil_iff.mp hreads.flat).1
  have hspelled := h.spelled.edges
  refine ⟨h.sortable.nodes, fun a ha b hb => h.sortable.edge_comparable ha hb,
    fun edge hedge => ⟨hsource edge hedge, fun _ => htarget edge hedge, ?_, fun _ recipe hrecipe => ?_⟩,
    fun edge hedge => ⟨h.sortable.target_plain hedge, ?_, fun _ => (hspelled edge hedge).chain⟩,
    h.spelled.nodes, fun path _ node hnode _ reason hreason => h.reasons path reason ?_⟩
  · exact (hspelled edge hedge).linked_of_projects (hnamed edge hedge)
  · obtain ⟨symbol, hsymbol⟩ := h.symbols.intact.registered edge hedge recipe hrecipe
    rw [hsymbol]
    rfl
  · exact (hspelled edge hedge).direct h.spelled.nodes
  · unfold Ctx.reasonAt Ctx.node?
    rw [show ctx.graph.nodes.lookup path = some node from hnode]
    exact hreason

/-! ## Runs -/

namespace Publisher

variable {env : Substrate} {writer : PathWriter} {sha256 : String → Checksum}

/-- The step of the Context keeps its state graph describable. -/
def KeepsDescribable (s : Publisher) (event : Event) : Prop :=
  ∀ inner, event = .context inner → SeamlessWorkflow.KeepsDescribable s.system inner

theorem publishable_step {s next : Publisher} {event : Event} (h : s.system.ctx.Publishable)
    (hc : s.KeepsDescribable event) (hs : s.step env writer sha256 event = some next) :
    next.system.ctx.Publishable := by
  cases event with
  | context inner =>
    obtain ⟨system, hsystem, rfl⟩ := Option.map_eq_some_iff.mp hs
    exact h.step (hc inner rfl) hsystem
  | refresh now missing =>
    have hturned : (s.system.turn env (pure () : M Unit) now missing).ctx.Publishable :=
      h.refresh now missing
    simp only [step] at hs
    split at hs <;> cases hs <;> exact hturned

/-- In every run whose turns keep the state graph describable, every refresh publishes it, with markers
that follow the digests. -/
theorem reachable_publishes {s : Publisher}
    (h : Transition.Reachable (step env writer sha256) {} KeepsDescribable s) :
    s.Publishes writer sha256 := by
  have hrun : s.system.ctx.Publishable ∧ ∀ result ∈ s.refreshes, ∃ p, result = .ok p := by
    refine h.invariant (I := fun s => s.system.ctx.Publishable ∧
      ∀ result ∈ s.refreshes, ∃ p, result = .ok p) ?_ fun s next event hi hc hs => ?_
    · exact ⟨publishable_empty, fun _ hr => by cases hr⟩
    · have hnext := publishable_step hi.1 hc hs
      refine ⟨hnext, ?_⟩
      rcases step_cases hs with ⟨-, hrefreshes⟩ | ⟨turned, -, -, rfl⟩
      · rw [hrefreshes]
        exact hi.2
      · intro result hr
        rcases List.mem_append.mp hr with hr | hr
        · exact hi.2 result hr
        · rw [List.mem_singleton.mp hr]
          exact exists_publish_ok.mpr (hnext.describable.body writer)
  exact ⟨Reachable.marked h, exists_publish_ok.mpr (hrun.1.describable.body writer), hrun.2⟩

/-- The code points of a text as the digits of a number. -/
def textNumber (body : String) : Checksum :=
  ⟨body.toList.foldl (fun n c => n * 0x110000 + c.toNat) 0⟩

/-- A document is loaded. Then a cell reads the member of a text, which is converted first; the state graph
is published before and after that, and once more. -/
def publishTwice : List Event :=
  [.context (.turn (.setGraph twoLinks []) 0 []),
    .context (.turn (.assign [.key "a"]
      (.cell { recipe := { celltype := .text }, input := .checksum ⟨10⟩ })) 0 []),
    .refresh 0 [],
    .context (.turn (.assign [.key "b"] (.cell
      { recipe := { celltype := .str }, input := .endpoint (readInText.endpoint {}) })) 0 []),
    .refresh 1 [], .refresh 2 []]

theorem publishTwice_runs :
    (Transition.run (step .fixed (literalWriter ligatureTables) textNumber) publishTwice {}).isSome = true := by
  decide +kernel

/-- The cells are assigned where there are names only. -/
theorem publishTwice_named : ∀ n ∈ [1, 3],
    ∀ s ∈ Transition.run (step .fixed (literalWriter ligatureTables) textNumber) (publishTwice.take n) {},
      (∀ p ∈ s.system.ctx.graph.nodes.keys, p.named = true) ∧
        ∀ edge ∈ s.system.ctx.graph.edges, edge.source.named = true ∧ edge.target.named = true := by
  decide +kernel

theorem publishTwice_keeps : Transition.Meets (step .fixed (literalWriter ligatureTables) textNumber)
    KeepsDescribable publishTwice {} := by
  have refreshed : ∀ (s : Publisher) now missing, s.KeepsDescribable (.refresh now missing) :=
    fun _ _ _ _ h => nomatch h
  refine ⟨?_, fun s1 h1 => ⟨?_, fun s2 h2 => ⟨refreshed _ _ _, fun s3 h3 => ⟨?_, fun s4 _ =>
    ⟨refreshed _ _ _, fun s5 _ => ⟨refreshed _ _ _, fun _ _ => trivial⟩⟩⟩⟩⟩⟩
  · rintro inner ⟨⟩
    refine ⟨by decide, by decide, ?_⟩
    rintro turn now missing ⟨⟩
    refine ⟨fun _ _ h => (nomatch h), fun _ _ _ h => h.elim, ?_, ?_, ?_⟩
    · rintro p (h | ⟨_, _, h, -⟩)
      · exact h.elim
      · cases h
    · rintro _ _ _ (h | ⟨_, _, h, -⟩)
      · exact h.elim
      · cases h
    · rintro _ _ ⟨⟩
      decide
  · obtain ⟨hnodes, hedges⟩ := publishTwice_named 1 (by decide) s1 (Transition.run_cons h1)
    rintro inner ⟨⟩
    refine ⟨trivial, trivial, ?_⟩
    rintro turn now missing ⟨⟩
    exact Turn.keepsDescribable_assignCell rfl hnodes hedges fun _ _ _ hw => hw.elim
  · obtain ⟨hnodes, hedges⟩ := publishTwice_named 3 (by decide) s3
      ((Transition.run_cons h1).trans ((Transition.run_cons h2).trans (Transition.run_cons h3)))
    rintro inner ⟨⟩
    refine ⟨trivial, trivial, ?_⟩
    rintro turn now missing ⟨⟩
    refine Turn.keepsDescribable_assignCell rfl hnodes hedges fun source place recipe hw => ?_
    obtain ⟨rfl, -, path, hbuilt, rfl⟩ := hw
    rcases hbuilt with rfl | ⟨i, rfl⟩ <;> exact ⟨rfl, rfl⟩

theorem reachable_publishes_publishTwice :
    ((Transition.run (step .fixed (literalWriter ligatureTables) textNumber) publishTwice {}).get
      publishTwice_runs).Publishes (literalWriter ligatureTables) textNumber :=
  reachable_publishes (Transition.Reachable.of_run .start publishTwice_keeps publishTwice_runs)

/-- One cell is read at a string by one cell and at an integer by another. -/
def readBothWays : List Event :=
  [.context (.turn (.assign [.key "a"] (.checksum ⟨1⟩)) 0 []),
    .context (.turn (.assign [.key "b"] (.endpoint (cellEndpoint [.key "a"] [.key "x"]))) 0 []),
    .context (.turn (.assign [.key "c"] (.endpoint (cellEndpoint [.key "a"] [.index 0]))) 0 [])]

theorem readBothWays_runs :
    (Transition.run (step .fixed (literalWriter ligatureTables) textNumber) readBothWays {}).isSome = true := by
  decide +kernel

/-- The two connections cannot be put in order. -/
theorem not_reachable_publishes :
    ¬ ∀ s, Transition.Reachable (step .fixed (literalWriter ligatureTables) textNumber) {} (fun _ _ => True) s →
      s.Publishes (literalWriter ligatureTables) textNumber := by
  intro h
  have htotal := (h _ (Transition.Reachable.of_run .start (by decide +kernel) readBothWays_runs)).total
  obtain ⟨paths, edges, _, _, -, hedges, -⟩ :=
    exists_stateGraphBody_ok.mp (exists_publish_ok.mp htotal)
  have hnone : sortEdges ((Transition.run (step .fixed (literalWriter ligatureTables) textNumber) readBothWays {}).get
      readBothWays_runs).system.ctx.graph.edges = none := by decide +kernel
  rw [hnone] at hedges
  cases hedges

end Publisher

end SeamlessWorkflow
