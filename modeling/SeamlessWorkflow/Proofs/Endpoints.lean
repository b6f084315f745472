import SeamlessWorkflow.Proofs.WiringInvariant

/-!
# The end points of edges

An edge keeps the flattened paths of its end points only. They are read back as they were meant as
long as no node is put on the way of a value sub-path that an edge uses: the code does not check
this.
-/

namespace SeamlessWorkflow

open Program Relation Wiring

/-- A node at `p` takes over what a place is meant for. -/
def Place.BlockedBy (place : Place) (p : NodePath) : Prop := Blocks p place.terminal

instance (place : Place) (p : NodePath) : Decidable (place.BlockedBy p) :=
  inferInstanceAs (Decidable (Blocks p place.terminal))

/-- A place is read back as it is meant, exactly when its node exists and no node blocks it. -/
theorem resolveExisting_place {g : ContextGraph} {place : Place} :
    g.resolveExisting place.flat = some (place.node, place.localPath) ↔
      place.node ≠ [] ∧ place.node ∈ g.nodes ∧ ∀ p ∈ g.nodes, ¬ place.BlockedBy p := by
  rw [ContextGraph.resolveExisting_eq_some]
  refine (resolves_iff (t := place.terminal)).trans ?_
  simp only [ContextGraph.stands_wiring, decide_eq_true_iff]
  rfl

/-! ## The moves of a turn -/

/-- The nodes and the edges of a Context are among these. -/
structure Within (nodes : NodePath → Prop) (wires : Place → Place → EdgeRecipe → Prop) (ctx : Ctx) :
    Prop where
  nodes : ∀ p ∈ ctx.graph.nodes, nodes p
  wires : ∀ edge ∈ ctx.graph.edges, wires edge.sourcePlace edge.targetPlace edge.recipe

section Moves

variable {env : Substrate} {lim : Limits} {nodes : NodePath → Prop}
  {wires : Place → Place → EdgeRecipe → Prop}

theorem Becomes.within {ctx : Ctx} {outline : NodePath → Option Outline}
    {edges : List Edge} (h : Becomes ctx outline edges)
    (hnodes : ∀ p, (outline p).isSome = true → nodes p)
    (hedges : ∀ edge ∈ edges, wires edge.sourcePlace edge.targetPlace edge.recipe) :
    Within nodes wires ctx where
  nodes p hp := hnodes p (by rwa [mem_nodes_iff_outline, h.outline] at hp)
  wires edge hedge := hedges edge (by rwa [h.edges] at hedge)

/-- A move stays among the nodes and the edges that its limits allow, or it loads a graph. -/
theorem Move.within {ctx ctx' : Ctx} (h : Move env lim ctx ctx')
    (hcreates : ∀ ctx p, lim.creates ctx p → nodes p)
    (hwires : ∀ source target recipe, lim.joins source → lim.joins target →
      lim.wires source target recipe → wires source target recipe)
    (hcopies : ∀ s t, lim.copies ctx s t → Within nodes wires (finalState (copySubcontext env s t ctx)))
    (hw : Within nodes wires ctx) : Within nodes wires ctx' ∨ ∃ g, lim.loads g ∧
      (∀ p, p ∈ ctx'.graph.nodes ↔ p ∈ g.nodes) ∧ ctx'.graph.edges = g.edges := by
  have hstands : ∀ p, (ctx.outline p).isSome = true → nodes p :=
    fun p hp => hw.nodes p (mem_nodes_iff_outline.mpr hp)
  have same : ∀ {next : Ctx}, next.outline = ctx.outline → next.graph.edges = ctx.graph.edges →
      Within nodes wires next := fun ho he =>
    ⟨fun p hp => hstands p (by rwa [mem_nodes_iff_outline, ho] at hp),
      fun edge hedge => hw.wires edge (he ▸ hedge)⟩
  cases h with
  | quiet h => exact Or.inl (same h.outline h.edges)
  | edit h => exact Or.inl (same h.outline h.edges)
  | derive hs hr =>
    exact Or.inl (same (outline_deriveGraph env _ ctx) (edges_deriveGraph env _ ctx))
  | raise hr => exact Or.inl (same (outline_raised hr) (edges_raised hr))
  | drop keep h =>
    exact Or.inl (h.within hstands fun edge hedge => hw.wires edge (List.mem_filter.mp hedge).1)
  | @recast _ path node _ hn ht h =>
    refine Or.inl (h.within (fun p hp => hstands p ?_) hw.wires)
    by_cases hpath : p = path
    · rw [hpath, hn]; rfl
    · rwa [Function.update_of_ne hpath] at hp
  | connect hg hr h =>
    refine Or.inl (h.within hstands fun edge hedge => ?_)
    rcases List.mem_append.mp hedge with hedge | hedge
    · exact hw.wires edge hedge
    · obtain rfl := List.mem_singleton.mp hedge
      exact hwires _ _ _ hr.source hr.target hr.wires
  | @create _ path node hp hc h =>
    refine Or.inl (h.within (fun p hp => ?_) hw.wires)
    by_cases hpath : p = path
    · exact hpath ▸ hcreates _ path hc
    · rw [Function.update_of_ne hpath] at hp
      exact hstands p hp
  | remove path hr h =>
    refine Or.inl (h.within (fun p hp => hstands p ?_) fun edge hedge =>
      hw.wires edge (List.mem_filter.mp hedge).1)
    by_cases hb : below path p = true
    · rw [if_pos hb] at hp
      exact absurd hp (by simp)
    · rwa [if_neg hb] at hp
  | @retype _ path node _ hn ht h =>
    refine Or.inl (h.within (fun p hp' => hstands p ?_) fun edge hedge =>
      hw.wires edge (List.mem_filter.mp hedge).1)
    by_cases hpath : p = path
    · rw [hpath, hn]; rfl
    · rwa [Function.update_of_ne hpath] at hp'
  | copy hc => exact Or.inl (hcopies _ _ hc)
  | @load _ g hl h hkind _ =>
    refine Or.inr ⟨g, hl, fun p => ?_, h.edges⟩
    rw [mem_nodes_iff_outline, ← AList.lookup_isSome, ← Option.isSome_map, hkind, Option.isSome_map]
  | deliver hd => exact Or.inl (same (outline_updateRun _ _ _ ctx) (edges_updateRun _ _ _ ctx))

/-- A namespace copy, before the graph is derived again. -/
theorem Within.copying {s t : NodePath} {ctx mid : Ctx} (hw : Within nodes wires ctx)
    (hmid : Rewires ctx mid ctx.outline ctx.graph.edges ∨ Copying s t ctx mid)
    (hnodes : ∀ p ∈ ctx.graph.nodes, s <+: p → nodes (t ++ p.drop s.length))
    (hwires : ∀ edge ∈ ctx.graph.edgesBelow s,
      wires (copyPlace s t edge.sourcePlace) (copyPlace s t edge.targetPlace) edge.recipe) :
    Within nodes wires mid := by
  rcases hmid with h | h
  · exact h.within (fun p hp => hw.nodes p (mem_nodes_iff_outline.mpr hp)) hw.wires
  · refine h.rewires.within (fun q hq => ?_) fun edge hedge => ?_
    · by_cases hcopied : ∃ p ∈ ctx.graph.nodes, s <+: p ∧ moved s t p = q
      · obtain ⟨p, hp, hs, rfl⟩ := hcopied
        exact hnodes p hp hs
      · rw [h.other q fun p hp hs hpq => hcopied ⟨p, hp, hs, hpq⟩] at hq
        exact hw.nodes q (mem_nodes_iff_outline.mpr hq)
    · obtain ⟨inside, new, hsub, hnew, hedges⟩ := h.edges
      rw [hedges] at hedge
      rcases List.mem_append.mp hedge with hedge | hedge
      · exact hw.wires edge hedge
      · obtain ⟨original, hin, hcopy⟩ := exists_related hnew hedge
        rw [hcopy.source, hcopy.target, hcopy.recipe]
        exact hwires original (hsub.subset hin)

/-- A message about a run touches no node and no edge. -/
theorem Within.message {delivers : NodePath → Nat → (RunRecord → RunRecord) → Prop} {ctx ctx' : Ctx}
    (hw : Within nodes wires ctx) (hm : Moves env (.message delivers) ctx ctx') :
    Within nodes wires ctx' := by
  induction hm with
  | refl => exact hw
  | tail _ hmove ih =>
    rcases hmove.within (fun _ _ => False.elim) (fun _ _ _ => False.elim) (fun _ _ => False.elim) ih
      with h | ⟨_, hl, _⟩
    · exact h
    · exact hl.elim

/-- A namespace copy. -/
theorem Within.copy {s t : NodePath} {ctx : Ctx} (hw : Within nodes wires ctx)
    (hnodes : ∀ p ∈ ctx.graph.nodes, s <+: p → nodes (t ++ p.drop s.length))
    (hwires : ∀ edge ∈ ctx.graph.edgesBelow s,
      wires (copyPlace s t edge.sourcePlace) (copyPlace s t edge.targetPlace) edge.recipe) :
    Within nodes wires (finalState (copySubcontext env s t ctx)) := by
  obtain ⟨mid, hmid, hmoves⟩ := copySubcontext_cases env (.message fun _ _ _ => False) s t ctx
  exact (hw.copying hmid hnodes hwires).message hmoves

end Moves

/-! ## Turns -/

/-- A graph has an edge with these end points and this recipe. -/
def ContextGraph.HasWire (g : ContextGraph) (source target : Place) (recipe : EdgeRecipe) : Prop :=
  ∃ edge ∈ g.edges, source = edge.sourcePlace ∧ target = edge.targetPlace ∧ recipe = edge.recipe

/-- The paths at which a turn puts a node. -/
def Turn.puts (turn : Turn) (g : ContextGraph) (p : NodePath) : Prop :=
  turn.creates p ∨ ∃ source target, turn = .assign target (.subcontext source) ∧
    target ∉ g.nodes ∧ ∃ q ∈ g.nodes, source <+: q ∧ p = target ++ q.drop source.length

/-- The edges that a turn adds: those that it wires, and copies of those inside a namespace. -/
def Turn.adds (turn : Turn) (g : ContextGraph) (source target : Place) (recipe : EdgeRecipe) : Prop :=
  turn.wires source target recipe ∨ ∃ sourcePrefix targetPrefix,
    turn = .assign targetPrefix (.subcontext sourcePrefix) ∧ targetPrefix ∉ g.nodes ∧
      ∃ edge ∈ g.edgesBelow sourcePrefix, source = copyPlace sourcePrefix targetPrefix edge.sourcePlace ∧
        target = copyPlace sourcePrefix targetPrefix edge.targetPlace ∧ recipe = edge.recipe

/-- The end points that a turn gives to new edges, apart from whole nodes. -/
def Turn.uses (turn : Turn) (g : ContextGraph) (place : Place) : Prop :=
  turn.joins place ∨ ∃ source target, turn = .assign target (.subcontext source) ∧
    target ∉ g.nodes ∧ ∃ edge ∈ g.edgesBelow source, place = copyPlace source target edge.sourcePlace ∨
      place = copyPlace source target edge.targetPlace

/-- A turn that loads a graph creates nothing else, and connects nothing else. -/
theorem Turn.loads_only {env : Substrate} {turn : Turn} {g : ContextGraph} (h : turn.loads env g) :
    ∃ doc attachments, turn = .setGraph doc attachments ∧ prepareGraph env doc = .ok g := by
  cases turn with
  | setGraph doc attachments => exact ⟨doc, attachments, rfl, h⟩
  | _ => exact h.elim

section Turn

variable {env : Substrate} {turn : Turn} {start ctx : Ctx}

theorem within_start (ctx : Ctx) : Within (· ∈ ctx.graph.nodes) ctx.graph.HasWire ctx where
  nodes _ hp := hp
  wires edge hedge := ⟨edge, hedge, rfl, rfl, rfl⟩

theorem Within.mono {nodes nodes' : NodePath → Prop} {wires wires' : Place → Place → EdgeRecipe → Prop}
    (h : Within nodes wires ctx) (hnodes : ∀ p, nodes p → nodes' p)
    (hwires : ∀ source target recipe, wires source target recipe → wires' source target recipe) :
    Within nodes' wires' ctx where
  nodes p hp := hnodes p (h.nodes p hp)
  wires edge hedge := hwires _ _ _ (h.wires edge hedge)

/-- An edge that a turn adds, between whole nodes and end points that the turn uses. -/
def Turn.AddsBetween (turn : Turn) (g : ContextGraph) (source target : Place) (recipe : EdgeRecipe) :
    Prop :=
  turn.adds g source target recipe ∧ ∀ place, place = source ∨ place = target →
    place.localPath = [] ∨ turn.uses g place

/-- A turn keeps the nodes and the edges of its start, puts what it puts and adds what it adds, or it
loads a graph. -/
theorem Turn.within (hm : Moves env (turn.limits env start) start ctx) :
    Within (fun p => p ∈ start.graph.nodes ∨ turn.puts start.graph p)
      (fun source target recipe => start.graph.HasWire source target recipe ∨
        turn.AddsBetween start.graph source target recipe) ctx ∨
      ∃ g, turn.loads env g ∧ Within (· ∈ g.nodes) g.HasWire ctx := by
  have loaded : ∀ {ctx : Ctx} {g : ContextGraph}, (∀ p, p ∈ ctx.graph.nodes ↔ p ∈ g.nodes) →
      ctx.graph.edges = g.edges → Within (· ∈ g.nodes) g.HasWire ctx := fun hnodes hedges =>
    ⟨fun p hp => (hnodes p).mp hp, fun edge hedge => ⟨edge, hedges ▸ hedge, rfl, rfl, rfl⟩⟩
  induction hm with
  | refl => exact Or.inl ((within_start start).mono (fun _ => Or.inl) fun _ _ _ => Or.inl)
  | tail _ hmove ih =>
    rcases ih with hw | ⟨g, hl, hw⟩
    · refine (hmove.within (fun _ p hp => Or.inr (Or.inl hp.1)) (fun source target recipe hs ht hwire => ?_)
        (fun s t hcopy => ?_) hw).imp id fun ⟨g, hl, hnodes, hedges⟩ => ⟨g, hl, loaded hnodes hedges⟩
      · refine Or.inr ⟨Or.inl hwire, ?_⟩
        rintro place (rfl | rfl)
        · exact hs.imp id Or.inl
        · exact ht.imp id Or.inl
      · obtain ⟨rfl, rfl, hnew⟩ := hcopy
        refine hw.copy (fun p hp hsp => Or.inr (Or.inr ⟨s, t, rfl, hnew, p, hp, hsp, rfl⟩))
          fun edge hedge => Or.inr ⟨Or.inr ⟨s, t, rfl, hnew, edge, hedge, rfl, rfl, rfl⟩, ?_⟩
        rintro place (rfl | rfl)
        · exact Or.inr (Or.inr ⟨s, t, rfl, hnew, edge, hedge, Or.inl rfl⟩)
        · exact Or.inr (Or.inr ⟨s, t, rfl, hnew, edge, hedge, Or.inr rfl⟩)
    · obtain ⟨doc, attachments, rfl, -⟩ := Turn.loads_only hl
      have := hmove.within (fun _ p hp => hp.1.elim) (fun _ _ _ _ _ => False.elim)
        (fun s t hcopy => absurd hcopy.2.1 (by simp)) hw
      refine Or.inr (this.elim (fun h => ⟨g, hl, h⟩) fun ⟨g', hl', hnodes, hedges⟩ => ?_)
      exact ⟨g', hl', loaded hnodes hedges⟩

end Turn

/-! ## Loaded graphs -/

/-- No node of a document is on the way of a reference of its connections. -/
def Document.EndpointsApart (doc : Document) : Prop :=
  ∀ entry ∈ doc.nodes, ∀ c ∈ doc.connections, ∀ place ∈ doc.reference c.source,
    ¬ place.BlockedBy entry.path

instance (doc : Document) : Decidable doc.EndpointsApart := by
  unfold Document.EndpointsApart
  infer_instance

/-- No node stands at the empty path, and no node is on the way of an end point of an edge. -/
structure ContextGraph.EndpointsApart (g : ContextGraph) : Prop where
  named : [] ∉ g.nodes
  edges : ∀ p ∈ g.nodes, ∀ edge ∈ g.edges,
    ¬ edge.sourcePlace.BlockedBy p ∧ ¬ edge.targetPlace.BlockedBy p

/-- Where a path resolves to is not blocked. -/
theorem not_blocked_placeOf {g : ContextGraph} {path : ViewPath} {p : NodePath}
    (hp : p ∈ g.nodes) : ¬ (g.placeOf path).BlockedBy p := by
  cases h : g.resolveExisting path with
  | none =>
    unfold ContextGraph.placeOf
    rw [h]
    exact not_blocks_root
  | some r =>
    have hplace : g.placeOf path = ⟨r.1, r.2⟩ := by
      unfold ContextGraph.placeOf
      rw [h]
    have hr : g.resolveExisting (g.placeOf path).flat =
        some ((g.placeOf path).node, (g.placeOf path).localPath) := by
      rw [← g.placeOf_flat path, h, hplace]
    exact (resolveExisting_place.mp hr).2.2 p hp

theorem Loaded.endpointsApart {doc : Document} {g : ContextGraph} (h : Loaded doc g)
    (hdoc : doc.EndpointsApart) : g.EndpointsApart where
  named hnil := by
    obtain ⟨entry, hentry, hpath⟩ := (h.mem []).mp hnil
    exact h.nonempty entry hentry hpath
  edges p hp edge hedge := by
    obtain ⟨c, hc, hl⟩ := exists_related h.edges hedge
    refine ⟨?_, hl.targetPlace ▸ not_blocked_placeOf hp⟩
    rcases hl.sourcePlace with ⟨path, -, hplace⟩ | hplace
    · exact hplace ▸ not_blocked_placeOf hp
    · obtain ⟨entry, hentry, rfl⟩ := (h.mem p).mp hp
      exact hdoc entry hentry c hc _ hplace

/-! ## The condition on a run -/

/-- The end points of the edges of a graph. -/
def ContextGraph.ends (g : ContextGraph) (place : Place) : Prop :=
  ∃ edge ∈ g.edges, place = edge.sourcePlace ∨ place = edge.targetPlace

/-- Node paths and used sub-paths stay apart in a turn: no node that stands or is put is on the way
of an end point that is in use or comes into use. -/
structure Turn.KeepsEndpoints (turn : Turn) (g : ContextGraph) : Prop where
  named : ∀ p, turn.puts g p → p ≠ []
  apart : ∀ p, p ∈ g.nodes ∨ turn.puts g p → ∀ place, g.ends place ∨ turn.uses g place →
    ¬ place.BlockedBy p
  document : ∀ doc attachments, turn = .setGraph doc attachments → doc.EndpointsApart

def KeepsEndpoints (sys : System) (event : Event) : Prop :=
  match event with
  | .turn t _ _ => t.KeepsEndpoints sys.ctx.graph
  | _ => True

section Run

variable {env : Substrate} {turn : Turn} {start ctx : Ctx} {nodes : NodePath → Prop}

theorem not_blocked_root {place : Place} {p : NodePath} (h : place.localPath = []) :
    ¬ place.BlockedBy p := by
  obtain ⟨node, localPath⟩ := place
  obtain rfl : localPath = [] := h
  exact not_blocks_root

theorem Within.endpointsApart {wires : Place → Place → EdgeRecipe → Prop} (hw : Within nodes wires ctx)
    (hnamed : ¬ nodes []) (hapart : ∀ p, nodes p → ∀ source target recipe, wires source target recipe →
      ¬ source.BlockedBy p ∧ ¬ target.BlockedBy p) : ctx.graph.EndpointsApart where
  named h := hnamed (hw.nodes [] h)
  edges p hp edge hedge := hapart p (hw.nodes p hp) _ _ _ (hw.wires edge hedge)

theorem ContextGraph.EndpointsApart.wires {g : ContextGraph} (h : g.EndpointsApart) :
    ∀ p ∈ g.nodes, ∀ source target recipe, g.HasWire source target recipe →
      ¬ source.BlockedBy p ∧ ¬ target.BlockedBy p := by
  rintro p hp _ _ _ ⟨edge, hedge, rfl, rfl, rfl⟩
  exact h.edges p hp edge hedge

/-- After a turn the end points are still apart from the nodes. -/
theorem Turn.KeepsEndpoints.run (hk : turn.KeepsEndpoints start.graph)
    (hs : start.graph.EndpointsApart) (hm : Moves env (turn.limits env start) start ctx) :
    ctx.graph.EndpointsApart := by
  rcases Turn.within hm with hw | ⟨g, hl, hw⟩
  · refine hw.endpointsApart (fun hnil => ?_) fun p hp source target recipe hwire => ?_
    · exact hnil.elim hs.named fun hput => hk.named [] hput rfl
    · rcases hwire with ⟨edge, hedge, rfl, rfl, -⟩ | ⟨-, huses⟩
      · exact ⟨hk.apart p hp _ (Or.inl ⟨edge, hedge, Or.inl rfl⟩),
          hk.apart p hp _ (Or.inl ⟨edge, hedge, Or.inr rfl⟩)⟩
      · have hnew : ∀ place, place.localPath = [] ∨ turn.uses start.graph place → ¬ place.BlockedBy p :=
          fun place h => h.elim not_blocked_root fun h => hk.apart p hp place (Or.inr h)
        exact ⟨hnew _ (huses _ (Or.inl rfl)), hnew _ (huses _ (Or.inr rfl))⟩
  · obtain ⟨doc, attachments, rfl, hg⟩ := Turn.loads_only hl
    have hg := (prepareGraph_spec hg).endpointsApart (hk.document doc attachments rfl)
    exact hw.endpointsApart hg.named hg.wires

end Run

theorem reachable_endpointsApart {env : Substrate} {sys : System}
    (h : Reachable env KeepsEndpoints sys) : sys.ctx.graph.EndpointsApart := by
  refine h.ctx_invariant (I := fun ctx => ctx.graph.EndpointsApart)
    ⟨AList.notMem_empty _, fun _ hp => absurd hp (AList.notMem_empty _)⟩ (fun _ _ _ hs => hs)
    fun sys event now missing ctx hc hs hm => ?_
  cases event with
  | turn t now' missing' =>
    have hc : t.KeepsEndpoints (sys.ctx.arrive now missing).graph := hc
    exact hc.run hs hm
  | _ => exact ((within_start _).message hm).endpointsApart hs.named hs.wires

/-- Where the end points of an edge resolve, once both nodes exist. -/
def Edge.ResolvesAsMeant (g : ContextGraph) (edge : Edge) : Prop :=
  edge.sourcePlace.node ∈ g.nodes → edge.targetPlace.node ∈ g.nodes →
    g.resolveExisting edge.source = some (edge.sourcePlace.node, edge.sourcePlace.localPath) ∧
      g.resolveExisting edge.target = some (edge.targetPlace.node, edge.targetPlace.localPath)

/-- In every reachable Context the edges between existing nodes resolve as they were meant, when
every event of the run keeps the end points apart from the nodes. -/
theorem reachable_resolvesAsMeant {env : Substrate} {sys : System}
    (h : Reachable env KeepsEndpoints sys) :
    ∀ edge ∈ sys.ctx.graph.edges, edge.ResolvesAsMeant sys.ctx.graph := by
  intro edge hedge hs ht
  have hapart := reachable_endpointsApart h
  have hne : ∀ {n}, n ∈ sys.ctx.graph.nodes → n ≠ [] := fun hn hnil => hapart.named (hnil ▸ hn)
  rw [edge.sourceFlat, edge.targetFlat]
  exact ⟨resolveExisting_place.mpr ⟨hne hs, hs, fun p hp => (hapart.edges p hp edge hedge).1⟩,
    resolveExisting_place.mpr ⟨hne ht, ht, fun p hp => (hapart.edges p hp edge hedge).2⟩⟩

/-- A cell, and a cell fed by a sub-path of it. -/
def wireSubpath : List Event :=
  [.turn (.assign [.key "a"] (.checksum ⟨1⟩)) 0 [],
    .turn (.assign [.key "b"] (.endpoint (cellEndpoint [.key "a"] [.key "x"]))) 0 []]

theorem wireSubpath_runs : (System.run .fixed wireSubpath {}).isSome = true := by decide +kernel

theorem wireSubpath_keeps : System.Meets .fixed KeepsEndpoints wireSubpath {} := by
  have nocopy : ∀ {path : NodePath} {value : AssignValue} {source target : NodePath} {c : Prop},
      (∀ s, value ≠ .subcontext s) → ¬ (Turn.assign path value = .assign target (.subcontext source) ∧ c) :=
    fun hv h => hv _ (Turn.assign.inj h.1).2
  refine ⟨⟨?_, ?_, fun _ _ h => absurd h (by simp)⟩, fun next hnext => ⟨?_, fun _ _ => trivial⟩⟩
  · rintro p (rfl | ⟨_, _, h⟩)
    · simp
    · exact absurd h (nocopy (by simp))
  · rintro p - place (⟨edge, hedge, -⟩ | h | ⟨_, _, h⟩)
    · exact absurd hedge List.not_mem_nil
    · exact h.elim
    · exact absurd h (nocopy (by simp))
  · obtain rfl := Option.some.inj hnext
    refine ⟨?_, ?_, fun _ _ h => absurd h (by simp)⟩
    · rintro p (rfl | ⟨_, _, h⟩)
      · simp
      · exact absurd h (nocopy (by simp))
    · -- the graph holds one cell and no edge
      have hnodes : ∀ p ∈ (System.turn .fixed (operation .fixed
          (.assign [.key "a"] (.checksum ⟨1⟩))) 0 [] {}).ctx.graph.nodes.keys,
          ¬ (cellEndpoint [.key "a"] [.key "x"]).place.BlockedBy p := by decide +kernel
      have hedges : (System.turn .fixed (operation .fixed
          (.assign [.key "a"] (.checksum ⟨1⟩))) 0 [] {}).ctx.graph.edges = [] := by decide +kernel
      rintro p hp place (⟨edge, hedge, -⟩ | h | ⟨_, _, h⟩)
      · exact absurd (hedges ▸ hedge) List.not_mem_nil
      · obtain rfl : place = (cellEndpoint [.key "a"] [.key "x"]).place := h
        rcases hp with hp | rfl | ⟨_, _, h⟩
        · exact hnodes p hp
        · decide
        · exact absurd h (nocopy (by simp))
      · exact absurd h (nocopy (by simp))

theorem reachable_resolvesAsMeant_wireSubpath :
    ((System.run .fixed wireSubpath {}).get wireSubpath_runs).ctx.graph.edges.length = 1 ∧
      ∀ edge ∈ ((System.run .fixed wireSubpath {}).get wireSubpath_runs).ctx.graph.edges,
        edge.ResolvesAsMeant ((System.run .fixed wireSubpath {}).get wireSubpath_runs).ctx.graph :=
  ⟨by decide +kernel,
    reachable_resolvesAsMeant (Reachable.of_run .start wireSubpath_keeps wireSubpath_runs)⟩

/-- A node at the sub-path. -/
def takeOver : List Event :=
  wireSubpath ++ [.turn (.assign [.key "a", .key "x"] (.checksum ⟨2⟩)) 0 []]

theorem takeOver_runs : (System.run .fixed takeOver {}).isSome = true := by decide +kernel

instance (g : ContextGraph) (edge : Edge) : Decidable (edge.ResolvesAsMeant g) :=
  inferInstanceAs (Decidable (_ → _ → _ ∧ _))

theorem not_reachable_resolvesAsMeant :
    ¬ ∀ sys, Reachable .fixed (fun _ _ => True) sys →
      ∀ edge ∈ sys.ctx.graph.edges, edge.ResolvesAsMeant sys.ctx.graph := by
  intro h
  have := h _ (Reachable.of_run .start (by decide +kernel) takeOver_runs)
  exact absurd this (by decide +kernel)

end SeamlessWorkflow
