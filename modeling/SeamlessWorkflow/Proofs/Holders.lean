import SeamlessWorkflow.Proofs.DerivedViews

/-!
# Who holds a result

The walk of `_feeds_non_scratch_holder` goes on through scratch cells. It answers that a result is held
when it comes to a holder, raises when it comes to an edge that ends at a transformer itself, and answers
that nothing holds the result when it comes to neither. What it answers depends on the design of the nodes
and on the edges only.
-/

namespace SeamlessWorkflow

open Relation

namespace ContextGraph

/-! ## The walk -/

/-- The walk finds this at an edge of a node. -/
def Finds (env : Substrate) (g : ContextGraph) (path : NodePath) (step : HolderStep) : Prop :=
  ∃ edge ∈ g.edges, (g.resolveExisting edge.source).map Prod.fst = some path ∧
    g.holderStep env edge = step

/-- The walk goes on from one node to another one. -/
def PassesOn (env : Substrate) (g : ContextGraph) (path next : NodePath) : Prop :=
  g.Finds env path (.passes next)

section Walk

variable {env : Substrate} {g : ContextGraph} {path : NodePath}

theorem holderFind_eq {current : NodePath} {edge : Edge}
    (h : (g.resolveExisting edge.source).map Prod.fst = some current) :
    g.holderFind env current edge = match g.holderStep env edge with
      | .holds _ => .answer (some true)
      | .passes target => .vertex target
      | .stops => .nothing
      | .raises => .answer none := by
  obtain ⟨⟨source, l⟩, hsource, rfl⟩ := Option.map_eq_some_iff.mp h
  unfold holderFind
  rw [hsource]
  exact if_neg (not_not.mpr rfl)

theorem holderFind_nothing {current : NodePath} {edge : Edge}
    (h : (g.resolveExisting edge.source).map Prod.fst ≠ some current) :
    g.holderFind env current edge = .nothing := by
  unfold holderFind
  cases hsource : g.resolveExisting edge.source with
  | none => rfl
  | some source =>
    rw [hsource, Option.map_some] at h
    exact if_pos fun he => h (congrArg some he)

/-- What the search finds at a node is what the walk finds at its edges. -/
theorem mem_holderFinds {current : NodePath} (find : Search.Find NodePath (Option Bool))
    (hfind : find ≠ .nothing) : find ∈ g.edges.map (g.holderFind env current) ↔
      ∃ step, g.Finds env current step ∧ match step with
        | .holds _ => find = .answer (some true)
        | .passes target => find = .vertex target
        | .stops => False
        | .raises => find = .answer none := by
  constructor
  · intro h
    obtain ⟨edge, hedge, rfl⟩ := List.mem_map.mp h
    by_cases hsource : (g.resolveExisting edge.source).map Prod.fst = some current
    · refine ⟨g.holderStep env edge, ⟨edge, hedge, hsource, rfl⟩, ?_⟩
      rw [holderFind_eq hsource] at hfind ⊢
      cases hstep : g.holderStep env edge with
      | stops =>
        rw [hstep] at hfind
        exact hfind rfl
      | _ => rfl
    · exact absurd (holderFind_nothing hsource) hfind
  · rintro ⟨step, ⟨edge, hedge, hsource, rfl⟩, h⟩
    refine List.mem_map.mpr ⟨edge, hedge, ?_⟩
    rw [holderFind_eq hsource]
    cases hstep : g.holderStep env edge with
    | stops =>
      rw [hstep] at h
      exact h.elim
    | _ =>
      rw [hstep] at h
      exact h.symm

theorem leads_iff {a b : NodePath} :
    Search.Leads (fun current => g.edges.map (g.holderFind env current)) a b ↔ g.PassesOn env a b := by
  refine (mem_holderFinds (.vertex b) nofun).trans ⟨?_, fun h => ⟨_, h, rfl⟩⟩
  rintro ⟨step, hstep, he⟩
  cases step with
  | passes target =>
    obtain rfl := Search.Find.vertex.inj he
    exact hstep
  | stops => exact he.elim
  | _ => cases he

theorem reaches_iff {a : NodePath} :
    ReflTransGen (Search.Leads fun current => g.edges.map (g.holderFind env current)) path a ↔
      ReflTransGen (g.PassesOn env) path a := by
  constructor
  · exact fun h => ReflTransGen.mono (fun _ _ => leads_iff.mp) _ _ h
  · exact fun h => ReflTransGen.mono (fun _ _ => leads_iff.mpr) _ _ h

theorem answer_true {a : NodePath} :
    Search.Find.answer (some true) ∈ g.edges.map (g.holderFind env a) ↔
      ∃ target, g.Finds env a (.holds target) := by
  refine (mem_holderFinds (.answer (some true)) nofun).trans ⟨?_, fun ⟨_, h⟩ => ⟨_, h, rfl⟩⟩
  rintro ⟨step, hstep, he⟩
  cases step with
  | holds target => exact ⟨target, hstep⟩
  | stops => exact he.elim
  | _ => cases he

theorem answer_none {a : NodePath} :
    Search.Find.answer none ∈ g.edges.map (g.holderFind env a) ↔ g.Finds env a .raises := by
  refine (mem_holderFinds (.answer none) nofun).trans ⟨?_, fun h => ⟨_, h, rfl⟩⟩
  rintro ⟨step, hstep, he⟩
  cases step with
  | raises => exact hstep
  | stops => exact he.elim
  | _ => cases he

theorem answer_false {a : NodePath} :
    Search.Find.answer (some false) ∉ g.edges.map (g.holderFind env a) := by
  rw [mem_holderFinds (.answer (some false)) nofun]
  rintro ⟨step, -, he⟩
  cases step with
  | stops => exact he.elim
  | _ => cases he

/-- A result that is held has come to a holder. -/
theorem exists_holds (h : g.feedsNonScratchHolder env path = some true) :
    ∃ last target, ReflTransGen (g.PassesOn env) path last ∧ g.Finds env last (.holds target) := by
  unfold feedsNonScratchHolder at h
  rcases Option.getD_eq_iff.mp h with h | ⟨-, h⟩
  · obtain ⟨last, hlast, hanswer⟩ := Search.searchFrom_some h
    obtain ⟨target, htarget⟩ := answer_true.mp hanswer
    exact ⟨last, target, reaches_iff.mp hlast, htarget⟩
  · cases h

/-- Where the walk raises it has come to an edge that ends at a transformer itself. -/
theorem exists_raises (h : g.feedsNonScratchHolder env path = none) :
    ∃ last, ReflTransGen (g.PassesOn env) path last ∧ g.Finds env last .raises := by
  unfold feedsNonScratchHolder at h
  rcases Option.getD_eq_iff.mp h with h | ⟨-, h⟩
  · obtain ⟨last, hlast, hanswer⟩ := Search.searchFrom_some h
    exact ⟨last, reaches_iff.mp hlast, answer_none.mp hanswer⟩
  · cases h

/-- A result that is not held comes to no holder, and to no edge that ends at a transformer itself. -/
theorem not_held (h : g.feedsNonScratchHolder env path = some false) {last : NodePath}
    (hlast : ReflTransGen (g.PassesOn env) path last) :
    (∀ target, ¬ g.Finds env last (.holds target)) ∧ ¬ g.Finds env last .raises := by
  unfold feedsNonScratchHolder at h
  have hnone := Option.getD_eq_iff.mp h
  rcases hnone with h | ⟨h, -⟩
  · obtain ⟨last, -, hanswer⟩ := Search.searchFrom_some h
    exact absurd hanswer answer_false
  · -- the vertices are the targets of the edges, so there are no more than edges
    let targets : List NodePath := g.edges.filterMap fun edge =>
      match g.holderStep env edge with
      | .passes target => some target
      | _ => none
    have htargets : ∀ a b, Search.Leads (fun current => g.edges.map (g.holderFind env current)) a b →
        b ∈ targets := by
      intro a b hlead
      obtain ⟨edge, hedge, -, hstep⟩ := leads_iff.mp hlead
      exact List.mem_filterMap.mpr ⟨edge, hedge, by rw [hstep]⟩
    have hanswerless := Search.searchFrom_none htargets
      (Nat.succ_le_succ (List.length_filterMap_le _ _)) h last (reaches_iff.mpr hlast)
    exact ⟨fun target htarget => hanswerless _ (answer_true.mpr ⟨target, htarget⟩),
      fun hraises => hanswerless _ (answer_none.mpr hraises)⟩

/-- Does an edge end at a transformer itself? -/
def endsAtTransformer (g : ContextGraph) (edge : Edge) : Bool :=
  match g.resolveExisting edge.target with
  | some (target, []) => (g.nodes.lookup target).any fun node => !node.isCell
  | _ => false

theorem endsAtTransformer_of_raises {edge : Edge} (h : g.holderStep env edge = .raises) :
    g.endsAtTransformer edge = true := by
  unfold holderStep at h
  split at h
  · rename_i source target targetLocal hsource htarget
    split at h
    · rename_i output node houtput hnode
      dsimp only at h
      split at h
      · rename_i fields hbody
        split at h
        · unfold endsAtTransformer
          rw [htarget]
          dsimp only
          rw [hnode]
          unfold Node.isCell
          rw [Option.any_some, hbody]
          rfl
        · split at h
          · split at h <;> cases h
          · split at h <;> cases h
      · split at h
        · cases h
        · split at h <;> cases h
    · cases h
  · cases h

/-- An edge that ends at a cell as a whole, or at a part of a node. -/
theorem endsAtTransformer_of_cell {edge : Edge} (h : ∀ path,
    g.resolveExisting edge.target = some (path, []) → (g.nodes.lookup path).map Node.isCell = some true) :
    g.endsAtTransformer edge = false := by
  unfold endsAtTransformer
  split
  · rename_i target htarget
    obtain ⟨node, hnode, hcell⟩ := Option.map_eq_some_iff.mp (h target htarget)
    rw [hnode, Option.any_some, hcell]
    rfl
  · rfl

/-- No edge ends at a transformer itself. -/
def EndsAtParts (g : ContextGraph) : Prop := ∀ edge ∈ g.edges, g.endsAtTransformer edge = false

instance (g : ContextGraph) : Decidable g.EndsAtParts :=
  inferInstanceAs (Decidable (∀ edge ∈ g.edges, _))

/-- Without an edge that ends at a transformer itself the walk does not raise. -/
theorem EndsAtParts.answers (h : g.EndsAtParts) : g.feedsNonScratchHolder env path ≠ none := by
  intro hnone
  obtain ⟨last, -, edge, hedge, -, hraises⟩ := exists_raises hnone
  exact Bool.noConfusion ((endsAtTransformer_of_raises hraises).symm.trans (h edge hedge))

end Walk

/-! ## Graphs of one design -/

section Design

variable {seen : NodePath → Prop} {g g' : ContextGraph}

theorem Agrees.holderStep (h : g.Agrees seen g') (env : Substrate) (edge : Edge) :
    g'.holderStep env edge = g.holderStep env edge := by
  unfold ContextGraph.holderStep edgeTargetScratch
  simp only [h.resolveExisting, h.nodeCelltype]
  cases g.resolveExisting edge.source with
  | none => rfl
  | some source =>
    obtain ⟨source, sourceLocal⟩ := source
    cases sourceLocal with
    | cons k rest => rfl
    | nil =>
      cases g.resolveExisting edge.target with
      | none => rfl
      | some target =>
        dsimp only
        cases preservedType env (g.nodeCelltype source) edge with
        | none => rfl
        | some output =>
          cases h.meets target.1 with
          | none hn hn' => rw [hn, hn']
          | @some node node' hn hn' hd =>
            rw [hn, hn']
            have halike := Node.alike_of_design hd
            dsimp only
            generalize node.body = body at halike ⊢
            generalize node'.body = body' at halike ⊢
            cases halike with
            | cell fields => rfl
            | transformer hconfig _ => simp only [hconfig]

theorem Agrees.feedsNonScratchHolder (h : g.Agrees seen g') (env : Substrate)
    (path : NodePath) : g'.feedsNonScratchHolder env path = g.feedsNonScratchHolder env path := by
  have hfind : ∀ current, g'.holderFind env current = g.holderFind env current := by
    intro current
    funext edge
    unfold ContextGraph.holderFind
    rw [h.resolveExisting, h.holderStep]
  unfold ContextGraph.feedsNonScratchHolder
  simp only [h.edges, hfind]

theorem EndsAtParts.of_agrees (hparts : g.EndsAtParts) (h : g.Agrees seen g') : g'.EndsAtParts := by
  intro edge hedge
  rw [h.edges] at hedge
  rw [← hparts edge hedge]
  unfold endsAtTransformer
  rw [h.resolveExisting]
  split
  · rename_i target _
    cases h.meets target with
    | none hn hn' => rw [hn, hn']
    | @some node node' hn hn' hd =>
      rw [hn, hn', Option.any_some, Option.any_some]
      have halike := Node.alike_of_design hd
      unfold Node.isCell
      generalize node.body = body at halike ⊢
      generalize node'.body = body' at halike ⊢
      cases halike <;> rfl
  · rfl

end Design

end ContextGraph

theorem Node.design_durable (node : Node) : node.durable.design = node.design := by
  obtain ⟨ident, body⟩ := node
  cases body <;> rfl

/-- Two states with the same durable part, one of which has the results of the other. -/
theorem agrees_of_durable {ctx ctx' : Ctx} {seen : NodePath → Prop} (h : ctx'.durable = ctx.durable)
    (hseen : ∀ q, seen q → ctx'.node? q = ctx.node? q) : ctx.graph.Agrees seen ctx'.graph where
  design q := by
    have hq := congrArg (fun d => (Durable.node d q).map Node.design) h
    simp only [Ctx.durable, Option.map_map] at hq
    rwa [show Node.design ∘ Node.durable = Node.design from funext Node.design_durable] at hq
  edges := congrArg Durable.edges h
  shown q hq := congrArg (Option.map Node.shown) (hseen q hq)

/-- The answer of the walk depends on the durable part. -/
theorem feedsNonScratchHolder_of_durable {ctx ctx' : Ctx} (h : ctx'.durable = ctx.durable)
    (env : Substrate) (path : NodePath) :
    ctx'.graph.feedsNonScratchHolder env path = ctx.graph.feedsNonScratchHolder env path :=
  have hagrees : ctx.graph.Agrees (fun _ => False) ctx'.graph := agrees_of_durable h fun _ => False.elim
  hagrees.feedsNonScratchHolder env path

/-- Without an edge that ends at a transformer itself no derivation raises. -/
theorem nodesRaise_eq_none {env : Substrate} {ctx : Ctx} (h : ctx.graph.EndsAtParts)
    (paths : List NodePath) : Ctx.nodesRaise env paths ctx = none := by
  by_contra hraises
  obtain ⟨raised, hraises⟩ := Option.ne_none_iff_exists'.mp hraises
  obtain ⟨before, path, after, -, hraises⟩ := Ctx.nodesRaise_eq_some hraises
  obtain ⟨node, fields, code, pins, -, -, -, hraises⟩ := Ctx.nodeRaises_cases hraises
  obtain ⟨released, hreleased, hsearch, -⟩ := Ctx.meetDemandRaises_cases hraises
  have hdurable : released.durable = ctx.durable := by
    rw [hreleased]
    simp only [Ctx.durable_releaseUpstreamHolds, Ctx.durable_writePins, Ctx.durable_noteEdgeCode,
      Ctx.durable_report, Ctx.durable_noteDerivation]
    exact Ctx.durable_foldl (fun ctx path => Ctx.durable_deriveNode env ctx path) _ _
  rw [feedsNonScratchHolder_of_durable hdurable] at hsearch
  exact h.answers hsearch

end SeamlessWorkflow
