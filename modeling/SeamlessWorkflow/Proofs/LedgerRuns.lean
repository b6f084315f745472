import SeamlessWorkflow.Proofs.Derivations

/-!
# The run ledger of every reachable Context

Between two turns the references of superseded runs are those of the results in the queues. One
thing breaks this: a namespace copy that puts a cell over a transformer whose current run has been
launched. When the copied value is the one that the run was started with, the cell takes the run of
the transformer for its own and writes its value into it; the run then delivers a second time.
-/

namespace SeamlessWorkflow

open Program Relation

/-! ## Operations -/

/-- The Context once the nodes of a namespace have been copied. -/
def Ctx.copiedNodes (env : Substrate) (sourcePrefix targetPrefix : NodePath) (ctx : Ctx) : Ctx :=
  match (ctx.graph.addNamespace targetPrefix).descendants sourcePrefix with
  | some descendants => descendants.foldl (Ctx.copyNode env sourcePrefix targetPrefix)
      (ctx.modifyGraph fun g => g.addNamespace targetPrefix)
  | none => ctx

/-- A copy puts no cell over a node whose current run has been launched. -/
def Ctx.CopySparesRuns (env : Substrate) (ctx : Ctx) (sourcePrefix targetPrefix : NodePath) : Prop :=
  ∀ entry ∈ ctx.runtime.currentRuns.entries, entry.2.launched = true →
    ((ctx.copiedNodes env sourcePrefix targetPrefix).node? entry.1).map Node.isCell = some false

instance (env : Substrate) (ctx : Ctx) (s t : NodePath) : Decidable (ctx.CopySparesRuns env s t) :=
  inferInstanceAs (Decidable (∀ entry ∈ ctx.runtime.currentRuns.entries, _ → _))

/-- The same of an assignment, which copies a namespace to a path without a node. -/
def Ctx.AssignSparesRuns (env : Substrate) (ctx : Ctx) (path : NodePath) (value : AssignValue) : Prop :=
  match value with
  | .subcontext sourcePrefix => path ∉ ctx.graph.nodes → ctx.CopySparesRuns env sourcePrefix path
  | _ => True

/-- A message is awaited, and leaves its run awaited unless nothing else is to come for it. -/
def Handed.Delivers (handed : Handed) (ctx : Ctx) (path : NodePath) (generation : Nat)
    (f : RunRecord → RunRecord) : Prop :=
  ∀ r ∈ ctx.runtime.recordsAt path, r.generation = generation →
    r.Awaited ∧ (generation ∈ handed.pendingBy ctx → (f r).Awaited)

theorem shrinks_dropNode (rt : ContextRuntime) (path : NodePath) : Shrinks rt (rt.dropNode path) := by
  refine ⟨rfl, fun q r hr => ?_, fun q => ?_⟩
  · by_cases hq : q = path
    · subst hq
      rw [show (rt.dropNode q).currentRuns = rt.currentRuns.erase q from rfl,
        AList.lookup_erase] at hr
      cases hr
    · rwa [show (rt.dropNode path).currentRuns = rt.currentRuns.erase path from rfl,
        AList.lookup_erase_ne hq] at hr
  · unfold ContextRuntime.queue ContextRuntime.dropNode
    by_cases hq : q = path
    · subst hq
      simp
    · dsimp only
      rw [AList.lookup_erase_ne hq]

theorem queue_foldl_erase (paths : List NodePath) (d : AList (fun _ : NodePath => List RunRecord))
    (q : NodePath) : List.Sublist (((paths.foldl (fun d path => d.erase path) d).lookup q).getD [])
      ((d.lookup q).getD []) := by
  induction paths generalizing d with
  | nil => exact .refl _
  | cons path paths ih =>
    refine (ih (d.erase path)).trans ?_
    by_cases hq : q = path
    · subst hq
      simp [AList.lookup_erase]
    · rw [AList.lookup_erase_ne hq]

theorem shrinks_prune (rt : ContextRuntime) (selected : NodePath → Bool) :
    Shrinks rt (rt.prune selected) :=
  ⟨rfl, fun _ _ hr => hr, fun q => queue_foldl_erase _ _ q⟩

theorem shrinks_dropCurrent (rt : ContextRuntime) (path : NodePath) :
    Shrinks rt { rt with currentRuns := rt.currentRuns.erase path } := by
  refine ⟨rfl, fun q r hr => ?_, fun _ => .refl _⟩
  by_cases hq : q = path
  · subst hq
    rw [AList.lookup_erase] at hr
    cases hr
  · rwa [AList.lookup_erase_ne hq] at hr

theorem shrinks_clear (rt : ContextRuntime) : Shrinks rt { generation := rt.generation } := by
  refine ⟨rfl, fun path r hr => ?_, fun path => List.nil_sublist _⟩
  cases hr

theorem shrinks_congr {rt rt₁ rt₂ : ContextRuntime} (h : Shrinks rt rt₁) (he : rt₂ = rt₁) :
    Shrinks rt rt₂ := he ▸ h

section Operations

variable {start : ContextRuntime} {handed : Handed} {ctx ctx' : Ctx}

/-- The records of a node are dropped, and the kinds of the others stay. -/
theorem InTurn.dropNode (h : InTurn start handed ctx) (path : NodePath)
    (hr : ctx'.runtime = ctx.runtime.dropNode path)
    (hsuperseded : ctx'.supersededRefholds = ctx.supersededRefholds)
    (hkind : ∀ q, q ≠ path →
      (ctx'.node? q).map Node.isCell = (ctx.node? q).map Node.isCell)
    (hl : List.Sublist (Effect.launches ctx'.effects) (Effect.launches ctx.effects))
    (hp : List.Sublist (Effect.posts ctx'.effects) (Effect.posts ctx.effects)) :
    InTurn start handed ctx' := by
  refine h.shrinks (shrinks_congr (shrinks_dropNode _ path) hr) hsuperseded (fun q r hq => ?_) hl hp
  refine hkind q ?_
  rintro rfl
  rw [hr, show (ctx.runtime.dropNode q).currentRuns = ctx.runtime.currentRuns.erase q from rfl,
    AList.lookup_erase] at hq
  cases hq

theorem InTurn.remove (h : InTurn start handed ctx) (path : NodePath) (node : Node) :
    InTurn start handed
      (((ctx.modifyGraph fun g => g.eraseNode path).releaseNode path node).dropRuns path) := by
  set erased := ctx.modifyGraph fun g => g.eraseNode path
  have hf : Frame erased (erased.releaseNode path node) := frame_releaseNode path node erased
  have hc := frame_cancelRuns ((erased.releaseNode path node).runtime.recordsAt path)
    { erased.releaseNode path node with
      runtime := (erased.releaseNode path node).runtime.dropNode path }
  refine h.dropNode path ?_ ?_ (fun q hq => ?_) ?_ ?_
  · refine hc.runtime.trans ?_
    show (erased.releaseNode path node).runtime.dropNode path = _
    rw [hf.runtime]
    rfl
  · exact hc.superseded.trans hf.superseded
  · rw [node?_of_graph (graph_dropRuns path _)]
    refine (hf.kind q).trans ?_
    show ((ctx.graph.nodes.erase path).lookup q).map Node.isCell = _
    rw [AList.lookup_erase_ne hq]
    rfl
  · exact hc.launches.trans hf.launches
  · exact hc.posts.trans hf.posts

theorem InTurn.convert (h : InTurn start handed ctx) (path : NodePath) (celltype : Celltype) :
    InTurn start handed ((ctx.dropRuns path).modifyGraph fun g =>
      (g.replaceEdgesTo path).updateNode path (Node.toCell celltype)) := by
  have hc := frame_cancelRuns (ctx.runtime.recordsAt path)
    { ctx with runtime := ctx.runtime.dropNode path }
  refine h.dropNode path hc.runtime hc.superseded (fun q hq => ?_) hc.launches hc.posts
  refine Eq.trans ?_ (hc.kind q)
  show ((((ctx.dropRuns path).graph.replaceEdgesTo path).updateNode path
    (Node.toCell celltype)).nodes.lookup q).map Node.isCell = _
  rw [ContextGraph.lookup_updateNode, if_neg hq]
  rfl

theorem InTurn.pruneRuns (h : InTurn start handed ctx) (selected : NodePath → Bool) :
    InTurn start handed (ctx.pruneRuns selected) :=
  InTurn.cancel h _ (shrinks_prune _ _) _

theorem BetweenSteps.dropCurrent (h : BetweenSteps start handed ctx) (path : NodePath) :
    BetweenSteps start handed (ctx.dropCurrentRun path) := by
  have hc := InTurn.cancel h.1 _ (shrinks_dropCurrent _ path)
    (ctx.runtime.currentRuns.lookup path).toList
  have hf := frame_cancelRuns (ctx.runtime.currentRuns.lookup path).toList
    { ctx with runtime := { ctx.runtime with currentRuns := ctx.runtime.currentRuns.erase path } }
  refine ⟨hc.beside ⟨rfl, rfl, fun _ => rfl, .refl _, .refl _, .of_eq rfl⟩, fun g c => ?_⟩
  refine Iff.trans ?_ ((h.2 g c).trans ?_)
  · show (Ctx.cancelRuns _ _).supersededRefholds.lookup g = some c ↔ _
    rw [hf.superseded]
  · show _ ↔ ∃ q, ∃ r ∈ (Ctx.cancelRuns _ _).runtime.queue q, _
    rw [hf.runtime]
    rfl

/-- What the queues have delivered stays while a record is changed in another way. -/
theorem Ctx.HoldsQueued.updateRun (h : ctx.HoldsQueued) {path : NodePath} {generation : Nat}
    {f : RunRecord → RunRecord} (hf : ∀ r, (f r).resultChecksum = r.resultChecksum ∧
      (f r).generation = r.generation) : (ctx.updateRun path generation f).HoldsQueued := by
  unfold Ctx.updateRun
  split
  · exact h
  · split
    · exact h
    · rename_i queue hq
      have hqe : ctx.runtime.queue path = queue := by
        unfold ContextRuntime.queue
        rw [hq]
        rfl
      subst hqe
      set change : RunRecord → RunRecord := fun record =>
        if record.generation = generation ∧ record.phase ≠ .cancelled then f record else record
      have hchange : ∀ r, (change r).resultChecksum = r.resultChecksum ∧
          (change r).generation = r.generation := by
        intro r
        by_cases hg : r.generation = generation ∧ r.phase ≠ .cancelled
        · rw [show change r = f r from if_pos hg]
          exact hf r
        · rw [show change r = r from if_neg hg]
          exact ⟨rfl, rfl⟩
      intro g c
      refine (h g c).trans (exists_congr fun q => ?_)
      set queue := (ctx.runtime.queue path).map change with hqueue
      show _ ↔ ∃ r ∈ ContextRuntime.queue { ctx.runtime with
        supersededRuns := ctx.runtime.supersededRuns.insert path queue } q, _
      rw [ContextRuntime.queue_insert, hqueue]
      by_cases he : q = path
      · rw [if_pos he, he]
        constructor
        · rintro ⟨r, hr, hg, hc⟩
          exact ⟨change r, List.mem_map_of_mem hr, (hchange r).2.trans hg, (hchange r).1.trans hc⟩
        · rintro ⟨r', hr', hg, hc⟩
          obtain ⟨r, hr, rfl⟩ := List.mem_map.mp hr'
          exact ⟨r, hr, (hchange r).2.symm.trans hg, (hchange r).1.symm.trans hc⟩
      · rw [if_neg he]

/-- A change of the graph that keeps the nodes. -/
theorem BetweenSteps.modifyGraph (h : BetweenSteps start handed ctx) {f : ContextGraph → ContextGraph}
    (hn : (f ctx.graph).nodes = ctx.graph.nodes) :
    BetweenSteps start handed (ctx.modifyGraph f) := by
  refine ⟨h.1.beside ⟨rfl, rfl, fun q => ?_, .refl _, .refl _, .of_eq rfl⟩, h.2.of_eq rfl rfl⟩
  show ((f ctx.graph).nodes.lookup q).map Node.isCell = _
  rw [hn]
  rfl

theorem BetweenSteps.create (h : BetweenSteps start handed ctx) {path : NodePath} (body : NodeBody)
    (hnew : path ∉ ctx.graph.nodes) : BetweenSteps start handed
      { ctx.modifyGraph (fun g => g.putNode path { ident := ctx.nextIdent, body := body }) with
        nextIdent := ctx.nextIdent + 1 } := by
  refine ⟨Tracked.beside h.1 rfl rfl (fun q r _ _ hk => ?_) (.refl _) (.refl _), h.2.of_eq rfl rfl⟩
  have hq : q ≠ path := by
    rintro rfl
    rw [show ctx.node? q = none from AList.lookup_eq_none.mpr hnew] at hk
    cases hk
  show ((ctx.graph.nodes.insert path _).lookup q).map Node.isCell = _
  rw [AList.lookup_insert_ne hq]
  exact hk

theorem BetweenSteps.appendEdge (env : Substrate) (edge : Edge) :
    Keeps (BetweenSteps start handed) (appendEdge env edge) := by
  refine Triple.get_bind fun ctx => ?_
  cases hr : ctx.graph.registerEdgeSymbols env edge with
  | none => exact Triple.throw fun _ hc => hc.2
  | some r =>
    refine Triple.modify fun ctx' hc => ?_
    obtain ⟨rfl, hc⟩ := hc
    exact hc.modifyGraph (ContextGraph.registerEdgeSymbols_spec hr).1.nodes

theorem BetweenSteps.copyEdge (env : Substrate) (s t : NodePath) (edge : Edge) :
    Keeps (BetweenSteps start handed) (copyEdge env s t edge) := by
  refine Keeps.ite (BetweenSteps.appendEdge env _) (Keeps.bind (keeps_resolve _) fun source => ?_)
  refine Triple.get_bind fun ctx => ?_
  refine Triple.bind (R := fun _ => BetweenSteps start handed)
    (Triple.modify fun ctx' hc => ?_) fun _ => BetweenSteps.appendEdge env _
  obtain ⟨rfl, hc⟩ := hc
  exact hc.modifyGraph (ContextGraph.sameGraph_assignChainFrom env _ _ _).nodes

/-- A change that leaves the records and the held references alone, and posts nothing. -/
structure SameLedger (ctx ctx' : Ctx) : Prop where
  runtime : ctx'.runtime = ctx.runtime
  superseded : ctx'.supersededRefholds = ctx.supersededRefholds
  launches : List.Sublist (Effect.launches ctx'.effects) (Effect.launches ctx.effects)
  posts : List.Sublist (Effect.posts ctx'.effects) (Effect.posts ctx.effects)
  handsOn : HandsOn ctx ctx'

theorem SameLedger.trans {a b c : Ctx} (h : SameLedger a b) (h' : SameLedger b c) :
    SameLedger a c :=
  ⟨h'.runtime.trans h.runtime, h'.superseded.trans h.superseded, h'.launches.trans h.launches,
    h'.posts.trans h.posts, h.handsOn.trans h'.handsOn⟩

theorem sameLedger_copyNode (env : Substrate) (s t : NodePath) (ctx : Ctx) (path : NodePath) :
    SameLedger ctx (ctx.copyNode env s t path) := by
  unfold Ctx.copyNode
  cases ctx.node? path with
  | none => exact ⟨rfl, rfl, .refl _, .refl _, .refl _⟩
  | some node =>
    dsimp only
    set copy := node.copy env ctx.nextIdent
    set put : Ctx := { ctx.modifyGraph (fun g =>
      g.putNode (t ++ path.drop s.length) copy) with nextIdent := ctx.nextIdent + 1 }
    have hf := frame_increfAll (copy.producerChecksums ++ copy.currentChecksum.toList) put
    have hl : SameLedger ctx (put.increfAll (copy.producerChecksums ++
        copy.currentChecksum.toList)) := ⟨hf.runtime, hf.superseded, hf.launches, hf.posts, hf.handsOn⟩
    split
    · exact hl.trans ⟨rfl, rfl, .refl _, .refl _, .of_eq rfl⟩
    · exact hl

theorem BetweenSteps.copyNodes (h : BetweenSteps start handed ctx) (env : Substrate)
    {s t : NodePath} {descendants : List NodePath} (hcopies : ctx.CopySparesRuns env s t)
    (hd : (ctx.graph.addNamespace t).descendants s = some descendants) :
    BetweenSteps start handed (descendants.foldl (Ctx.copyNode env s t)
      (ctx.modifyGraph fun g => g.addNamespace t)) := by
  have loop : ∀ (paths : List NodePath) (ctx : Ctx),
      SameLedger ctx (paths.foldl (Ctx.copyNode env s t) ctx) := by
    intro paths
    induction paths with
    | nil => exact fun _ => ⟨rfl, rfl, .refl _, .refl _, .refl _⟩
    | cons path paths ih => exact fun ctx => (sameLedger_copyNode env s t ctx path).trans (ih _)
  have hl : SameLedger ctx (descendants.foldl (Ctx.copyNode env s t)
      (ctx.modifyGraph fun g => g.addNamespace t)) := by
    have hloop := loop descendants (ctx.modifyGraph fun g => g.addNamespace t)
    exact ⟨hloop.runtime, hloop.superseded, hloop.launches, hloop.posts, hloop.handsOn⟩
  refine ⟨Tracked.beside h.1 hl.runtime hl.superseded (fun path r hr hlaunched _ => ?_)
    (handed.issuedBy_sublist hl.launches) (handed.pendingBy_sublist hl.launches hl.posts),
    h.2.of_eq hl.runtime hl.superseded⟩
  have := hcopies ⟨path, r⟩ (AList.mem_lookup_iff.mp hr) hlaunched
  unfold Ctx.copiedNodes at this
  rw [hd] at this
  exact this

/-- The graph is replaced, and the ledger with it. -/
theorem BetweenSteps.clear (h : BetweenSteps start handed ctx)
    (hr : ctx'.runtime = { generation := ctx.runtime.generation })
    (hsuperseded : ctx'.supersededRefholds = ∅)
    (hl : List.Sublist (Effect.launches ctx'.effects) (Effect.launches ctx.effects))
    (hp : List.Sublist (Effect.posts ctx'.effects) (Effect.posts ctx.effects)) :
    BetweenSteps start handed ctx' := by
  refine ⟨Tracked.shrinks h.1 (shrinks_congr (shrinks_clear _) hr) (fun g c hc => ?_)
    (fun path r hc => ?_) (handed.issuedBy_sublist hl) (handed.pendingBy_sublist hl hp),
    fun g c => ?_⟩
  · rw [hsuperseded] at hc
    cases hc
  · rw [hr] at hc
    cases hc
  · rw [hsuperseded, hr]
    refine ⟨fun hc => absurd hc (by simp), ?_⟩
    rintro ⟨path, r, hm, -⟩
    exact absurd hm List.not_mem_nil

theorem BetweenSteps.load (h : BetweenSteps start handed ctx) (env : Substrate)
    (graph : ContextGraph) : BetweenSteps start handed (ctx.replaceGraph env graph) := by
  have hf := ((frame_increfAll (graph.renumber ctx.nextIdent).preparedClaims ctx).trans
    (frame_cancelRuns _ _)).trans (frame_detachSessions
      (ctx.increfAll (graph.renumber ctx.nextIdent).preparedClaims).cancelAllRuns)
  unfold Ctx.replaceGraph
  dsimp only
  generalize (ctx.increfAll (graph.renumber ctx.nextIdent).preparedClaims).cancelAllRuns.detachSessions
    = ctx₁ at hf
  have hr := hf.trans (frame_decrefAll (ctx₁.refheldChecksums env) ctx₁)
  have hgeneration : (ctx₁.releaseRefholds env).runtime.generation = ctx.runtime.generation :=
    congrArg ContextRuntime.generation hr.runtime
  refine h.clear ?_ rfl hr.launches hr.posts
  rw [← hgeneration]
  rfl

theorem BetweenSteps.close (h : BetweenSteps start handed ctx) (env : Substrate) :
    BetweenSteps start handed (finalState (close env ctx)) :=
  h.clear rfl rfl (List.nil_sublist _) (List.nil_sublist _)

end Operations

/-- The ledger survives every change of a turn whose messages are awaited, whose copies spare the
launched runs, and whose derivations do not raise. -/
theorem ledger_upheld (env : Substrate) (start : ContextRuntime) (handed : Handed) :
    Upheld env handed.Delivers (Ctx.AssignSparesRuns env) (fun _ => True)
      (fun d => d.view.graph.EndsAtParts) (InTurn start handed) (BetweenSteps start handed) where
  weaken h := h.1
  steady hf h := ⟨h.1.beside hf.toFrame.beside, h.2.of_eq hf.runtime hf.superseded⟩
  steady_mid hf h := h.beside hf.toFrame.beside
  forget path h := by
    refine ⟨h.1.beside (frame_updateNode path (fun node => ?_) _).beside, h.2.of_eq rfl rfl⟩
    rfl
  release _ _ h := ⟨h.1.beside (frame_replaceCurrentChecksum env _ none _).beside,
    h.2.of_eq (frame_replaceCurrentChecksum env _ none _).runtime
      (frame_replaceCurrentChecksum env _ none _).superseded⟩
  sync h := h.sync
  create _ body hnew h := h.create body hnew
  append _ hr h := h.modifyGraph (ContextGraph.registerEdgeSymbols_spec hr).1.nodes
  derive _ _ h := InTurn.deriveGraph (h.1.beside (frame_beginDerivation _).beside) env _
  raised hraised hparts _ := by
    obtain ⟨-, d, hd, hsearch⟩ := exists_raising hraised
    exact absurd hsearch (hparts d hd).answers
  remove path node h := h.remove path node
  convert path celltype h := h.1.convert path celltype
  started identity hd h :=
    ⟨h.updateRun (delivers_started identity) hd, h.2.updateRun fun _ => ⟨rfl, rfl⟩⟩
  delivered identity result error hd h := h.updateRun (delivers_deliver identity result error) hd
  dropQueued _ dropped h := h.1.dropQueued _ dropped
  pruneRuns selected h := h.1.pruneRuns selected
  dropCurrent path h := h.dropCurrent path
  copyNodes hassigns hnew hd h := h.copyNodes env (hassigns hnew) hd
  copyEdge s t edge _ _ := (BetweenSteps.copyEdge env s t edge).conseq (fun _ h => h.1) (fun _ _ h => h)
    fun _ h => h
  load _ h := h.load env _
  close _ h := h.close env

/-! ## Runs -/

/-- An event that is no copy, or one that spares the runs that have been launched. -/
def Event.SparesRuns (env : Substrate) (sys : System) (event : Event) : Prop :=
  match event with
  | .turn (.assign path (.subcontext sourcePrefix)) _ _ =>
    path ∉ sys.ctx.graph.nodes → (event.arrive sys.ctx).CopySparesRuns env sourcePrefix path
  | _ => True

instance (env : Substrate) (sys : System) (event : Event) :
    Decidable (event.SparesRuns env sys) := by
  unfold Event.SparesRuns
  split <;> infer_instance

/-- An event that spares the launched runs, and derives no graph in which an edge ends at a transformer
itself. -/
structure Event.Spares (env : Substrate) (sys : System) (event : Event) : Prop where
  runs : event.SparesRuns env sys
  parts : ∀ d ∈ event.derivations env sys, d.view.graph.EndsAtParts

instance (env : Substrate) (sys : System) (event : Event) : Decidable (event.Spares env sys) :=
  decidable_of_iff (event.SparesRuns env sys ∧ ∀ d ∈ event.derivations env sys, d.view.graph.EndsAtParts)
    ⟨fun h => ⟨h.1, h.2⟩, fun h => ⟨h.runs, h.parts⟩⟩

/-- The ledger of a whole system, against the ledger it started from. -/
structure LedgerKept (start : ContextRuntime) (sys : System) : Prop where
  tracked : Tracked start (sys.launched.map LaunchedRun.generation)
    (sys.outstanding.map LaunchedRun.generation ++ sys.posted.map Finished.generation) sys.ctx
  holds : sys.ctx.HoldsQueued

/-- What has been handed out when an event is taken. -/
def System.handed (sys : System) : Handed where
  issued := sys.launched.map LaunchedRun.generation
  outstanding := sys.outstanding.map LaunchedRun.generation
  posted := sys.posted.map Finished.generation

section Runs

variable {env : Substrate} {start : ContextRuntime} {sys next : System} {event : Event}

theorem System.accept_pending (sys : System) (event : Event) :
    List.Sublist ((sys.accept event).outstanding.map LaunchedRun.generation ++
        (sys.accept event).posted.map Finished.generation)
      (sys.outstanding.map LaunchedRun.generation ++ sys.posted.map Finished.generation) := by
  cases event with
  | turn t now missing => exact .refl _
  | started run identity now => exact .refl _
  | finished run identity outcome now =>
    exact List.Sublist.append (List.erase_sublist.map _) (.refl _)
  | cancelled run => exact List.Sublist.append (List.erase_sublist.map _) (.refl _)
  | posted message now => exact List.Sublist.append (.refl _) (List.erase_sublist.map _)

/-- The generation of an element that has been taken out of a list without repetitions. -/
theorem not_mem_map_erase {α : Type} [DecidableEq α] {f : α → Nat} {l : List α} {a : α}
    (hn : (l.map f).Nodup) (ha : a ∈ l) : f a ∉ (l.erase a).map f := by
  have hp := (List.perm_cons_erase ha).map f
  exact (List.nodup_cons.mp (hp.nodup_iff.mp hn)).1

theorem LedgerKept.arrive (h : LedgerKept start sys) (now : Nat) (missing : List Checksum)
    (event : Event) :
    BetweenSteps start (sys.accept event).handed (sys.ctx.arrive now missing) := by
  have hissued : (sys.accept event).handed.issuedBy (sys.ctx.arrive now missing) =
      sys.launched.map LaunchedRun.generation := by
    refine (List.append_nil _).trans ?_
    cases event <;> rfl
  have hpending : (sys.accept event).handed.pendingBy (sys.ctx.arrive now missing) =
      (sys.accept event).outstanding.map LaunchedRun.generation ++
        (sys.accept event).posted.map Finished.generation := by
    unfold Handed.pendingBy
    exact congrArg₂ _ (List.append_nil _) (List.append_nil _)
  refine ⟨?_, h.holds.of_eq rfl rfl⟩
  unfold InTurn
  rw [hissued, hpending]
  exact h.tracked.beside rfl rfl (fun _ _ _ _ hk => hk) (.refl _) (sys.accept_pending event)

/-- A message that is under way is awaited by its run. -/
theorem LedgerKept.delivers (h : LedgerKept start sys) {f : RunRecord → RunRecord} {now : Nat}
    {missing : List Checksum} {path : NodePath} {generation : Nat}
    (hg : generation ∈ sys.outstanding.map LaunchedRun.generation ++
      sys.posted.map Finished.generation)
    (hf : ∀ r : RunRecord, r.Awaited →
      generation ∈ (sys.accept event).outstanding.map LaunchedRun.generation ++
        (sys.accept event).posted.map Finished.generation → (f r).Awaited) :
    (sys.accept event).handed.Delivers (sys.ctx.arrive now missing) path generation f := by
  rintro r hr rfl
  have ha : r.Awaited := (h.tracked.entered path r hr).awaited hg
  refine ⟨ha, fun hp => hf r ha ?_⟩
  unfold Handed.pendingBy at hp
  simpa [Ctx.launchedRuns, Ctx.postedRuns, Ctx.arrive, Effect.launches, Effect.posts,
    System.handed] using hp

/-- Every event that spares the launched runs keeps the ledger. -/
theorem LedgerKept.step (h : LedgerKept start sys) (hc : event.Spares env sys)
    (hs : sys.step env event = some next) : LedgerKept start next := by
  have haccept : LedgerKept start (sys.accept event) := by
    refine ⟨?_, ?_⟩
    · have := h.tracked.beside rfl rfl (fun _ _ _ _ hk => hk) (.refl _) (sys.accept_pending event)
      cases event <;> exact this
    · cases event <;> exact h.holds
  have hcarry : ∀ ctx, BetweenSteps start (sys.accept event).handed ctx →
      LedgerKept start ((sys.accept event).carry ctx) := by
    intro ctx hctx
    refine ⟨?_, hctx.2⟩
    have := hctx.1
    unfold InTurn at this
    simpa [System.carry, Handed.issuedBy, Handed.pendingBy, System.handed, Ctx.launchedRuns,
      Ctx.postedRuns] using this
  have hup := (ledger_upheld env start (sys.accept event).handed).given
  have hkeeps : BetweenSteps start (sys.accept event).handed (event.arrive sys.ctx) →
      event.Admitted env (sys.accept event).handed.Delivers (Ctx.AssignSparesRuns env)
        (fun _ => True) (event.arrive sys.ctx) →
      LedgerKept start next := by
    intro harrive hadmitted
    have hparts := hc.parts
    rw [Event.derivations_eq hs] at hparts
    rcases hup.step (fun _ => harrive) hs hadmitted with rfl | ⟨ctx, hctx, rfl⟩
    · exact haccept
    · exact hcarry ctx (hctx hparts)
  have hnodup := h.tracked.pendingNodup
  have hawaited : ∀ run ∈ sys.outstanding, run.generation ∈
      sys.outstanding.map LaunchedRun.generation ++ sys.posted.map Finished.generation :=
    fun run hm => List.mem_append_left _ (List.mem_map_of_mem hm)
  cases event with
  | turn t now missing =>
    refine hkeeps (h.arrive now missing _) ?_
    cases t with
    | assign path value =>
      cases value with
      | subcontext sourcePrefix => exact hc.runs
      | _ => trivial
    | setGraph doc attachments => exact fun _ _ => trivial
    | _ => trivial
  | started run identity now =>
    obtain ⟨hm, -⟩ := Option.ite_none_right_eq_some.mp hs
    exact hkeeps (h.arrive now [] _) (h.delivers (hawaited run hm) fun r ha _ => ha)
  | finished run identity outcome now =>
    obtain ⟨hm, -⟩ := Option.ite_none_right_eq_some.mp hs
    refine hkeeps (h.arrive now [] _) (h.delivers (hawaited run hm) fun r ha hp => ?_)
    -- a run finishes once, so nothing else is to come for it
    refine absurd hp ?_
    rw [List.nodup_append] at hnodup
    rw [List.mem_append]
    rintro (hp | hp)
    · exact not_mem_map_erase hnodup.1 hm hp
    · exact hnodup.2.2 _ (List.mem_map_of_mem hm) _ hp rfl
  | cancelled run =>
    obtain ⟨-, hs⟩ := Option.ite_none_right_eq_some.mp hs
    obtain rfl := Option.some.inj hs
    exact haccept
  | posted message now =>
    obtain ⟨hm, -⟩ := Option.ite_none_right_eq_some.mp hs
    refine hkeeps (h.arrive now [] _)
      (h.delivers (List.mem_append_right _ (List.mem_map_of_mem hm)) fun r ha hp => ?_)
    refine absurd hp ?_
    rw [List.nodup_append] at hnodup
    rw [List.mem_append]
    rintro (hp | hp)
    · exact hnodup.2.2 _ hp _ (List.mem_map_of_mem hm) rfl
    · exact not_mem_map_erase hnodup.2.1 hm hp

end Runs

theorem LedgerKept.follows {env : Substrate} {start : ContextRuntime} {sys later : System}
    (h : LedgerKept start sys)
    (hf : ReflTransGen (System.Follows env (Event.Spares env)) sys later) :
    LedgerKept start later := by
  induction hf with
  | refl => exact h
  | tail _ hstep ih =>
    obtain ⟨event, hc, hs⟩ := hstep
    exact ih.step hc hs

/-- The ledger can be compared with any of its own states. -/
theorem LedgerKept.rebase {start : ContextRuntime} {sys : System} (h : LedgerKept start sys) :
    LedgerKept sys.ctx.runtime sys := by
  refine ⟨{ h.tracked with entered := fun path r hr => ?_, generation := le_rfl }, h.holds⟩
  exact { h.tracked.entered path r hr with descends := Or.inr ⟨r, hr, .refl r⟩ }

theorem ledgerKept_start : LedgerKept {} {} := by
  refine ⟨⟨fun _ _ hr => ?_, fun _ => List.nodup_nil, fun _ _ _ hr => ?_, fun _ => Nat.zero_le _,
    fun _ _ hr => ?_, fun _ _ hr => ?_, fun _ _ hr => ?_, le_rfl, List.nodup_nil, List.nodup_nil,
    fun g hg => ?_⟩, fun g c => ?_⟩
  · exact absurd hr List.not_mem_nil
  · exact absurd hr List.not_mem_nil
  · exact absurd hr List.not_mem_nil
  · cases hr
  · cases hr
  · simp at hg
  · refine ⟨fun hc => absurd hc (by simp), ?_⟩
    rintro ⟨path, r, hm, -⟩
    exact absurd hm List.not_mem_nil

/-- A record that has left the ledger does not come back. -/
theorem Descends.gone {start rt : ContextRuntime} (h : Descends start rt) {path : NodePath} {g : Nat}
    (hg : g ≤ start.generation) (hgone : ∀ r ∈ start.recordsAt path, r.generation ≠ g) :
    ∀ r ∈ rt.recordsAt path, r.generation ≠ g := by
  rintro r hr rfl
  rcases h.records path r hr with hlt | ⟨r₀, hr₀, hs⟩
  · omega
  · exact hgone r₀ hr₀ hs.generation.symm

theorem Descends.findRun_eq_none {start : ContextRuntime} {ctx : Ctx}
    (h : Descends start ctx.runtime) {path : NodePath} {g : Nat} (hg : g ≤ start.generation)
    (hgone : ∀ r ∈ start.recordsAt path, r.generation ≠ g) : ctx.findRun path g = none := by
  have hnot := h.gone hg hgone
  have hcurrent : (ctx.runtime.currentRuns.lookup path).filter
      (fun r => decide (r.generation = g)) = none := by
    cases hc : ctx.runtime.currentRuns.lookup path with
    | none => rfl
    | some r =>
      have := hnot r (ContextRuntime.mem_recordsAt.mpr (Or.inl hc))
      simp [Option.filter, this]
  unfold Ctx.findRun
  rw [hcurrent]
  refine List.find?_eq_none.mpr fun r hr => ?_
  have := hnot r (ContextRuntime.mem_recordsAt.mpr (Or.inr hr))
  simp [this]

/-- The run ledger of a system, now and in all that follows from it. -/
structure System.KeepsLedger (env : Substrate) (condition : System → Event → Prop) (sys : System) :
    Prop where
  ledger : Ledger sys.ctx.runtime
  /-- No generation is given twice. -/
  issued : (sys.launched.map LaunchedRun.generation).Nodup
  holds : sys.ctx.HoldsQueued
  descends : ∀ later, ReflTransGen (System.Follows env condition) sys later →
    Descends sys.ctx.runtime later.ctx.runtime
  /-- A record that has been cancelled, expired or evicted cannot be finished or reinstated. -/
  gone : ∀ later, ReflTransGen (System.Follows env condition) sys later → ∀ path g,
    g ≤ sys.ctx.runtime.generation → (∀ r ∈ sys.ctx.runtime.recordsAt path, r.generation ≠ g) →
      later.ctx.findRun path g = none ∧ ∀ r ∈ later.ctx.runtime.recordsAt path, r.generation ≠ g

/-- In every reachable state the run ledger is well formed, a generation is given once, what has
left the ledger does not come back, and the references of superseded runs are those of the results
in the queues, when no copy puts a cell over a node whose current run has been launched and no graph is
derived in which an edge ends at a transformer itself. -/
theorem reachable_keepsLedger {env : Substrate} {sys : System}
    (h : Reachable env (Event.Spares env) sys) : sys.KeepsLedger env (Event.Spares env) := by
  have hk : LedgerKept {} sys :=
    h.invariant ledgerKept_start fun sys next event hi hc hs => hi.step hc hs
  have hd : ∀ later, ReflTransGen (System.Follows env (Event.Spares env)) sys later →
      Descends sys.ctx.runtime later.ctx.runtime := fun later hlater =>
    (hk.rebase.follows hlater).tracked.descends
  refine ⟨hk.tracked.ledger, hk.tracked.issuedNodup, hk.holds, hd, ?_⟩
  intro later hlater path g hg hgone
  exact ⟨(hd later hlater).findRun_eq_none hg hgone, (hd later hlater).gone hg hgone⟩

/-- A transformer that is changed while it runs, the result of its first run, and a copy. -/
def supersedeOnce : List Event :=
  [.turn (.assign [.key "s", .key "a"] (.config { codeChecksum := some ⟨10⟩ })) 0 [],
    .turn (.assign [.key "s", .key "a"] (.config { codeChecksum := some ⟨11⟩ })) 0 [],
    .finished ⟨[.key "s", .key "a"], 1, ⟨⟨10⟩, [], ""⟩, 0⟩ ⟨77⟩ (.ok ⟨99⟩) 0,
    .turn (.assign [.key "t"] (.subcontext [.key "s"])) 0 []]

theorem supersedeOnce_runs : (System.run .fixed supersedeOnce {}).isSome = true := by
  decide +kernel

theorem reachable_keepsLedger_supersedeOnce :
    ((System.run .fixed supersedeOnce {}).get supersedeOnce_runs).KeepsLedger .fixed
      (Event.Spares .fixed) :=
  reachable_keepsLedger (Reachable.of_run .start (by decide +kernel) supersedeOnce_runs)

/-- A cell is copied over a transformer whose run was started with the checksum of the cell. The
run then delivers into the queue, after the cell has been changed. -/
def copyOverRun : List Event :=
  [.turn (.assign [.key "t", .key "a"] (.config { codeChecksum := some ⟨10⟩ })) 0 [],
    .turn (.assign [.key "s", .key "a"] (.checksum ⟨77⟩)) 0 [],
    .started ⟨[.key "t", .key "a"], 1, ⟨⟨10⟩, [], ""⟩, 0⟩ ⟨77⟩ 0,
    .turn (.assign [.key "t"] (.subcontext [.key "s"])) 0 [],
    .turn (.assign [.key "t", .key "a"] (.checksum ⟨78⟩)) 0 [],
    .finished ⟨[.key "t", .key "a"], 1, ⟨⟨10⟩, [], ""⟩, 0⟩ ⟨77⟩ (.ok ⟨99⟩) 0]

theorem copyOverRun_runs : (System.run .fixed copyOverRun {}).isSome = true := by decide +kernel

/-- The reference that is held is still the one for the value of the copied cell. -/
theorem not_reachable_keepsLedger :
    ¬ ∀ sys, Reachable .fixed (fun _ _ => True) sys → sys.KeepsLedger .fixed fun _ _ => True := by
  intro h
  have hk := h _ (Reachable.of_run .start (by decide +kernel) copyOverRun_runs)
  obtain ⟨path, r, hr, hg, hc⟩ := (hk.holds 1 ⟨77⟩).mp (by decide +kernel)
  have hphase : r.phase ≠ .cancelled := by
    rw [hk.ledger.queued path r hr]
    decide
  have hm := mem_supersededResults.mpr ⟨path, r, hr, hphase, hg, hc⟩
  exact absurd hm (by decide +kernel)

end SeamlessWorkflow
