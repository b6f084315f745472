import SeamlessWorkflow.Proofs.Credits
import SeamlessWorkflow.Proofs.SettledRuns

/-!
# No stale result

In every reachable Context that is settled, a complete transformer shows the result that a run has
delivered which was launched at this very node, for the demand that its inputs make now. The run may
have been superseded and made current again in between, any number of times.
-/

namespace SeamlessWorkflow

open Program Relation

/-! ## The credits of a whole system -/

/-- The results that are shown and the messages that are under way are credited to runs. -/
structure CreditsKept (sys : System) : Prop where
  agreed : ∀ run ∈ sys.launched, ∀ r ∈ sys.ctx.runtime.recordsAt run.path,
    r.generation = run.generation → ∀ key, r.demandKey = some key → key = run.key
  earned : ∀ path, ∀ r ∈ sys.ctx.runtime.recordsAt path, ∀ key, r.demandKey = some key →
    ∀ c, r.resultChecksum = some c → DeliveredFor sys.delivered path r.generation key c
  posted : ∀ message ∈ sys.posted, ∀ c, message.result = some c →
    ∃ run, (run, c) ∈ sys.delivered ∧ run.path = message.path ∧ run.generation = message.generation
  outstanding : sys.outstanding ⊆ sys.launched
  delivered : ∀ entry ∈ sys.delivered, entry.1 ∈ sys.launched

section Steps

variable {env : Substrate} {start : ContextRuntime} {sys next : System} {event : Event}

theorem System.delivered_subset_accept (sys : System) (event : Event) :
    sys.delivered ⊆ (sys.accept event).delivered := by
  cases event with
  | finished run identity outcome now => exact List.subset_append_left _ _
  | _ => exact List.Subset.refl _

theorem System.launched_accept (sys : System) (event : Event) :
    (sys.accept event).launched = sys.launched := by
  cases event <;> rfl

theorem DeliveredFor.mono {delivered delivered' : List (LaunchedRun × Checksum)}
    (hsub : delivered ⊆ delivered') {path : NodePath} {generation : Nat} {key : DemandKey}
    {c : Checksum} (h : DeliveredFor delivered path generation key c) :
    DeliveredFor delivered' path generation key c := by
  obtain ⟨run, hrun, hrest⟩ := h
  exact ⟨run, hsub hrun, hrest⟩

/-- An event that is taken is one of a run that has been launched. -/
theorem CreditsKept.accept (h : CreditsKept sys) (hs : sys.step env event = some next) :
    CreditsKept (sys.accept event) := by
  have hmono := sys.delivered_subset_accept event
  have hctx : (sys.accept event).ctx = sys.ctx := by cases event <;> rfl
  have hposted : (sys.accept event).posted ⊆ sys.posted := by
    cases event with
    | posted message now => exact List.erase_subset
    | _ => exact List.Subset.refl _
  refine ⟨?_, fun path r hr key hk c hc => ?_, fun message hm c hc => ?_, ?_, fun entry hentry => ?_⟩
  · rw [sys.launched_accept, hctx]
    exact h.agreed
  · rw [hctx] at hr
    exact (h.earned path r hr key hk c hc).mono hmono
  · obtain ⟨run, hrun, hrest⟩ := h.posted message (hposted hm) c hc
    exact ⟨run, hmono hrun, hrest⟩
  · rw [sys.launched_accept]
    cases event with
    | turn t now missing => exact h.outstanding
    | started run identity now => exact h.outstanding
    | finished run identity outcome now => exact List.Subset.trans List.erase_subset h.outstanding
    | cancelled run => exact List.Subset.trans List.erase_subset h.outstanding
    | posted message now => exact h.outstanding
  · rw [sys.launched_accept]
    cases event with
    | finished run identity outcome now =>
      obtain ⟨hm, -⟩ := Option.ite_none_right_eq_some.mp hs
      rcases List.mem_append.mp hentry with hentry | hentry
      · exact h.delivered entry hentry
      · cases outcome with
        | ok result =>
          obtain rfl := List.mem_singleton.mp hentry
          exact h.outstanding hm
        | error e => cases hentry
    | _ => exact h.delivered entry hentry

theorem CreditsKept.arrive (h : CreditsKept sys) (event : Event) (now : Nat)
    (missing : List Checksum) :
    Credited sys.launched (sys.accept event).delivered (sys.ctx.arrive now missing) where
  agreed run hrun := by
    rw [show Effect.launches (sys.ctx.arrive now missing).effects = [] from rfl, List.append_nil]
      at hrun
    exact h.agreed run hrun
  earned path r hr key hk c hc :=
    (h.earned path r hr key hk c hc).mono (sys.delivered_subset_accept event)
  posted _ hm := absurd hm List.not_mem_nil

/-- The effects of a turn are carried out. -/
theorem CreditsKept.carry (h : CreditsKept sys) {ctx : Ctx}
    (hctx : Credited sys.launched sys.delivered ctx) : CreditsKept (sys.carry ctx) where
  agreed run hrun := hctx.agreed run hrun
  earned := hctx.earned
  posted message hm c hc := by
    rcases List.mem_append.mp hm with hm | hm
    · exact h.posted message hm c hc
    · exact hctx.posted message hm c hc
  outstanding := by
    refine List.append_subset.mpr ⟨?_, List.subset_append_right _ _⟩
    exact List.Subset.trans h.outstanding (List.subset_append_left _ _)
  delivered entry hentry := List.mem_append_left _ (h.delivered entry hentry)

/-- What is under way is awaited by its run. -/
theorem LedgerKept.awaits (h : LedgerKept start sys) {f : RunRecord → RunRecord} {now : Nat}
    {path : NodePath} {generation : Nat}
    (hg : generation ∈ sys.outstanding.map LaunchedRun.generation ++
      sys.posted.map Finished.generation)
    (honce : generation ∉ (sys.accept event).outstanding.map LaunchedRun.generation ++
      (sys.accept event).posted.map Finished.generation) :
    (sys.accept event).handed.Delivers (sys.ctx.arrive now []) path generation f :=
  h.delivers hg fun _ _ hp => absurd hp honce

/-- A run finishes once. -/
theorem LedgerKept.not_pending_finished (h : LedgerKept start sys) {run : LaunchedRun}
    (hm : run ∈ sys.outstanding) :
    run.generation ∉ (sys.outstanding.erase run).map LaunchedRun.generation ++
      sys.posted.map Finished.generation := by
  have hnodup := List.nodup_append.mp h.tracked.pendingNodup
  rw [List.mem_append]
  rintro (hp | hp)
  · exact not_mem_map_erase hnodup.1 hm hp
  · exact hnodup.2.2 _ (List.mem_map_of_mem hm) _ hp rfl

/-- A message arrives once. -/
theorem LedgerKept.not_pending_posted (h : LedgerKept start sys) {message : Finished}
    (hm : message ∈ sys.posted) :
    message.generation ∉ sys.outstanding.map LaunchedRun.generation ++
      (sys.posted.erase message).map Finished.generation := by
  have hnodup := List.nodup_append.mp h.tracked.pendingNodup
  rw [List.mem_append]
  rintro (hp | hp)
  · exact hnodup.2.2 _ hp _ (List.mem_map_of_mem hm) rfl
  · exact not_mem_map_erase hnodup.2.1 hm hp

/-- Every event that spares the launched runs keeps the credits. -/
theorem CreditsKept.step (hk : LedgerKept start sys) (h : CreditsKept sys)
    (hc : event.Spares env sys) (hs : sys.step env event = some next) : CreditsKept next := by
  have haccept := h.accept hs
  have hup := (@credits_upheld env start (sys.accept event).handed sys.launched
    (sys.accept event).delivered (by cases event <;> rfl)).given
  have hkeeps : ∀ now missing, event.arrive sys.ctx = sys.ctx.arrive now missing →
      event.Admitted env ((sys.accept event).handed.Credits (sys.accept event).delivered)
        (Ctx.AssignSparesRuns env) (fun _ => True) (sys.ctx.arrive now missing) →
      CreditsKept next := by
    intro now missing he hadmitted
    rw [← he] at hadmitted
    have hfull := And.intro (hk.arrive now missing event) (h.arrive event now missing)
    rw [← he] at hfull
    have hparts := hc.parts
    rw [Event.derivations_eq hs] at hparts
    rcases hup.step (fun _ => hfull) hs hadmitted with rfl | ⟨ctx, hctx, rfl⟩
    · exact haccept
    · exact haccept.carry (by rw [sys.launched_accept]; exact (hctx hparts).2)
  cases event with
  | turn t now missing =>
    refine hkeeps now missing rfl ?_
    cases t with
    | assign path value =>
      cases value with
      | subcontext sourcePrefix => exact hc.runs
      | _ => trivial
    | setGraph doc attachments => exact fun _ _ => trivial
    | _ => trivial
  | started run identity now =>
    obtain ⟨hm, -⟩ := Option.ite_none_right_eq_some.mp hs
    have hpending : run.generation ∈ sys.outstanding.map LaunchedRun.generation ++
        sys.posted.map Finished.generation := List.mem_append_left _ (List.mem_map_of_mem hm)
    refine hkeeps now [] rfl ⟨hk.delivers hpending fun r ha _ => ha, fun r _ _ _ _ c hresult => ?_⟩
    exact Or.inl hresult
  | finished run identity outcome now =>
    obtain ⟨hm, -⟩ := Option.ite_none_right_eq_some.mp hs
    have hpending : run.generation ∈ sys.outstanding.map LaunchedRun.generation ++
        sys.posted.map Finished.generation := List.mem_append_left _ (List.mem_map_of_mem hm)
    refine hkeeps now [] rfl ⟨hk.awaits hpending (hk.not_pending_finished hm),
      fun r hr hg key hkey c hresult => Or.inr ?_⟩
    have hrun := h.outstanding hm
    obtain rfl := h.agreed run hrun r hr hg key hkey
    cases outcome with
    | ok result =>
      obtain rfl := Option.some.inj hresult
      exact ⟨run, List.mem_append_right _ (List.mem_singleton_self _), rfl, rfl, rfl⟩
    | error e => cases hresult
  | cancelled run =>
    obtain ⟨-, hs⟩ := Option.ite_none_right_eq_some.mp hs
    obtain rfl := Option.some.inj hs
    exact haccept
  | posted message now =>
    obtain ⟨hm, -⟩ := Option.ite_none_right_eq_some.mp hs
    have hpending : message.generation ∈ sys.outstanding.map LaunchedRun.generation ++
        sys.posted.map Finished.generation := List.mem_append_right _ (List.mem_map_of_mem hm)
    refine hkeeps now [] rfl ⟨hk.awaits hpending (hk.not_pending_posted hm),
      fun r hr hg key hkey c hresult => Or.inr ?_⟩
    obtain ⟨run, hrun, hpath, hgeneration⟩ := h.posted message hm c hresult
    have hkey' := h.agreed run (h.delivered _ hrun) r (hpath ▸ hr) (hg.trans hgeneration.symm) key
      hkey
    exact ⟨run, hrun, hpath, hgeneration, hkey'.symm⟩

end Steps

/-! ## Runs -/

theorem creditsKept_start : CreditsKept {} where
  agreed _ hrun := absurd hrun List.not_mem_nil
  earned _ _ hr := absurd hr List.not_mem_nil
  posted _ hm := absurd hm List.not_mem_nil
  outstanding := List.Subset.refl _
  delivered _ hentry := absurd hentry List.not_mem_nil

/-- A copy onto free places spares the launched runs: these belong to transformers that are there. -/
theorem KeepsWiring.sparesRuns {env : Substrate} {start : ContextRuntime} {sys : System}
    {event : Event} (hk : LedgerKept start sys) (h : KeepsWiring sys event) :
    event.SparesRuns env sys := by
  unfold Event.SparesRuns
  split
  · rename_i path sourcePrefix now missing
    intro hnew entry hentry hlaunched
    have hapart : sys.ctx.graph.CopiesApart sourcePrefix path := Or.resolve_left h hnew
    have hlookup : sys.ctx.runtime.currentRuns.lookup entry.1 = some entry.2 :=
      AList.mem_lookup_iff.mpr hentry
    have hkind := hk.tracked.kind entry.1 entry.2 hlookup hlaunched
    set ctx := sys.ctx.arrive now missing
    have hmem : entry.1 ∈ ctx.graph.nodes := by
      obtain ⟨node, hnode, -⟩ := Option.map_eq_some_iff.mp hkind
      exact mem_nodes_of_node hnode
    have hrewires : Rewires ctx (ctx.modifyGraph fun g => g.addNamespace path) ctx.outline
        ctx.graph.edges := ⟨⟨rfl, rfl, rfl⟩, keepsReasons_of_nodes rfl⟩
    show ((ctx.copiedNodes env sourcePrefix path).node? entry.1).map Node.isCell = some false
    unfold Ctx.copiedNodes
    split
    · rename_i descendants hd
      have hcopying := (copyNodes_spec env sourcePrefix path hrewires hd).1
      have hother := hcopying.other entry.1 fun p hp hs he => by
        refine hapart.free p (AList.mem_keys.mp hp) hs ?_
        rw [← he] at hmem
        exact hmem
      have hcell := congrArg (Option.map Outline.isCell) hother
      unfold Ctx.outline at hcell
      rw [Option.map_map, Option.map_map] at hcell
      exact hcell.trans hkind
    · exact hkind
  · trivial

/-- The events of a Context: they keep the wiring, and derive no graph in which an edge ends at a
transformer itself. -/
structure KeepsLedger (env : Substrate) (sys : System) (event : Event) : Prop where
  wiring : KeepsWiring sys event
  parts : ∀ d ∈ event.derivations env sys, d.view.graph.EndsAtParts

instance (env : Substrate) (sys : System) (event : Event) : Decidable (KeepsLedger env sys event) :=
  decidable_of_iff (KeepsWiring sys event ∧ ∀ d ∈ event.derivations env sys, d.view.graph.EndsAtParts)
    ⟨fun h => ⟨h.1, h.2⟩, fun h => ⟨h.wiring, h.parts⟩⟩

theorem KeepsLedger.spares {env : Substrate} {start : ContextRuntime} {sys : System} {event : Event}
    (hk : LedgerKept start sys) (h : KeepsLedger env sys event) : event.Spares env sys :=
  ⟨h.wiring.sparesRuns hk, h.parts⟩

theorem reachable_credits {env : Substrate} {sys : System} (h : Reachable env (KeepsLedger env) sys) :
    LedgerKept {} sys ∧ CreditsKept sys :=
  h.invariant (I := fun sys => LedgerKept {} sys ∧ CreditsKept sys) ⟨ledgerKept_start, creditsKept_start⟩
    fun _ _ _ hi hc hs => ⟨hi.1.step (hc.spares hi.1) hs, hi.2.step hi.1 (hc.spares hi.1) hs⟩

/-! ## What a complete transformer shows -/

/-- The inputs of a transformer, as its derivation finds them now, make a demand, and what it shows is
the result that its current run has delivered for this demand. -/
def ShowsOwnResult (env : Substrate) (sys : System) (path : NodePath) (fields : TransformerFields)
    (node : Node) : Prop :=
  ∃ code pins record run c,
    (transformerReading env sys.ctx.view path fields).value.verdict = .ready code pins ∧
    sys.ctx.runtime.currentRuns.lookup path = some record ∧
    (run, c) ∈ sys.delivered ∧ run.path = path ∧ run.generation = record.generation ∧
    run.key = Ctx.demandKey fields.config code pins ∧
    node.currentChecksum = some (env.canonicalize c node.celltype)

theorem Outcome.of_verdict_complete {verdict : InputVerdict} (h : verdict.outcome.state = .complete) :
    False := by
  unfold InputVerdict.outcome at h
  cases verdict with
  | failed e => cases h
  | pending reasons =>
    dsimp only at h
    unfold Reason.nodeState at h
    split at h <;> cases h
  | ready code pins => cases h

/-- The record of a run that shows a complete outcome has a result. -/
theorem RunRecord.outcome_complete {record : RunRecord} (h : record.outcome.state = .complete) :
    ∃ c, record.resultChecksum = some c ∧ record.outcome = .complete (some c) := by
  unfold RunRecord.outcome at h ⊢
  cases he : record.error with
  | some e =>
    rw [he] at h
    cases h
  | none =>
    rw [he] at h
    cases hc : record.resultChecksum with
    | none =>
      rw [hc] at h
      cases h
    | some c => exact ⟨c, rfl, rfl⟩

theorem Node.celltype_withPins (reading : TransformerReading) (node : Node) :
    (node.withPins reading).celltype = node.celltype := by
  obtain ⟨ident, body⟩ := node
  cases body <;> rfl

/-- In every reachable Context that is settled, a complete transformer shows a result which was
delivered by a run of its own, for the demand that its inputs make now, when every event of the run
keeps the wiring and derives no graph in which an edge ends at a transformer itself. -/
theorem reachable_showsOwnResult {env : Substrate} {sys : System}
    (h : Reachable env (KeepsLedger env) sys) (hsettled : sys.ctx.settled = true) {path : NodePath}
    {node : Node} {fields : TransformerFields} (hnode : sys.ctx.node? path = some node)
    (hbody : node.body = .transformer fields) (hcomplete : node.state = .complete) :
    ShowsOwnResult env sys path fields node := by
  obtain ⟨hledger, hcredits⟩ := reachable_credits h
  have hwiring := h.mono fun _ _ hc => hc.wiring
  cases (reachable_settling hwiring).derived hsettled path node hnode with
  | cell body written => cases hbody.symm.trans body
  | @transformer fields' outcome body answers written =>
    obtain rfl := NodeBody.transformer.inj (hbody.symm.trans body)
    have hstate : outcome.state = .complete := (congrArg Node.state written).trans hcomplete
    have hchecksum : outcome.checksum.map (fun c => env.canonicalize c node.celltype) =
        node.currentChecksum := by
      have hshown : (outcome.checksum.map fun c => env.canonicalize c
          (node.withPins (transformerReading env sys.ctx.view path fields).value).celltype) =
            node.currentChecksum :=
        congrArg Node.currentChecksum written
      rwa [Node.celltype_withPins] at hshown
    unfold Ctx.Answers at answers
    cases hverdict : (transformerReading env sys.ctx.view path fields).value.verdict with
    | failed e =>
      rw [hverdict] at answers
      rw [answers] at hstate
      exact (Outcome.of_verdict_complete hstate).elim
    | pending reasons =>
      rw [hverdict] at answers
      rw [answers] at hstate
      exact (Outcome.of_verdict_complete hstate).elim
    | ready code pins =>
      rw [hverdict] at answers
      obtain ⟨record, hcurrent, hkey, rfl⟩ := answers
      obtain ⟨c, hresult, houtcome⟩ := RunRecord.outcome_complete hstate
      have hrecord : record ∈ sys.ctx.runtime.recordsAt path :=
        ContextRuntime.mem_recordsAt.mpr (Or.inl hcurrent)
      obtain ⟨run, hrun, hpath, hgeneration, hdemand⟩ :=
        hcredits.earned path record hrecord _ hkey c hresult
      rw [houtcome] at hchecksum
      exact ⟨code, pins, record, run, c, hverdict, hcurrent, hrun, hpath, hgeneration, hdemand,
        hchecksum.symm⟩

/-- A transformer is changed while it runs and changed back after the run has finished. The run is
current again, and its result arrives once more. -/
def changedBack : List Event :=
  [.turn (.assign [.key "a"] (.config { codeChecksum := some ⟨10⟩ })) 0 [],
    .turn (.assign [.key "a"] (.config { codeChecksum := some ⟨11⟩ })) 0 [],
    .finished ⟨[.key "a"], 1, ⟨⟨10⟩, [], ""⟩, 0⟩ ⟨77⟩ (.ok ⟨99⟩) 0,
    .turn (.assign [.key "a"] (.config { codeChecksum := some ⟨10⟩ })) 0 [],
    .posted ⟨[.key "a"], 1, some ⟨77⟩, some ⟨99⟩, none⟩ 0]

theorem changedBack_runs : (System.run .fixed changedBack {}).isSome = true := by decide +kernel

/-- The transformer in the end. -/
def changedBackNode : Node :=
  { ident := 0, body := .transformer { config := { codeChecksum := some ⟨10⟩ } }, state := .complete
    currentChecksum := some ⟨99⟩ }

theorem reachable_showsOwnResult_changedBack :
    ShowsOwnResult .fixed ((System.run .fixed changedBack {}).get changedBack_runs) [.key "a"]
      { config := { codeChecksum := some ⟨10⟩ } } changedBackNode :=
  reachable_showsOwnResult (Reachable.of_run .start (by decide +kernel) changedBack_runs)
    (by decide +kernel) (by rfl) rfl rfl

end SeamlessWorkflow
