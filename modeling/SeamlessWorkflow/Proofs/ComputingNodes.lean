import SeamlessWorkflow.Proofs.AwaitedRuns

/-!
# A transformer that computes has a run on its way

In every reachable Context that is settled and has not ended, a transformer that shows `computing` has
a current run for the demand that its inputs make now, and this run has not finished or a message with
what it has delivered is under way. Nothing computes for ever because of a run that was superseded,
evicted or made current again.
-/

namespace SeamlessWorkflow

open Program Relation

/-- The side loop drops a run without a message only when the record of the run has left the ledger. -/
def Event.CancelsDropped (sys : System) : Event → Prop
  | .cancelled run => ∀ r ∈ sys.ctx.runtime.recordsAt run.path, r.generation ≠ run.generation
  | _ => True

instance (sys : System) (event : Event) : Decidable (event.CancelsDropped sys) := by
  unfold Event.CancelsDropped
  split <;> infer_instance

section Steps

variable {env : Substrate} {start : ContextRuntime} {sys next : System} {event : Event}

theorem Pursued.arrive {outstanding : List LaunchedRun} {posted : List Finished} {ctx : Ctx}
    (h : Pursued outstanding posted ctx) (now : Nat) (missing : List Checksum) :
    PursuedInTurn outstanding posted (ctx.arrive now missing) := by
  unfold PursuedInTurn
  rw [show Effect.launches (ctx.arrive now missing).effects = [] from rfl,
    show Effect.posts (ctx.arrive now missing).effects = [] from rfl, List.append_nil, List.append_nil]
  exact h

/-- A message that is taken ends the wait of its record, or finds no record that waits. -/
theorem PursuedInTurn.finish {outstanding outstanding' : List LaunchedRun} {posted posted' : List Finished}
    {ctx : Ctx} {message : Finished}
    (h : PursuedInTurn outstanding posted ctx)
    (hawaited : ∀ r ∈ ctx.runtime.recordsAt message.path, r.generation = message.generation →
      r.Awaited)
    (hdistinct : ((ctx.runtime.recordsAt message.path).map RunRecord.generation).Nodup)
    (hqueued : ∀ r ∈ ctx.runtime.queue message.path, r.phase = .superseded)
    (hruns : ∀ run ∈ outstanding, run ∈ outstanding' ∨
      (run.path = message.path ∧ run.generation = message.generation ∧ message.Tells))
    (hposts : ∀ other ∈ posted, other.Tells → other ∈ posted' ∨
      (other.path = message.path ∧ other.generation = message.generation ∧ message.Tells)) :
    Triple (· = ctx) (transformationFinished env message.path message.generation message.identity
      message.result message.error) (fun _ => PursuedInTurn outstanding' posted')
        (PursuedInTurn outstanding' posted') := by
  have hup := pursued_upheld env outstanding' posted'
  refine Triple.get_bind fun ctx' => Triple.ite (fun _ => ?_) fun hcondition => ?_
  · refine Triple.bind (R := fun _ => PursuedInTurn outstanding' posted')
      (Triple.modify fun ctx' hc => ?_) fun _ => ?_
    · obtain rfl : ctx' = ctx := hc.2
      refine PursuedInTurn.less (h.pursues (pursues_updateRun (fun _ => rfl) ?_)) hruns hposts ?_
      · exact fun r hr hg _ => hawaited r hr hg
      · intro htold r' hr' hg
        obtain ⟨r, rfl⟩ := updated_of_generation hdistinct hqueued hr' hg
        exact not_awaited_deliver htold
    · exact Triple.bind (R := fun _ => PursuedInTurn outstanding' posted')
        (Triple.modify fun _ hc => hup.sync hc) fun _ => hup.deriveAll
  · refine Triple.pure fun ctx'' hc => ?_
    obtain ⟨rfl, rfl⟩ := hc
    intro hopen
    have hfind : ctx''.findRun message.path message.generation = none := by
      by_contra hsome
      exact hcondition ⟨by simpa using hopen, Option.isSome_iff_ne_none.mpr hsome⟩
    exact h.less hruns hposts (fun _ r hr hg => absurd hg (generation_of_findRun hfind hqueued r hr))
      hopen

/-- The message of a run is handled, with what is left once it has been taken. -/
theorem Pursued.finish (hk : LedgerKept start sys)
    (h : Pursued sys.outstanding sys.posted sys.ctx) {message : Finished} (now : Nat) {left : System}
    (hleft : left.ctx = sys.ctx)
    (hpending : message.generation ∈ sys.outstanding.map LaunchedRun.generation ++
      sys.posted.map Finished.generation)
    (hruns : ∀ run ∈ sys.outstanding, run ∈ left.outstanding ∨
      (run.path = message.path ∧ run.generation = message.generation ∧ message.Tells))
    (hposts : ∀ other ∈ sys.posted, other.Tells → other ∈ left.posted ∨
      (other.path = message.path ∧ other.generation = message.generation ∧ message.Tells)) :
    Pursued (System.finish env message now left).outstanding
      (System.finish env message now left).posted (System.finish env message now left).ctx := by
  by_cases hp : sys.ctx.poisoned = true
  · have hstays : (System.finish env message now left).ctx = sys.ctx := by
      unfold System.finish System.turn Ctx.runTurn
      rw [hleft, if_pos hp]
    rw [hstays]
    intro hopen
    exact absurd hp (by simp [(h hopen).1])
  · have hturn : ∃ ctx, PursuedInTurn left.outstanding left.posted ctx ∧
        System.finish env message now left = left.carry ctx := by
      refine (pursued_upheld env left.outstanding left.posted).turn_open (by simpa [hleft] using hp) ?_
      rw [hleft]
      exact (h.arrive now []).finish
        (fun r hr hg => (hk.tracked.entered _ r hr).awaited (hg ▸ hpending))
        (hk.tracked.distinct _) (hk.tracked.queued _) hruns hposts
    obtain ⟨ctx, hctx, hcarry⟩ := hturn
    rw [hcarry]
    exact hctx

/-- The events that keep the ledger pursue the runs that are awaited. -/
theorem Pursued.step (hk : LedgerKept start sys) (h : Pursued sys.outstanding sys.posted sys.ctx)
    (hc : event.CancelsDropped sys) (hs : sys.step env event = some next) :
    Pursued next.outstanding next.posted next.ctx := by
  have hup := pursued_upheld env sys.outstanding sys.posted
  have hcarry : ∀ ctx, PursuedInTurn sys.outstanding sys.posted ctx →
      Pursued (sys.carry ctx).outstanding (sys.carry ctx).posted (sys.carry ctx).ctx :=
    fun _ hctx => hctx
  cases event with
  | turn t now missing =>
    have hadmitted : (Event.turn t now missing).Admitted env
        (fun ctx path generation f => (∀ r : RunRecord, (f r).generation = r.generation) ∧
          ∀ r ∈ ctx.runtime.recordsAt path, r.generation = generation → (f r).Awaited → r.Awaited)
        (fun _ _ _ => True) (fun _ => True) (sys.ctx.arrive now missing) := by
      cases t with
      | assign path value =>
        trivial
      | setGraph doc attachments => exact fun _ _ => trivial
      | _ => trivial
    have harrive : PursuedInTurn sys.outstanding sys.posted
        ((Event.turn t now missing).arrive sys.ctx) := h.arrive now missing
    rcases hup.step harrive hs hadmitted with rfl | ⟨ctx, hctx, rfl⟩
    · exact h
    · exact hcarry ctx hctx
  | started run identity now =>
    have harrive : PursuedInTurn sys.outstanding sys.posted
        ((Event.started run identity now).arrive sys.ctx) := h.arrive now []
    rcases hup.step harrive hs ⟨fun _ => rfl, fun _ _ _ ha => ha⟩ with rfl | ⟨ctx, hctx, rfl⟩
    · exact h
    · exact hcarry ctx hctx
  | finished run identity outcome now =>
    obtain ⟨hm, hs⟩ := Option.ite_none_right_eq_some.mp hs
    obtain rfl := Option.some.inj hs
    have hmessage : (run.message identity outcome).path = run.path ∧
        (run.message identity outcome).generation = run.generation ∧
          (run.message identity outcome).Tells := by
      cases outcome with
      | ok result => exact ⟨rfl, rfl, Or.inl rfl⟩
      | error e => exact ⟨rfl, rfl, Or.inr rfl⟩
    refine h.finish hk now rfl ?_ (fun other hother => ?_)
      fun _ hother _ => Or.inl hother
    · rw [hmessage.2.1]
      exact List.mem_append_left _ (List.mem_map_of_mem hm)
    · by_cases he : other = run
      · rw [he]
        exact Or.inr ⟨hmessage.1.symm, hmessage.2.1.symm, hmessage.2.2⟩
      · exact Or.inl ((List.mem_erase_of_ne he).mpr hother)
  | cancelled run =>
    obtain ⟨-, hs⟩ := Option.ite_none_right_eq_some.mp hs
    obtain rfl := Option.some.inj hs
    intro hopen
    obtain ⟨hp, hcoming⟩ := h hopen
    refine ⟨hp, fun path r hr ha => ?_⟩
    rcases hcoming path r hr ha with ⟨other, hother, rfl, hg⟩ | hposted
    · refine Or.inl ⟨other, (List.mem_erase_of_ne ?_).mpr hother, rfl, hg⟩
      rintro rfl
      exact hc r hr hg.symm
    · exact Or.inr hposted
  | posted message now =>
    obtain ⟨hm, hs⟩ := Option.ite_none_right_eq_some.mp hs
    obtain rfl := Option.some.inj hs
    refine h.finish hk now rfl ?_ (fun _ hother => Or.inl hother) fun other hother htells => ?_
    · exact List.mem_append_right _ (List.mem_map_of_mem hm)
    · by_cases he : other = message
      · rw [he]
        exact Or.inr ⟨rfl, rfl, he ▸ htells⟩
      · exact Or.inl ((List.mem_erase_of_ne he).mpr hother)

end Steps

/-! ## Runs -/

/-- The events of a Context that keep the ledger, and end no run without a message unless it has been
dropped. -/
def KeepsRuns (env : Substrate) (sys : System) (event : Event) : Prop :=
  KeepsLedger env sys event ∧ event.CancelsDropped sys

instance (env : Substrate) (sys : System) (event : Event) : Decidable (KeepsRuns env sys event) :=
  inferInstanceAs (Decidable (_ ∧ _))

theorem pursued_start : Pursued [] [] {} := fun _ => ⟨rfl, fun _ _ hr => absurd hr List.not_mem_nil⟩

theorem reachable_pursued {env : Substrate} {sys : System} (h : Reachable env (KeepsRuns env) sys) :
    LedgerKept {} sys ∧ Pursued sys.outstanding sys.posted sys.ctx :=
  h.invariant (I := fun sys => LedgerKept {} sys ∧ Pursued sys.outstanding sys.posted sys.ctx)
    ⟨ledgerKept_start, pursued_start⟩ fun _ _ _ hi hc hs =>
      ⟨hi.1.step (hc.1.spares hi.1) hs, hi.2.step hi.1 hc.2 hs⟩

/-! ## What computes -/

/-- The inputs of a transformer, as its derivation finds them now, make a demand, the current run is for
this demand, and it has not finished or what it has delivered is under way. -/
def AwaitsOwnRun (env : Substrate) (sys : System) (path : NodePath) (fields : TransformerFields) :
    Prop :=
  ∃ code pins record,
    (transformerReading env sys.ctx.view path fields).value.verdict = .ready code pins ∧
    sys.ctx.runtime.currentRuns.lookup path = some record ∧
    record.demandKey = some (Ctx.demandKey fields.config code pins) ∧
    ((∃ run ∈ sys.outstanding, run.path = path ∧ run.generation = record.generation ∧
        run.key = Ctx.demandKey fields.config code pins) ∨
      ∃ message ∈ sys.posted, message.path = path ∧ message.generation = record.generation ∧
        message.Tells)

theorem Outcome.of_verdict_computing {verdict : InputVerdict}
    (h : verdict.outcome.state = .computing) : ∃ code pins, verdict = .ready code pins := by
  unfold InputVerdict.outcome at h
  cases verdict with
  | failed e => cases h
  | pending reasons =>
    dsimp only at h
    unfold Reason.nodeState at h
    split at h <;> cases h
  | ready code pins => exact ⟨code, pins, rfl⟩

/-- The record of a run that shows a computing outcome has delivered nothing. -/
theorem RunRecord.outcome_computing {record : RunRecord} (h : record.outcome.state = .computing) :
    record.resultChecksum = none ∧ record.error = none := by
  unfold RunRecord.outcome at h
  cases he : record.error with
  | some e =>
    rw [he] at h
    cases h
  | none =>
    rw [he] at h
    cases hc : record.resultChecksum with
    | none => exact ⟨rfl, rfl⟩
    | some c =>
      rw [hc] at h
      cases h

/-- In every reachable Context that is settled and has not ended, a transformer that computes has a run
of its own on its way, for the demand that its inputs make now, when every event of the run keeps the
wiring, derives no graph in which an edge ends at a transformer itself, and ends no run without a
message unless it has been dropped. -/
theorem reachable_awaitsOwnRun {env : Substrate} {sys : System} (h : Reachable env (KeepsRuns env) sys)
    (hsettled : sys.ctx.settled = true) (hopen : sys.ctx.closing = false) {path : NodePath} {node : Node}
    {fields : TransformerFields} (hnode : sys.ctx.node? path = some node)
    (hbody : node.body = .transformer fields) (hcomputing : node.state = .computing) :
    AwaitsOwnRun env sys path fields := by
  have hwired : Reachable env KeepsWiring sys := h.mono fun _ _ hc => hc.1.wiring
  obtain ⟨hledger, hpursued⟩ := reachable_pursued h
  have hcredits := (reachable_credits (h.mono fun _ _ hc => hc.1)).2
  cases (reachable_settling hwired).derived hsettled path node hnode with
  | cell body written => cases hbody.symm.trans body
  | @transformer fields' outcome body answers written =>
    obtain rfl := NodeBody.transformer.inj (hbody.symm.trans body)
    have hstate : outcome.state = .computing := (congrArg Node.state written).trans hcomputing
    cases hverdict : (transformerReading env sys.ctx.view path fields).value.verdict with
    | failed e =>
      rw [hverdict] at answers
      rw [show outcome = (InputVerdict.failed e).outcome from answers] at hstate
      obtain ⟨code, pins, he⟩ := Outcome.of_verdict_computing hstate
      cases he
    | pending reasons =>
      rw [hverdict] at answers
      rw [show outcome = (InputVerdict.pending reasons).outcome from answers] at hstate
      obtain ⟨code, pins, he⟩ := Outcome.of_verdict_computing hstate
      cases he
    | ready code pins =>
      rw [hverdict] at answers
      obtain ⟨record, hcurrent, hkey, rfl⟩ := answers
      obtain ⟨hresult, herror⟩ := RunRecord.outcome_computing hstate
      have hrecord : record ∈ sys.ctx.runtime.recordsAt path :=
        ContextRuntime.mem_recordsAt.mpr (Or.inl hcurrent)
      have hlaunched : record.launched = true := by
        by_contra hl
        have hnone := ((hledger.tracked.entered path record hrecord).unlaunched (by simpa using hl)).2
        cases hnone.symm.trans hkey
      refine ⟨code, pins, record, hverdict, hcurrent, hkey, ?_⟩
      rcases (hpursued hopen).2 path record hrecord ⟨hlaunched, hresult, herror⟩ with
        ⟨run, hrun, hpath, hg⟩ | hposted
      · refine Or.inl ⟨run, hrun, hpath, hg, ?_⟩
        exact (hcredits.agreed run (hcredits.outstanding hrun) record (hpath ▸ hrecord) hg.symm _
          hkey).symm
      · exact Or.inr hposted

/-- The run of a deleted transformer is cancelled. Another transformer is changed while it runs, and
changed back after the run has finished: what the run has delivered is on its way again. -/
def revivedOnce : List Event :=
  [.turn (.assign [.key "a"] (.config { codeChecksum := some ⟨10⟩ })) 0 [],
    .turn (.assign [.key "b"] (.config { codeChecksum := some ⟨20⟩ })) 0 [],
    .turn (.delete [.key "b"]) 0 [],
    .cancelled ⟨[.key "b"], 2, ⟨⟨20⟩, [], ""⟩, 1⟩,
    .turn (.assign [.key "a"] (.config { codeChecksum := some ⟨11⟩ })) 0 [],
    .finished ⟨[.key "a"], 1, ⟨⟨10⟩, [], ""⟩, 0⟩ ⟨77⟩ (.ok ⟨99⟩) 0,
    .turn (.assign [.key "a"] (.config { codeChecksum := some ⟨10⟩ })) 0 []]

theorem revivedOnce_runs : (System.run .fixed revivedOnce {}).isSome = true := by decide +kernel

/-- The transformer in the end. -/
def revivedOnceNode : Node :=
  { ident := 0, body := .transformer { config := { codeChecksum := some ⟨10⟩ } }, state := .computing }

theorem reachable_awaitsOwnRun_revivedOnce :
    AwaitsOwnRun .fixed ((System.run .fixed revivedOnce {}).get revivedOnce_runs) [.key "a"]
      { config := { codeChecksum := some ⟨10⟩ } } :=
  @reachable_awaitsOwnRun .fixed _ (Reachable.of_run .start (by decide +kernel) revivedOnce_runs)
    (by decide +kernel) (by decide +kernel) [.key "a"] revivedOnceNode _ (by rfl) rfl rfl

/-- The run of a transformer that is still there is cancelled. -/
def cancelledAlone : List Event :=
  [.turn (.assign [.key "a"] (.config { codeChecksum := some ⟨10⟩ })) 0 [],
    .cancelled ⟨[.key "a"], 1, ⟨⟨10⟩, [], ""⟩, 0⟩]

theorem cancelledAlone_runs : (System.run .fixed cancelledAlone {}).isSome = true := by decide +kernel

/-- Then it computes for ever: nothing is on its way. -/
theorem not_reachable_awaitsOwnRun :
    ¬ ∀ sys, Reachable .fixed KeepsWiring sys → AwaitsOwnRun .fixed sys [.key "a"]
      { config := { codeChecksum := some ⟨10⟩ } } := by
  intro h
  obtain ⟨_, _, _, -, -, -, hrun | hmessage⟩ :=
    h _ (Reachable.of_run .start (by decide +kernel) cancelledAlone_runs)
  · obtain ⟨run, hrun, -⟩ := hrun
    rw [show ((System.run .fixed cancelledAlone {}).get cancelledAlone_runs).outstanding = [] by
      decide +kernel] at hrun
    cases hrun
  · obtain ⟨message, hmessage, -⟩ := hmessage
    rw [show ((System.run .fixed cancelledAlone {}).get cancelledAlone_runs).posted = [] by
      decide +kernel] at hmessage
    cases hmessage

end SeamlessWorkflow
