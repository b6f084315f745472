import SeamlessWorkflow.Context.Messages
import SeamlessWorkflow.Serialization

/-!
# Runs of a Context

The controller takes one message after the other; each of them is a turn. Between the turns stand
the runs that have been launched and have not finished, and the messages that a turn has posted to
its own controller. They arrive at any time and in any order.
-/

namespace SeamlessWorkflow

/-- A message of a caller, of an attachment or of a timer, and the arrival of a fact. -/
inductive Turn
  | assign (path : NodePath) (value : AssignValue)
  | delete (path : NodePath)
  | cellOperation (path : NodePath) (localPath : Path) (value : WriteValue) (detach : Bool)
      (inputCelltype : Option Celltype)
  | updateBase (path : NodePath) (localPath : Path) (detach : Bool)
  | commitUpdate (path : NodePath) (localPath : Path) (checksum : Checksum)
      (base : Option Checksum) (revision : Nat) (detach : Bool)
  | cellDeletePath (path : NodePath) (localPath : Path)
  | setTransformerCode (path : NodePath) (code : CodeValue)
  | setTransformerPin (path : NodePath) (pin : String) (value : WriteValue)
      (inputCelltype : Option Celltype) (detach : Bool)
  | deleteTransformerPin (path : NodePath) (pin : String)
  | recordPinReadError (path : NodePath) (pin : String) (readError : PinReadError)
  | publishConfig (path : NodePath) (revision : Nat) (config : NodeConfig)
  | setGraph (doc : Document) (attachments : List (NodePath × Attachment × Observation))
  | mountAttach (path : NodePath) (attachment : Attachment) (seen : Observation)
  | mountDetach (path : NodePath) (driver : String)
  | mountObserved (path : NodePath) (driver : String) (seen : Observation)
  | clearException (path : NodePath)
  | prune (path : Option NodePath)
  | expireRun (path : NodePath) (generation : Nat)
  | acceptFact (key : FactKey) (value : FactValue)
  | close

/-- The operation of a turn. -/
def operation (env : Substrate) : Turn → M Unit
  | .assign path value => assign env path value
  | .delete path => delete env path
  | .cellOperation path localPath value detach inputCelltype =>
    cellOperation env path localPath value detach inputCelltype
  | .updateBase path localPath detach => discard (updateBase path localPath detach)
  | .commitUpdate path localPath checksum base revision detach =>
    discard (commitUpdate env path localPath checksum base revision detach)
  | .cellDeletePath path localPath => cellDeletePath env path localPath
  | .setTransformerCode path code => setTransformerCode env path code
  | .setTransformerPin path pin value inputCelltype detach =>
    setTransformerPin env path pin value inputCelltype detach
  | .deleteTransformerPin path pin => deleteTransformerPin env path pin
  | .recordPinReadError path pin readError => recordPinReadError env path pin readError
  | .publishConfig path revision config => discard (publishConfig env path revision config)
  | .setGraph doc attachments =>
    match prepareGraph env doc with
    | .ok graph => setGraph env graph attachments
    | .error e => throw e
  | .mountAttach path attachment seen => mountAttach env path attachment seen
  | .mountDetach path driver => mountDetach env path driver
  | .mountObserved path driver seen => mountObserved env path driver seen
  | .clearException path => clearException env path
  | .prune path => prune path
  | .expireRun path generation => expireRun path generation
  | .acceptFact key value => acceptFact env key value
  | .close => close env

/-- A run that has been handed to the side loop. -/
structure LaunchedRun where
  path : NodePath
  generation : Nat
  key : DemandKey
  /-- The node it was launched for. -/
  ident : Nat
  deriving DecidableEq, Repr

/-- A message that a run has finished. -/
structure Finished where
  path : NodePath
  generation : Nat
  identity : Option Checksum
  result : Option Checksum
  error : Option Error
  deriving DecidableEq, Repr

structure System where
  ctx : Ctx := {}
  /-- The runs launched so far. -/
  launched : List LaunchedRun := []
  /-- The launched runs that have not finished. -/
  outstanding : List LaunchedRun := []
  /-- The messages a turn has posted to its own controller. -/
  posted : List Finished := []
  /-- The results that runs have delivered. -/
  delivered : List (LaunchedRun × Checksum) := []

/-- What may happen next. -/
inductive Event
  | turn (t : Turn) (now : Nat) (missing : List Checksum)
  /-- A launched run has constructed its transformation. -/
  | started (run : LaunchedRun) (identity : Checksum) (now : Nat)
  /-- A launched run finishes, with a result or with an error. -/
  | finished (run : LaunchedRun) (identity : Checksum) (outcome : Except Error Checksum) (now : Nat)
  /-- A launched run ends without a message, because it was cancelled. -/
  | cancelled (run : LaunchedRun)
  /-- A posted message arrives. -/
  | posted (message : Finished) (now : Nat)

/-- `_after_turn`, as far as it changes the Context. -/
def afterTurn (env : Substrate) : M Unit := do
  let ctx ← get
  onlyIf (!ctx.closing) (mountAfterTurn env)

/-- The Context at the start of a turn. -/
def Ctx.arrive (now : Nat) (missing : List Checksum) (ctx : Ctx) : Ctx :=
  { ctx with now := now, missing := missing, effects := [], derivations := [] }

/-- Run one message as a turn of the controller: its reply, and the Context after it. A poisoned
controller refuses the message. -/
def Ctx.runTurn {α : Type} (env : Substrate) (program : M α) (now : Nat) (missing : List Checksum)
    (ctx : Ctx) : Option α × Ctx :=
  if ctx.poisoned then (none, ctx)
  else match program (ctx.arrive now missing) with
    | .ok a ctx =>
      match afterTurn env ctx with
      | .ok _ ctx => (some a, ctx)
      | .error _ ctx => (none, ctx)
    | .error _ ctx => (none, Program.finalState (afterTurn env ctx))

/-- The runs that the effects of a turn hand to the side loop. -/
def Effect.launches (effects : List Effect) : List LaunchedRun :=
  effects.filterMap fun effect =>
    match effect with
    | .launchRun path generation key ident => some ⟨path, generation, key, ident⟩
    | _ => none

/-- The messages that the effects of a turn post. -/
def Effect.posts (effects : List Effect) : List Finished :=
  effects.filterMap fun effect =>
    match effect with
    | .repost path generation identity result error =>
      some ⟨path, generation, identity, result, error⟩
    | _ => none

/-- A turn of the whole system: its effects are carried out after it. -/
def System.turn {α : Type} (env : Substrate) (program : M α) (now : Nat) (missing : List Checksum)
    (sys : System) : System :=
  let ctx := (sys.ctx.runTurn env program now missing).2
  let effects := if sys.ctx.poisoned then [] else ctx.effects
  { sys with
    ctx := ctx
    launched := sys.launched ++ Effect.launches effects
    outstanding := sys.outstanding ++ Effect.launches effects
    posted := sys.posted ++ Effect.posts effects }

/-- The reply of a turn: none when it raises or is refused. -/
def System.reply {α : Type} (env : Substrate) (program : M α) (now : Nat)
    (missing : List Checksum) (sys : System) : Option α :=
  (sys.ctx.runTurn env program now missing).1

/-- The message of a finished run. -/
def LaunchedRun.message (run : LaunchedRun) (identity : Checksum) :
    Except Error Checksum → Finished
  | .ok result => ⟨run.path, run.generation, some identity, some result, none⟩
  | .error e => ⟨run.path, run.generation, none, none, some e⟩

/-- The result that a finished run delivers. -/
def LaunchedRun.results (run : LaunchedRun) :
    Except Error Checksum → List (LaunchedRun × Checksum)
  | .ok result => [(run, result)]
  | .error _ => []

/-- Handle the message of a finished run. -/
def System.finish (env : Substrate) (message : Finished) (now : Nat) (sys : System) : System :=
  sys.turn env (transformationFinished env message.path message.generation message.identity
    message.result message.error) now []

/-- One event. -/
def System.step (env : Substrate) (sys : System) : Event → Option System
  | .turn t now missing => some (sys.turn env (operation env t) now missing)
  | .started run identity now =>
    if run ∈ sys.outstanding then
      some (sys.turn env (transformationStarted env run.path run.generation identity) now [])
    else none
  | .finished run identity outcome now =>
    if run ∈ sys.outstanding then
      some (System.finish env (run.message identity outcome) now
        { sys with
          outstanding := sys.outstanding.erase run
          delivered := sys.delivered ++ run.results outcome })
    else none
  | .cancelled run =>
    if run ∈ sys.outstanding then
      some { sys with outstanding := sys.outstanding.erase run }
    else none
  | .posted message now =>
    if message ∈ sys.posted then
      some (System.finish env message now { sys with posted := sys.posted.erase message })
    else none

/-- The states that a new Context reaches by events that all meet a condition on the state before
them. -/
inductive Reachable (env : Substrate) (condition : System → Event → Prop) : System → Prop
  | start : Reachable env condition {}
  | step {sys next : System} {event : Event} :
      Reachable env condition sys → condition sys event → sys.step env event = some next →
      Reachable env condition next

/-- What holds at the start and is kept by every event that meets the condition holds in every
reachable state. -/
theorem Reachable.invariant {env : Substrate} {condition : System → Event → Prop}
    {I : System → Prop} (hstart : I {})
    (hstep : ∀ sys next event, I sys → condition sys event → sys.step env event = some next → I next)
    {sys : System} (h : Reachable env condition sys) : I sys := by
  induction h with
  | start => exact hstart
  | step _ hc hs ih => exact hstep _ _ _ ih hc hs

/-- A stronger condition reaches fewer states. -/
theorem Reachable.mono {env : Substrate} {c d : System → Event → Prop}
    (h : ∀ sys event, c sys event → d sys event) {sys : System} (hr : Reachable env c sys) :
    Reachable env d sys := by
  induction hr with
  | start => exact .start
  | step _ hc hs ih => exact .step ih (h _ _ hc) hs

/-- One event that meets a condition leads from one state to the other. -/
def System.Follows (env : Substrate) (condition : System → Event → Prop) (sys next : System) : Prop :=
  ∃ event, condition sys event ∧ sys.step env event = some next

/-! ## Runs on concrete inputs -/

/-- Take the events in turn. -/
def System.run (env : Substrate) : List Event → System → Option System
  | [], sys => some sys
  | event :: events, sys => (sys.step env event).bind (run env events)

/-- Does every event meet the condition in the state before it? -/
def System.Meets (env : Substrate) (condition : System → Event → Prop) :
    List Event → System → Prop
  | [], _ => True
  | event :: events, sys =>
    condition sys event ∧ ∀ next ∈ sys.step env event, Meets env condition events next

instance System.decidableMeets (env : Substrate) (condition : System → Event → Prop)
    [∀ sys event, Decidable (condition sys event)] :
    ∀ (events : List Event) (sys : System), Decidable (sys.Meets env condition events)
  | [], _ => instDecidableTrue
  | event :: events, sys =>
    have : ∀ next, Decidable (System.Meets env condition events next) :=
      decidableMeets env condition events
    inferInstanceAs (Decidable (condition sys event ∧ ∀ next ∈ sys.step env event, _))

theorem Reachable.of_run {env : Substrate} {condition : System → Event → Prop}
    {events : List Event} : ∀ {sys : System}, Reachable env condition sys →
      sys.Meets env condition events → (hr : (sys.run env events).isSome = true) →
        Reachable env condition ((sys.run env events).get hr) := by
  induction events with
  | nil => exact fun h _ _ => h
  | cons event events ih =>
    intro sys h hm hr
    unfold System.run at hr
    cases hs : sys.step env event with
    | none => rw [hs] at hr; exact absurd hr (by simp)
    | some next =>
      have hr' : (next.run env events).isSome = true := by rwa [hs] at hr
      have := ih (.step h hm.1 hs) (hm.2 next hs) hr'
      simpa only [System.run, hs, Option.bind_some] using this

/-- A substrate for concrete runs: every check passes, checksums are canonical, and every
evaluation inside a turn gives one of a few fixed checksums. -/
def Substrate.fixed : Substrate where
  preserving _ _ := false
  shapeError _ _ _ := none
  expressionError _ _ _ _ _ := none
  canonicalize c _ := c
  isNull _ := false
  celljoin _ _ _ := .ok ⟨1001⟩
  computeExpression _ := .ok ⟨1002⟩
  expressionHolds _ := []
  pinNullError _ _ _ := none
  stage1Error _ := none
  validatePin _ _ _ _ := .valid
  fingerprint cfg := cfg.language
  attachmentError _ _ := none
  nullChecksum := ⟨0⟩
  bufferChecksum _ _ := ⟨1003⟩
  signature _ := none
  declarationsError _ _ := none
  symbolBase _ := "aaaaa"

end SeamlessWorkflow
