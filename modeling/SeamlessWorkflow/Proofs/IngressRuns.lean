import SeamlessWorkflow.Library.Transition
import SeamlessWorkflow.Proofs.ConditionalWrites

/-!
# The calls of many callers

Any number of calls run at the same time, with any messages between their turns. A setter that returns
has applied its update to the configuration as it stood, and an edit that returns has been made to the
content that the cell showed, whatever other calls have written since they read.
-/

namespace SeamlessWorkflow

open Program

/-! ## What a call holds -/

/-- What an edit holds since its read: the celltype of the cell at its revision. -/
structure HoldsBase (path : NodePath) (localPath : Path) (base : UpdateBase) (seen : List Celltype)
    (ctx : Ctx) : Prop where
  snapshot : ∃ config : CellConfig, config.celltype = base.celltype ∧
    Snapshot path base.revision (.cell config) ctx
  seen : ctx.revision path = base.revision → ∀ celltype ∈ seen, celltype = base.celltype
  empty : base.checksum = none → localPath.head?.any Component.isKey = true

/-- Is the node of a call one whose configuration it has read? -/
def Call.Holds (call : Call) (p : NodePath) : Prop :=
  match call.phase, call.command with
  | .holdsConfig _ _, .setNodeConfig path _ | .holdsBase _ _, .edit path _ _ _
  | .holdsContent _ _, .edit path _ _ _ => p = path
  | _, _ => False

/-- What a call holds is out of date by its revision, or it is still there. -/
def Call.Current (ctx : Ctx) (call : Call) : Prop :=
  match call.phase, call.command with
  | .holdsConfig config revision, .setNodeConfig path _ => Snapshot path revision config ctx
  | .holdsBase base seen, .edit path localPath _ _ => HoldsBase path localPath base seen ctx
  | .holdsContent base checksum, .edit path localPath _ compute => ∃ seen,
      HoldsBase path localPath base seen ctx ∧
        compute base.celltype seen base.checksum = .ok checksum
  | _, _ => True

theorem HoldsBase.kept {held : NodePath → Prop} {path : NodePath} {localPath : Path}
    {base : UpdateBase} {seen : List Celltype} {ctx ctx' : Ctx}
    (h : HoldsBase path localPath base seen ctx) (hk : Kept (Watch.on held) ctx ctx')
    (hp : held path) : HoldsBase path localPath base seen ctx' := by
  obtain ⟨config, hcelltype, hs⟩ := h.snapshot
  refine ⟨⟨config, hcelltype, hs.kept hk hp⟩, fun he => h.seen ?_, h.empty⟩
  have hread : base.revision ≤ ctx.revision path := hs.holds.version
  have hstep := hk.revision path hp hs.there
  omega

theorem Call.Current.kept {held : NodePath → Prop} {ctx ctx' : Ctx} {call : Call}
    (h : call.Current ctx) (hk : Kept (Watch.on held) ctx ctx') (hheld : ∀ p, call.Holds p → held p) :
    call.Current ctx' := by
  obtain ⟨command, passes, phase⟩ := call
  cases phase with
  | holdsConfig config revision =>
    cases command with
    | setNodeConfig path update => exact Snapshot.kept h hk (hheld path rfl)
    | edit path localPath detach compute => trivial
  | holdsBase base seen =>
    cases command with
    | setNodeConfig path update => trivial
    | edit path localPath detach compute => exact HoldsBase.kept h hk (hheld path rfl)
  | holdsContent base checksum =>
    cases command with
    | setNodeConfig path update => trivial
    | edit path localPath detach compute =>
      obtain ⟨seen, hbase, hcompute⟩ := h
      exact ⟨seen, hbase.kept hk (hheld path rfl), hcompute⟩
  | ready => trivial
  | returned => trivial
  | raised => trivial

theorem Ingress.sys_look {g next : Ingress} {i : Nat} {call : Call} (hs : g.look i call = some next) :
    next.sys = g.sys := by
  unfold Ingress.look at hs
  split at hs
  · split at hs
    · obtain rfl := Option.some.inj hs
      rfl
    · obtain rfl := Option.some.inj hs
      rfl
  · cases hs

theorem Ingress.sys_compute {g next : Ingress} {i : Nat} {call : Call}
    (hs : g.compute i call = some next) : next.sys = g.sys := by
  unfold Ingress.compute at hs
  split at hs
  · split at hs
    · obtain rfl := Option.some.inj hs
      rfl
    · obtain rfl := Option.some.inj hs
      rfl
  · cases hs

/-- What all calls hold is current, unless the controller refuses every message. -/
def Ingress.Current (g : Ingress) : Prop :=
  g.sys.ctx.poisoned = true ∨ ∀ call ∈ g.calls, call.Current g.sys.ctx

/-- A call has read the configuration of this node. -/
def Ingress.Holds (g : Ingress) (p : NodePath) : Prop := ∃ call ∈ g.calls, call.Holds p

/-- Of the messages between the turns of the calls, none takes away a node whose configuration a call
has read, and none changes such a configuration without a new revision. -/
def Ingress.Spares (env : Substrate) (g : Ingress) : IngressEvent → Prop
  | .message (.turn .close _ _) => True
  | .message event => event.Respects env (Watch.on g.Holds) g.sys.ctx
  | _ => True

/-! ### Calls that hold nothing -/

/-- A call that holds nothing which it has read. -/
def Call.Free (call : Call) : Prop :=
  match call.phase with
  | .ready | .returned | .raised => True
  | _ => False

theorem Call.Free.current {call : Call} (h : call.Free) (ctx : Ctx) : call.Current ctx := by
  obtain ⟨command, passes, phase⟩ := call
  cases phase with
  | ready => trivial
  | returned => trivial
  | raised => trivial
  | _ => exact h.elim

theorem Call.free_raise (call : Call) : call.raise.Free := trivial

theorem Call.free_retry (call : Call) : call.retry.Free := by
  unfold Call.retry Call.Free
  dsimp only
  by_cases hlast : call.passes ≤ 1
  · rw [if_pos hlast]
    trivial
  · rw [if_neg hlast]
    trivial

theorem Call.free_answered (call : Call) (reply : Option Bool) : (call.answered reply).Free := by
  unfold Call.answered
  split
  · trivial
  · exact call.free_retry
  · trivial

/-! ## One event -/

section Step

variable {env : Substrate} {g next : Ingress}

/-- A turn of a call: what the other calls hold is still current. -/
theorem Ingress.Current.ask {α : Type} {program : M α} {now : Nat} {missing : List Checksum} {i : Nat}
    {proceed : Option α → Call} (h : g.Current)
    (hprogram : ∀ start, Keeps (Kept (Watch.on fun _ => True) start) program)
    (hcall : ∀ reply, (g.sys.ctx.runTurn env program now missing).1 = reply →
      (proceed reply).Current (g.sys.ctx.runTurn env program now missing).2) :
    (g.ask env program now missing i proceed).Current := by
  rcases h with h | h
  · refine Or.inl ?_
    show (g.sys.ctx.runTurn env program now missing).2.poisoned = true
    rw [Ctx.runTurn_poisoned h]
    exact h
  · refine Or.inr fun call hm => ?_
    have hkept : Kept (Watch.on fun _ => True) g.sys.ctx
        (g.sys.ctx.runTurn env program now missing).2 := by
      have hw := Watch.lawful_on env fun _ => True
      refine hw.runTurn g.sys.ctx (.refl_on _ _) ?_
      exact (hprogram g.sys.ctx).conseq (fun _ he => he ▸ hw.arrive (.refl_on _ _) now missing)
        (fun _ _ hk => hk) fun _ hk => hk
    rcases List.mem_or_eq_of_mem_set hm with hm | rfl
    · exact (h call hm).kept hkept fun _ _ => trivial
    · exact hcall _ rfl

/-- A call proceeds in the thread of its caller. -/
theorem Ingress.Current.proceed (h : g.Current) {i : Nat} {call : Call}
    (hcall : (∀ other ∈ g.calls, other.Current g.sys.ctx) → call.Current g.sys.ctx) :
    (g.proceed i call).Current :=
  h.imp id fun h other hm => (List.mem_or_eq_of_mem_set hm).elim (h other) fun he => he ▸ hcall h

theorem Ingress.Current.read (h : g.Current) {i now : Nat} {missing : List Checksum} {call : Call}
    (hs : g.read env i now missing call = some next) : next.Current := by
  obtain ⟨command, passes, phase⟩ := call
  have hw := Watch.lawful_on env fun _ => True
  cases phase with
  | ready =>
    cases command with
    | setNodeConfig path update =>
      obtain rfl := Option.some.inj hs
      refine h.ask (fun start => keeps_configSnapshot path) fun reply hreply => ?_
      cases reply with
      | none => exact (Call.free_raise _).current _
      | some read =>
        exact Ctx.runTurn_replies (configSnapshot_reads path) (fun _ => snapshot_afterTurn) hreply
    | edit path localPath detach compute =>
      obtain rfl := Option.some.inj hs
      refine h.ask (fun start => keeps_updateBase path localPath detach) fun reply hreply => ?_
      cases reply with
      | none => exact (Call.free_raise _).current _
      | some base =>
        have hread := Ctx.runTurn_replies (updateBase_reads path localPath detach)
          (fun _ => base_afterTurn) hreply
        unfold Call.rebase
        dsimp only
        split
        · rename_i hsome
          exact ⟨hread, nofun, fun hnone => by rw [hnone] at hsome; cases hsome⟩
        · split
          · exact (Call.free_retry _).current _
          · split
            · rename_i hempty
              exact ⟨hread, nofun, fun _ => hempty.1⟩
            · exact (Call.free_raise _).current _
  | _ => cases command <;> cases hs

theorem Ingress.Current.look (h : g.Current) {i : Nat} {call : Call} (hm : call ∈ g.calls)
    (hs : g.look i call = some next) : next.Current := by
  obtain ⟨command, passes, phase⟩ := call
  cases phase with
  | holdsBase base seen =>
    cases command with
    | setNodeConfig path update => cases hs
    | edit path localPath detach compute =>
      unfold Ingress.look at hs
      dsimp only at hs
      cases hnode : g.sys.ctx.node? path with
      | none =>
        rw [hnode] at hs
        obtain rfl := Option.some.inj hs
        exact h.proceed fun _ => (Call.free_raise _).current _
      | some node =>
        rw [hnode] at hs
        obtain rfl := Option.some.inj hs
        refine h.proceed fun hcurrent => ?_
        have hbase : HoldsBase path localPath base seen g.sys.ctx := hcurrent _ hm
        refine ⟨hbase.snapshot, fun hrevision celltype hc => ?_, hbase.empty⟩
        rcases List.mem_append.mp hc with hc | hc
        · exact hbase.seen hrevision celltype hc
        · obtain rfl := List.mem_singleton.mp hc
          obtain ⟨config, hcelltype, hsnapshot⟩ := hbase.snapshot
          have hconfig : g.sys.ctx.config? path = some (.cell config) :=
            hsnapshot.holds.content hrevision
          rw [← hcelltype]
          exact Ctx.celltype_of_config hnode hconfig
  | _ => cases command <;> cases hs

theorem Ingress.Current.compute (h : g.Current) {i : Nat} {call : Call} (hm : call ∈ g.calls)
    (hs : g.compute i call = some next) : next.Current := by
  obtain ⟨command, passes, phase⟩ := call
  cases phase with
  | holdsBase base seen =>
    cases command with
    | setNodeConfig path update => cases hs
    | edit path localPath detach compute =>
      unfold Ingress.compute at hs
      dsimp only at hs
      cases hcompute : compute base.celltype seen base.checksum with
      | error e =>
        rw [hcompute] at hs
        obtain rfl := Option.some.inj hs
        exact h.proceed fun _ => (Call.free_raise _).current _
      | ok checksum =>
        rw [hcompute] at hs
        obtain rfl := Option.some.inj hs
        exact h.proceed fun hcurrent => ⟨seen, hcurrent _ hm, hcompute⟩
  | _ => cases command <;> cases hs

theorem Ingress.Current.write (h : g.Current) {i now : Nat} {missing : List Checksum} {call : Call}
    (hs : g.write env i now missing call = some next) : next.Current := by
  obtain ⟨command, passes, phase⟩ := call
  have hw := Watch.lawful_on env fun _ => True
  cases phase with
  | holdsConfig config revision =>
    cases command with
    | edit path localPath detach compute => cases hs
    | setNodeConfig path update =>
      unfold Ingress.write at hs
      dsimp only at hs
      cases hupdate : update config with
      | error e =>
        rw [hupdate] at hs
        obtain rfl := Option.some.inj hs
        exact h.proceed fun _ => (Call.free_raise _).current _
      | ok config' =>
        rw [hupdate] at hs
        obtain rfl := Option.some.inj hs
        exact h.ask (fun start => hw.publishConfig start path revision config') fun reply _ =>
          (Call.free_answered _ reply).current _
  | holdsContent base checksum =>
    cases command with
    | setNodeConfig path update => cases hs
    | edit path localPath detach compute =>
      obtain rfl := Option.some.inj hs
      exact h.ask (fun start => hw.commitUpdate start path localPath checksum _ _ detach)
        fun reply _ => (Call.free_answered _ reply).current _
  | _ => cases command <;> cases hs

/-- A closed Context refuses every message. -/
theorem poisoned_close (now : Nat) (missing : List Checksum) (ctx : Ctx) :
    (ctx.runTurn env (operation env .close) now missing).2.poisoned = true := by
  by_cases hp : ctx.poisoned = true
  · rw [Ctx.runTurn_poisoned hp]
    exact hp
  · unfold Ctx.runTurn
    rw [if_neg hp]
    rfl

theorem poisoned_step {sys sys' : System} {event : Event} (h : sys.ctx.poisoned = true)
    (hs : sys.step env event = some sys') : sys'.ctx = sys.ctx := by
  have hturn : ∀ {α : Type} (program : M α) (now : Nat) (missing : List Checksum) (s : System),
      s.ctx = sys.ctx → (s.turn env program now missing).ctx = sys.ctx := by
    intro α program now missing s he
    show (s.ctx.runTurn env program now missing).2 = sys.ctx
    rw [Ctx.runTurn_poisoned (he ▸ h), he]
  cases event with
  | turn t now missing =>
    obtain rfl := Option.some.inj hs
    exact hturn _ _ _ _ rfl
  | started run identity now =>
    obtain ⟨-, hs⟩ := Option.ite_none_right_eq_some.mp hs
    obtain rfl := Option.some.inj hs
    exact hturn _ _ _ _ rfl
  | finished run identity outcome now =>
    obtain ⟨-, hs⟩ := Option.ite_none_right_eq_some.mp hs
    obtain rfl := Option.some.inj hs
    exact hturn _ _ _ _ rfl
  | cancelled run =>
    obtain ⟨-, hs⟩ := Option.ite_none_right_eq_some.mp hs
    obtain rfl := Option.some.inj hs
    rfl
  | posted message now =>
    obtain ⟨-, hs⟩ := Option.ite_none_right_eq_some.mp hs
    obtain rfl := Option.some.inj hs
    exact hturn _ _ _ _ rfl

theorem Ingress.Current.message (h : g.Current) {event : Event} {sys : System}
    (hspares : g.Spares env (.message event)) (hs : g.sys.step env event = some sys) :
    Ingress.Current { g with sys := sys } := by
  rcases h with h | h
  · exact Or.inl (show sys.ctx.poisoned = true by rw [poisoned_step h hs]; exact h)
  · by_cases hclose : ∃ now missing, event = .turn .close now missing
    · obtain ⟨now, missing, rfl⟩ := hclose
      obtain rfl := Option.some.inj hs
      exact Or.inl (poisoned_close now missing g.sys.ctx)
    · have hrespects : event.Respects env (Watch.on g.Holds) g.sys.ctx := by
        unfold Ingress.Spares at hspares
        split at hspares
        · rename_i he
          exact absurd ⟨_, _, IngressEvent.message.inj he⟩ hclose
        · rename_i he
          obtain rfl := IngressEvent.message.inj he
          exact hspares
        · rename_i he
          exact absurd rfl (he event)
      have hkept := (Watch.lawful_on env g.Holds).step g.sys.ctx (.refl_on _ _) hrespects hs
      exact Or.inr fun call hm => (h call hm).kept hkept fun p hp => ⟨call, hm, hp⟩

theorem Ingress.Current.step {event : IngressEvent} (h : g.Current) (hspares : g.Spares env event)
    (hs : g.step env event = some next) : next.Current := by
  cases event with
  | message event =>
    obtain ⟨sys, hsys, rfl⟩ := Option.map_eq_some_iff.mp hs
    exact h.message hspares hsys
  | call command =>
    obtain rfl := Option.some.inj hs
    refine h.imp id fun h call hm => (List.mem_append.mp hm).elim (h call) fun hm => ?_
    obtain rfl := List.mem_singleton.mp hm
    trivial
  | read i now missing =>
    obtain ⟨call, -, hs⟩ := Option.bind_eq_some_iff.mp hs
    exact h.read hs
  | look i =>
    obtain ⟨call, hcall, hs⟩ := Option.bind_eq_some_iff.mp hs
    exact h.look (List.mem_of_getElem? hcall) hs
  | compute i =>
    obtain ⟨call, hcall, hs⟩ := Option.bind_eq_some_iff.mp hs
    exact h.compute (List.mem_of_getElem? hcall) hs
  | write i now missing =>
    obtain ⟨call, -, hs⟩ := Option.bind_eq_some_iff.mp hs
    exact h.write hs

end Step

theorem reachable_current {env : Substrate} {g : Ingress}
    (h : Transition.Reachable (Ingress.step env) {} (Ingress.Spares env) g) : g.Current :=
  h.invariant (I := Ingress.Current) (Or.inr fun _ hm => absurd hm List.not_mem_nil)
    fun _ _ _ hi hc hs => hi.step hc hs

/-! ## The serial order of the setters -/

namespace Ingress

/-- A change of a configuration from outside the calls that return. -/
def changed (path : NodePath) (g next : Ingress) : List (Write (Option NodeConfig)) :=
  if next.sys.ctx.config? path = g.sys.ctx.config? path then []
  else [.overwrite (next.sys.ctx.config? path)]

/-- The update of a setter, as a write to the configuration. -/
def updating (update : NodeConfig → Except Error NodeConfig) : Write (Option NodeConfig) :=
  .update fun content => content.bind fun config => (update config).toOption

/-- What the write of a call writes to the configuration of a node: its update if it has been
accepted, and nothing if it is to be made again. One that raises may leave another configuration. -/
def published (env : Substrate) (path : NodePath) (now : Nat) (missing : List Checksum) (call : Call)
    (g next : Ingress) : List (Write (Option NodeConfig)) :=
  match call.phase, call.command with
  | .holdsConfig config revision, .setNodeConfig p update =>
    match update config with
    | .error _ => []
    | .ok config =>
      match g.sys.reply env (publishConfig env p revision config) now missing with
      | some true => if p = path then [updating update] else []
      | some false => []
      | none => g.changed path next
  | _, _ => []

/-- What an event writes to the configuration of a node. A message may leave any other. -/
def writes (env : Substrate) (path : NodePath) (g : Ingress) (event : IngressEvent)
    (next : Ingress) : List (Write (Option NodeConfig)) :=
  match event with
  | .message _ => g.changed path next
  | .write i now missing => (g.calls[i]?).elim [] fun call => g.published env path now missing call next
  | .call _ | .read _ _ _ | .look _ | .compute _ => []

theorem replay_changed (path : NodePath) (g next : Ingress) :
    Write.replay (g.changed path next) (g.sys.ctx.config? path) = next.sys.ctx.config? path := by
  unfold changed
  split
  · rename_i he
    exact he.symm
  · rfl

end Ingress

section Serial

variable {env : Substrate} {g next : Ingress} {path : NodePath}

theorem sameConfigs_runTurn {α : Type} {program : M α} {now : Nat} {missing : List Checksum} {ctx : Ctx}
    (hprogram : ∀ start, Keeps (SameConfigs start) program) :
    SameConfigs ctx (ctx.runTurn env program now missing).2 := by
  have hrun := hprogram ctx (ctx.arrive now missing) fun _ => rfl
  have hafter : ∀ {ctx'}, SameConfigs ctx ctx' → SameConfigs ctx (finalState (afterTurn env ctx')) :=
    fun h => sameConfigs_afterTurn.final h
  unfold Ctx.runTurn
  split
  · exact fun _ => rfl
  · cases hr : program (ctx.arrive now missing) with
    | ok a ctx' =>
      rw [hr] at hrun
      have hfinal := hafter hrun
      dsimp only
      cases ha : afterTurn env ctx' with
      | ok u ctx'' => rw [ha] at hfinal; exact hfinal
      | error e ctx'' => rw [ha] at hfinal; exact hfinal
    | error e ctx' =>
      rw [hr] at hrun
      exact hafter hrun

theorem configures_publishConfig {revision : Nat} {config : NodeConfig} {now : Nat}
    {missing : List Checksum} {ctx : Ctx} {accepted : Bool}
    (h : (ctx.runTurn env (publishConfig env path revision config) now missing).1 = some accepted) :
    if accepted then ctx.revision path = revision ∧ Configures path config ctx
        (ctx.runTurn env (publishConfig env path revision config) now missing).2
      else SameConfigs ctx (ctx.runTurn env (publishConfig env path revision config) now missing).2 := by
  refine Ctx.runTurn_replies (publishConfig_publishes path revision config) (fun accepted => ?_) h
  cases accepted with
  | true =>
    rintro ctx' ⟨hrevision, hc⟩
    exact (configures_afterTurn.conseq (fun _ hk => hk) (fun _ _ hk => ⟨hrevision, hk⟩)
      fun _ hk => ⟨hrevision, hk⟩) ctx' hc
  | false => exact sameConfigs_afterTurn

/-- A setter that has been accepted has updated the configuration as it stood. -/
theorem Ingress.Current.updates (h : g.Current) {revision : Nat} {config config' : NodeConfig}
    {update : NodeConfig → Except Error NodeConfig} {p : NodePath} {passes now : Nat}
    {missing : List Checksum} (hm : ⟨.setNodeConfig p update, passes, .holdsConfig config revision⟩ ∈
      g.calls) (hupdate : update config = .ok config')
    (hreply : (g.sys.ctx.runTurn env (publishConfig env p revision config') now missing).1 = some true) :
    (g.sys.ctx.runTurn env (publishConfig env p revision config') now missing).2.config? path =
      Write.replay (if p = path then [Ingress.updating update] else []) (g.sys.ctx.config? path) := by
  obtain ⟨hrevision, hconfigures⟩ := configures_publishConfig hreply
  rw [hconfigures]
  by_cases hp : p = path
  · subst hp
    rw [if_pos rfl, if_pos rfl]
    rcases h with h | h
    · rw [Ctx.runTurn_poisoned h] at hreply
      cases hreply
    · have hsnapshot : Snapshot p revision config g.sys.ctx := h _ hm
      have hconfig : g.sys.ctx.config? p = some config := hsnapshot.holds.content hrevision
      rw [hconfig]
      show some config' = (update config).toOption
      rw [hupdate]
      rfl
  · rw [if_neg fun he => hp he.symm, if_neg hp]
    rfl

theorem Ingress.Current.logs_write (h : g.Current) {i now : Nat} {missing : List Checksum}
    (hs : g.step env (.write i now missing) = some next) : next.sys.ctx.config? path =
      Write.replay (g.writes env path (.write i now missing) next) (g.sys.ctx.config? path) := by
  obtain ⟨call, hcall, hs⟩ := Option.bind_eq_some_iff.mp hs
  have hm := List.mem_of_getElem? hcall
  have hchanged := (Ingress.replay_changed path g next).symm
  unfold Ingress.writes
  dsimp only
  rw [hcall]
  obtain ⟨command, passes, phase⟩ := call
  show _ = Write.replay (Ingress.published env path now missing _ g next) _
  cases phase with
  | holdsConfig config revision =>
    cases command with
    | edit p localPath detach compute => cases hs
    | setNodeConfig p update =>
      unfold Ingress.write at hs
      unfold Ingress.published
      dsimp only at hs ⊢
      cases hupdate : update config with
      | error e =>
        rw [hupdate] at hs
        obtain rfl := Option.some.inj hs
        rfl
      | ok config' =>
        rw [hupdate] at hs
        obtain rfl := Option.some.inj hs
        dsimp only
        cases hreply : g.sys.reply env (publishConfig env p revision config') now missing with
        | none => exact hchanged
        | some accepted =>
          cases accepted with
          | true => exact h.updates hm hupdate hreply
          | false =>
            have hsame : SameConfigs g.sys.ctx _ := configures_publishConfig hreply
            exact hsame path
  | holdsContent base checksum =>
    cases command with
    | setNodeConfig p update => cases hs
    | edit p localPath detach compute =>
      obtain rfl := Option.some.inj hs
      exact sameConfigs_runTurn (fun _ => sameConfigs_commitUpdate _ _ _ _ _ _) path
  | _ => cases command <;> cases hs

/-- Every event writes to the configuration as it stands. -/
theorem Ingress.Current.logs (h : g.Current) {event : IngressEvent}
    (hs : g.step env event = some next) : next.sys.ctx.config? path =
      Write.replay (g.writes env path event next) (g.sys.ctx.config? path) := by
  cases event with
  | message event => exact (Ingress.replay_changed path g next).symm
  | call command =>
    obtain rfl := Option.some.inj hs
    rfl
  | read i now missing =>
    obtain ⟨⟨command, passes, phase⟩, -, hs⟩ := Option.bind_eq_some_iff.mp hs
    cases phase with
    | ready =>
      cases command with
      | setNodeConfig p update =>
        obtain rfl := Option.some.inj hs
        exact sameConfigs_runTurn (fun _ => keeps_configSnapshot p) path
      | edit p localPath detach compute =>
        obtain rfl := Option.some.inj hs
        exact sameConfigs_runTurn (fun _ => keeps_updateBase p localPath detach) path
    | _ => cases command <;> cases hs
  | look i =>
    obtain ⟨call, -, hs⟩ := Option.bind_eq_some_iff.mp hs
    rw [Ingress.sys_look hs]
    rfl
  | compute i =>
    obtain ⟨call, -, hs⟩ := Option.bind_eq_some_iff.mp hs
    rw [Ingress.sys_compute hs]
    rfl
  | write i now missing => exact h.logs_write hs

/-- The configuration of a node is what the setters that have returned make of it, one after the other
in the order of their writes, with what messages have written in between. No update that a caller has
been told of is undone by a setter that had read an older configuration. -/
theorem reachable_replays (h : Transition.Reachable (Ingress.step env) {} (Ingress.Spares env) g)
    (path : NodePath) {events : List IngressEvent} {last : Ingress}
    (hmeets : Transition.Meets (Ingress.step env) (Ingress.Spares env) events g)
    (hrun : Transition.run (Ingress.step env) events g = some last) :
    last.sys.ctx.config? path = Write.replay
      (Write.logOf (Ingress.step env) (Ingress.writes env path) events g) (g.sys.ctx.config? path) :=
  Write.replay_logOf (I := Ingress.Current) (fun g : Ingress => g.sys.ctx.config? path)
    (fun _ _ _ hi hc hs => hi.step hc hs) (fun _ _ _ hi _ hs => hi.logs hs) events
    (reachable_current h) hmeets hrun

end Serial

/-- A setter that makes a cell scratch. -/
def setScratch : NodeConfig → Except Error NodeConfig
  | .cell config => .ok (.cell { config with scratch := true })
  | .transformer config => .ok (.transformer config)

/-- A setter that gives a cell a celltype. -/
def setCelltype (celltype : Celltype) : NodeConfig → Except Error NodeConfig
  | .cell config => .ok (.cell { config with celltype := celltype })
  | .transformer config => .ok (.transformer config)

/-- Two setters of one cell read the same configuration. The second one has to read again. -/
def twoSetters : List IngressEvent :=
  [.message (.turn (.assign [.key "a"] (.checksum ⟨77⟩)) 0 []),
    .call (.setNodeConfig [.key "a"] setScratch), .call (.setNodeConfig [.key "a"] (setCelltype .text)),
    .read 0 0 [], .read 1 0 [], .write 0 0 [], .write 1 0 [],
    .message (.turn (.prune none) 0 []), .read 1 0 [], .write 1 0 []]

theorem twoSetters_runs : (Transition.run (Ingress.step .fixed) twoSetters {}).isSome = true := by
  decide +kernel

theorem reachable_replays_twoSetters :
    ((Transition.run (Ingress.step .fixed) twoSetters {}).get twoSetters_runs).sys.ctx.config?
        [.key "a"] =
      Write.replay (Write.logOf (Ingress.step .fixed) (Ingress.writes .fixed [.key "a"]) twoSetters {})
        none :=
  reachable_replays .start [.key "a"]
    ⟨trivial, fun _ _ => ⟨trivial, fun _ _ => ⟨trivial, fun _ _ => ⟨trivial, fun _ _ => ⟨trivial,
      fun _ _ => ⟨trivial, fun _ _ => ⟨trivial, fun _ _ => ⟨trivial, fun _ _ => ⟨trivial, fun _ _ =>
        ⟨trivial, fun _ _ => trivial⟩⟩⟩⟩⟩⟩⟩⟩⟩⟩ (Option.some_get twoSetters_runs).symm

/-! ## Edits of a part of a cell -/

/-- An edit has been made to the content that a cell showed. -/
structure EditMade (env : Substrate) (path : NodePath) (localPath : Path) (detach : Bool)
    (compute : Celltype → List Celltype → Option Checksum → Except Error Checksum) (ctx ctx' : Ctx) :
    Prop where
  made : ∃ fields content seen checksum, ctx.cell? path = some fields ∧
    (ctx.node? path).map Node.currentChecksum = some content ∧
    (∀ celltype ∈ seen, celltype = fields.config.celltype) ∧
    compute fields.config.celltype seen content = .ok checksum ∧
    (content = none → localPath.head?.any Component.isKey = true) ∧
    Stores env path fields checksum ctx ctx'
  free : ∀ edge ∈ ctx.graph.edges, ∀ l, ctx.graph.resolveExisting edge.target = some (path, l) →
    controls detach localPath l = false
  configs : SameConfigs ctx ctx'

theorem commitUpdate_replies {env : Substrate} {path : NodePath} {localPath : Path}
    {checksum : Checksum} {base : Option Checksum} {revision : Nat} {detach : Bool} {now : Nat}
    {missing : List Checksum} {ctx : Ctx} {accepted : Bool}
    (h : (ctx.runTurn env (commitUpdate env path localPath checksum base revision detach) now
      missing).1 = some accepted) :
    if accepted then ∃ fields, Commits ctx path localPath detach base revision fields ∧
        Stores env path fields checksum ctx (ctx.runTurn env (commitUpdate env path localPath checksum
          base revision detach) now missing).2
      else SameRoots ctx (ctx.runTurn env (commitUpdate env path localPath checksum base revision
        detach) now missing).2 := by
  have harrive : SameRoots ctx (ctx.arrive now missing) := .of_graph rfl
  have hreplied := Ctx.runTurn_replies (commitUpdate_commits path localPath checksum base revision
    detach) (fun accepted => ?_) h
  · cases accepted with
    | true =>
      obtain ⟨fields, hcommits, hstores⟩ := hreplied
      exact ⟨fields, ⟨hcommits.cell, hcommits.shows, hcommits.revision, hcommits.free⟩, hstores⟩
    | false => exact harrive.trans hreplied
  · cases accepted with
    | true =>
      rintro ctx' ⟨fields, hcommits, hstores⟩
      exact (stores_afterTurn.conseq (fun _ hk => hk) (fun _ _ hk => ⟨fields, hcommits, hk⟩)
        fun _ hk => ⟨fields, hcommits, hk⟩) ctx' hstores
    | false => exact keepsInputs_afterTurn

/-- An edit that returns has been made to the content that the cell shows when it is written, with the
celltype that the cell has then, and it has changed nothing else. An edit that has to begin again has
changed no cell. -/
theorem reachable_editMade {env : Substrate} {g next : Ingress}
    (h : Transition.Reachable (Ingress.step env) {} (Ingress.Spares env) g) {i now : Nat}
    {missing : List Checksum} {call : Call} (hcall : g.calls[i]? = some call) {path : NodePath}
    {localPath : Path} {detach : Bool}
    {compute : Celltype → List Celltype → Option Checksum → Except Error Checksum}
    (hcommand : call.command = .edit path localPath detach compute)
    (hs : g.step env (.write i now missing) = some next) :
    ((next.calls[i]?).map Call.phase = some .returned →
      EditMade env path localPath detach compute g.sys.ctx next.sys.ctx) ∧
    ((next.calls[i]?).map Call.phase = some .ready → SameRoots g.sys.ctx next.sys.ctx) := by
  have hcurrent := reachable_current h
  have hset : ∀ call' : Call, (g.calls.set i call')[i]? = some call' := fun call' => by
    rw [List.getElem?_set_self (List.getElem?_eq_some_iff.mp hcall).1]
  have hm := List.mem_of_getElem? hcall
  obtain ⟨command, passes, phase⟩ := call
  obtain rfl : command = .edit path localPath detach compute := hcommand
  obtain ⟨call', hcall', hs⟩ := Option.bind_eq_some_iff.mp hs
  obtain rfl := Option.some.inj (hcall.symm.trans hcall')
  cases phase with
  | holdsContent base checksum =>
    obtain rfl := Option.some.inj hs
    unfold Ingress.ask
    dsimp only
    rw [hset]
    cases hreply : g.sys.reply env (commitUpdate env path localPath checksum base.checksum base.revision
        detach) now missing with
    | none => exact ⟨nofun, nofun⟩
    | some accepted =>
      have hreplied := commitUpdate_replies hreply
      cases accepted with
      | false =>
        refine ⟨fun he => ?_, fun _ => hreplied⟩
        unfold Call.answered Call.retry at he
        dsimp only at he
        by_cases hlast : passes ≤ 1
        · rw [if_pos hlast] at he
          cases he
        · rw [if_neg hlast] at he
          cases he
      | true =>
        refine ⟨fun _ => ?_, nofun⟩
        obtain ⟨fields, hcommits, hstores⟩ := hreplied
        rcases hcurrent with hpoisoned | hcurrent
        · have hrefused : g.sys.reply env (commitUpdate env path localPath checksum base.checksum
              base.revision detach) now missing = none := by
            unfold System.reply
            rw [Ctx.runTurn_poisoned hpoisoned]
          rw [hrefused] at hreply
          cases hreply
        · obtain ⟨seen, hbase, hcompute⟩ := hcurrent _ hm
          obtain ⟨config, hcelltype, hsnapshot⟩ := hbase.snapshot
          have hconfig : g.sys.ctx.config? path = some (.cell config) :=
            hsnapshot.holds.content hcommits.revision
          obtain rfl : fields.config = config := by
            rw [Ctx.config?_of_cell? hcommits.cell] at hconfig
            exact NodeConfig.cell.inj (Option.some.inj hconfig)
          refine ⟨⟨fields, base.checksum, seen, checksum, hcommits.cell, hcommits.shows, ?_, ?_,
            hbase.empty, hstores⟩, hcommits.free,
            sameConfigs_runTurn fun _ => sameConfigs_commitUpdate _ _ _ _ _ _⟩
          · rw [hcelltype]
            exact hbase.seen hcommits.revision
          · rw [hcelltype]
            exact hcompute
  | _ => cases hs

/-- An edit that makes other content from what it finds. -/
def editContent (_ : Celltype) (_ : List Celltype) (content : Option Checksum) : Except Error Checksum :=
  .ok ⟨(content.map Checksum.value).getD 0 + 1000⟩

/-- A cell is written while an edit of a part of it is under way. The edit begins again, and is ready to
be written. -/
def editedTwice : List IngressEvent :=
  [.message (.turn (.assign [.key "a"] (.checksum ⟨77⟩)) 0 []),
    .call (.edit [.key "a"] [.key "k"] false editContent),
    .read 0 0 [], .compute 0,
    .message (.turn (.cellOperation [.key "a"] [] (.checksum (some ⟨88⟩)) false none) 0 []),
    .write 0 0 [], .read 0 0 [], .compute 0]

theorem editedTwice_runs : (Transition.run (Ingress.step .fixed) editedTwice {}).isSome = true := by
  decide +kernel

theorem editedTwice_meets :
    Transition.Meets (Ingress.step .fixed) (Ingress.Spares .fixed) editedTwice {} :=
  ⟨trivial, fun _ _ => ⟨trivial, fun _ _ => ⟨trivial, fun _ _ => ⟨trivial, fun _ _ => ⟨trivial,
    fun _ _ => ⟨trivial, fun _ _ => ⟨trivial, fun _ _ => ⟨trivial, fun _ _ => trivial⟩⟩⟩⟩⟩⟩⟩⟩

/-- The callers before the edit is written. -/
def editedTwiceEnd : Ingress :=
  (Transition.run (Ingress.step .fixed) editedTwice {}).get editedTwice_runs

theorem editedTwice_writes : (editedTwiceEnd.step .fixed (.write 0 0 [])).isSome = true := by
  decide +kernel

/-- The call before the edit is written. -/
def editedTwiceCall : Call where
  command := .edit [.key "a"] [.key "k"] false editContent
  passes := 7
  phase := .holdsContent ⟨some ⟨88⟩, .mixed, 2, .complete, []⟩ ⟨1088⟩

theorem reachable_editMade_editedTwice :
    EditMade .fixed [.key "a"] [.key "k"] false editContent editedTwiceEnd.sys.ctx
      ((editedTwiceEnd.step .fixed (.write 0 0 [])).get editedTwice_writes).sys.ctx := by
  have hreach : Transition.Reachable (Ingress.step .fixed) {} (Ingress.Spares .fixed) editedTwiceEnd :=
    Transition.Reachable.of_run .start editedTwice_meets editedTwice_runs
  have hcall : editedTwiceEnd.calls[0]? = some editedTwiceCall := by rfl
  refine (reachable_editMade hreach hcall rfl (Option.some_get editedTwice_writes).symm).1 ?_
  decide +kernel

end SeamlessWorkflow
