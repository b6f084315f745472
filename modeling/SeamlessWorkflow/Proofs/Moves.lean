import SeamlessWorkflow.Proofs.DurableProofs
import SeamlessWorkflow.Library.Wiring
import Mathlib.Logic.Relation

/-!
# What an operation can do

Every operation of a turn is a sequence of moves. A move says what happens to the nodes and the edges,
under the guards that the code has checked before it; what the turn may create and connect is given by
limits. Invariants are proved once for each move.
-/

namespace SeamlessWorkflow

open Program Relation

/-- What the wiring, the ledger and the recorded links see of a node: is it a cell, which object is it,
and what is its celltype. -/
structure Outline where
  isCell : Bool
  ident : Nat
  celltype : Celltype

def Node.outline (node : Node) : Outline := ⟨node.isCell, node.ident, node.celltype⟩

def Ctx.outline (ctx : Ctx) (path : NodePath) : Option Outline :=
  (ctx.node? path).map Node.outline

/-- An outline, whichever object it is of. -/
def Outline.kind (node : Outline) : Bool × Celltype := (node.isCell, node.celltype)

/-- A node without its attachments and its recorded read errors. -/
def Node.essence (node : Node) : Node :=
  { node with
    mount := none, share := none, widgets := []
    body := match node.body with
      | .cell fields => .cell fields
      | .transformer fields => .transformer { fields with pinReadErrors := ∅ } }

@[simp] theorem Node.essence_outline (node : Node) : node.essence.outline = node.outline := by
  unfold Node.essence Node.outline Node.isCell Node.celltype
  cases node.body <;> rfl

/-- The errors of the outside world that a node is derived with: those of the attachments of a cell,
and the recorded read errors of a transformer. -/
structure OutsideErrors where
  sense : List Error := []
  pins : AList (fun _ : String => PinReadError) := ∅

/-- The errors that the next derivation of a node reads. -/
def Ctx.outsideErrors (ctx : Ctx) (path : NodePath) : OutsideErrors where
  sense := (ctx.sessionsFor path).filterMap MountSession.senseError
  pins :=
    match (ctx.node? path).map Node.body with
    | some (.transformer fields) => fields.pinReadErrors
    | _ => ∅

/-- The errors of a node stay, or its read errors are forgotten while it shows no error. -/
def KeepsErrors (ctx ctx' : Ctx) (path : NodePath) : Prop :=
  ctx'.outsideErrors path = ctx.outsideErrors path ∨
    ctx'.outsideErrors path = { ctx.outsideErrors path with pins := ∅ } ∧
      (ctx.node? path).map Node.errors = some []

/-- A change of bookkeeping: nothing that derivation has established is lost. -/
structure Quiet (ctx ctx' : Ctx) : Prop where
  node : ∀ path, (ctx'.node? path).map Node.essence = (ctx.node? path).map Node.essence
  edges : ctx'.graph.edges = ctx.graph.edges
  facts : ctx'.facts = ctx.facts
  current : ctx'.runtime.currentRuns = ctx.runtime.currentRuns
  settled : ctx'.settled = true → ctx.settled = true
  errors : ctx'.settled = true → ∀ path, KeepsErrors ctx ctx' path

/-- The block reason that a node shows. -/
def Ctx.reasonAt (ctx : Ctx) (path : NodePath) : Option BlockReason :=
  (ctx.node? path).bind Node.blockReason

/-- Every block reason that is shown has been shown before. -/
def KeepsReasons (ctx ctx' : Ctx) : Prop :=
  ∀ path, ∀ reason ∈ ctx'.reasonAt path, ∃ q, reason ∈ ctx.reasonAt q

/-- The outline of the nodes and the edges are these, and the graph has to be derived again. -/
structure Becomes (ctx : Ctx) (outline : NodePath → Option Outline) (edges : List Edge) : Prop where
  outline : ctx.outline = outline
  edges : ctx.graph.edges = edges
  unsettled : ctx.settled = false

/-- A change of the outline of the nodes and of the edges that blocks no node. -/
structure Rewires (ctx ctx' : Ctx) (outline : NodePath → Option Outline) (edges : List Edge) :
    Prop extends Becomes ctx' outline edges where
  reasons : KeepsReasons ctx ctx'

/-- The guards of a new edge. -/
structure Guarded (ctx : Ctx) (edge : Edge) (stray : Prop) : Prop where
  resolved : ∃ s sl t tl, ctx.graph.resolveExisting edge.source = some (s, sl) ∧
    ctx.graph.resolveExisting edge.target = some (t, tl) ∧ s ≠ t ∧
    ctx.graph.wouldCycle s t = false ∧
    (∀ other ∈ ctx.graph.edges, ctx.graph.resolveExisting other.target ≠ some (t, tl)) ∧
    ((ctx.node? t).map Node.isCell = some true →
      ∀ other ∈ ctx.graph.edges, ∀ l, ctx.graph.resolveExisting other.target = some (t, l) →
        (tl = [] ↔ l = []))
  shallow : edge.targetPlace.localPath.length ≤ 1
  addressed : edge.targetPlace.node ∈ ctx.graph.nodes ∨ stray

/-- The recipe of an edge. -/
def Edge.recipe (edge : Edge) : EdgeRecipe :=
  { sourceCelltype := edge.sourceCelltype, conversion := edge.sourceConversion
    conversionBefore := edge.sourceConversionBefore, conversionSteps := edge.sourceConversionSteps }

/-- A new edge has its end points and its conversions from the turn, and the links that are recorded
for them. -/
structure Recorded (env : Substrate) (ctx : Ctx) (edge : Edge) (joins : Place → Prop)
    (wires : Place → Place → EdgeRecipe → Prop) : Prop where
  source : joins edge.sourcePlace
  target : joins edge.targetPlace
  wires : wires edge.sourcePlace edge.targetPlace edge.recipe
  registered : ∃ plain graph, plain.sourceChain = [] ∧
    ctx.graph.registerEdgeSymbols env plain = some (edge, graph)

/-- What a turn may do. -/
structure Limits where
  /-- The paths at which it may create a node, in a given state. -/
  creates : Ctx → NodePath → Prop
  /-- The end points that it may connect. -/
  joins : Place → Prop
  /-- The edges that it may add, with their conversions. -/
  wires : Place → Place → EdgeRecipe → Prop
  /-- The celltypes that it may give to nodes that exist. -/
  types : NodePath → Celltype → Prop
  /-- May it connect the code of a node that does not exist? -/
  stray : Prop
  /-- May it remove nodes? -/
  removes : Prop
  /-- The namespaces that it may copy, in a given state. -/
  copies : Ctx → NodePath → NodePath → Prop
  /-- The graphs that it may load. -/
  loads : ContextGraph → Prop
  /-- The changes that it may make to the record of a run. -/
  delivers : NodePath → Nat → (RunRecord → RunRecord) → Prop

/-- One move. -/
inductive Move (env : Substrate) (lim : Limits) : Ctx → Ctx → Prop
  | quiet {ctx ctx' : Ctx} : Quiet ctx ctx' → Move env lim ctx ctx'
  | edit {ctx ctx' : Ctx} : Rewires ctx ctx' ctx.outline ctx.graph.edges → Move env lim ctx ctx'
  | derive {ctx : Ctx} {sorted : List NodePath} :
      sortPaths ctx.graph.nodes.keys = some sorted → Ctx.sourcesResolve ctx.graph = true →
      Move env lim ctx (ctx.beginDerivation.deriveGraph env sorted)
  | raise {ctx raised : Ctx} {sorted : List NodePath} :
      ctx.beginDerivation.graphRaises env sorted = some raised →
      Move env lim ctx raised.unsettle.poison
  | drop {ctx ctx' : Ctx} (keep : Edge → Bool) :
      Rewires ctx ctx' ctx.outline (ctx.graph.edges.filter keep) → Move env lim ctx ctx'
  | recast {ctx ctx' : Ctx} {path : NodePath} {node : Outline} {celltype : Celltype} :
      ctx.outline path = some node → lim.types path celltype →
      Rewires ctx ctx' (Function.update ctx.outline path (some { node with celltype }))
        ctx.graph.edges → Move env lim ctx ctx'
  | connect {ctx ctx' : Ctx} {edge : Edge} :
      Guarded ctx edge lim.stray → Recorded env ctx edge lim.joins lim.wires →
      Rewires ctx ctx' ctx.outline (ctx.graph.edges ++ [edge]) → Move env lim ctx ctx'
  | create {ctx ctx' : Ctx} {path : NodePath} {node : Outline} :
      path ∉ ctx.graph.nodes → lim.creates ctx path →
      Rewires ctx ctx' (Function.update ctx.outline path (some node)) ctx.graph.edges →
      Move env lim ctx ctx'
  | remove {ctx ctx' : Ctx} (path : NodePath) :
      lim.removes → Rewires ctx ctx' (fun q => if below path q then none else ctx.outline q)
        (ctx.graph.edges.filter fun edge => !below path edge.source && !below path edge.target) →
      Move env lim ctx ctx'
  | retype {ctx ctx' : Ctx} {path : NodePath} {node : Outline} {celltype : Celltype} :
      ctx.outline path = some node → lim.types path celltype →
      Rewires ctx ctx' (Function.update ctx.outline path (some ⟨true, node.ident, celltype⟩))
        (ctx.graph.replaceEdgesTo path).edges → Move env lim ctx ctx'
  | copy {ctx : Ctx} {sourcePrefix targetPrefix : NodePath} :
      lim.copies ctx sourcePrefix targetPrefix →
      Move env lim ctx (finalState (copySubcontext env sourcePrefix targetPrefix ctx))
  | load {ctx ctx' : Ctx} {graph : ContextGraph} :
      lim.loads graph →
      Becomes ctx' ctx'.outline graph.edges →
      (∀ path, (ctx'.outline path).map Outline.kind =
        (graph.nodes.lookup path).map fun node => node.outline.kind) →
      (∀ path, ctx'.reasonAt path = (graph.nodes.lookup path).bind Node.blockReason) →
      Move env lim ctx ctx'
  | deliver {ctx : Ctx} {path : NodePath} {generation : Nat} {f : RunRecord → RunRecord} :
      lim.delivers path generation f → Move env lim ctx (ctx.updateRun path generation f)

/-- The same limits without the moves by which a node can vanish. -/
def Limits.gentle (lim : Limits) : Limits :=
  { lim with removes := False, copies := fun _ _ _ => False, loads := fun _ => False }

theorem Move.of_gentle {env : Substrate} {lim : Limits} {ctx ctx' : Ctx}
    (h : Move env lim.gentle ctx ctx') : Move env lim ctx ctx' := by
  cases h with
  | quiet h => exact .quiet h
  | edit h => exact .edit h
  | derive hs hr => exact .derive hs hr
  | raise hr => exact .raise hr
  | recast hn ht h => exact .recast hn ht h
  | drop keep h => exact .drop keep h
  | connect hg hr h => exact .connect hg hr h
  | create hp hc h => exact .create hp hc h
  | remove path hr _ => exact hr.elim
  | retype hn ht h => exact .retype hn ht h
  | copy hc => exact hc.elim
  | load hl _ _ _ => exact hl.elim
  | deliver hd => exact .deliver hd

/-- The states that moves lead to. -/
def Moves (env : Substrate) (lim : Limits) (start : Ctx) : Ctx → Prop :=
  ReflTransGen (Move env lim) start

/-- The program makes moves only. -/
def Moving {α : Type} (env : Substrate) (lim : Limits) (program : M α) : Prop :=
  ∀ start, Keeps (Moves env lim start) program

/-- What every move keeps is kept by a program of moves. -/
theorem Moving.keeps {env : Substrate} {lim : Limits} {α : Type} {program : M α}
    (h : Moving env lim program) {I : Ctx → Prop}
    (hI : ∀ ctx ctx', Move env lim ctx ctx' → I ctx → I ctx') : Keeps I program := by
  intro ctx hctx
  have hmoves : ∀ {ctx'}, Moves env lim ctx ctx' → I ctx' := by
    intro ctx' hm
    induction hm with
    | refl => exact hctx
    | tail _ hmove ih => exact hI _ _ hmove ih
  have := h ctx ctx ReflTransGen.refl
  cases hp : program ctx with
  | ok a ctx' => rw [hp] at this; exact hmoves this
  | error e ctx' => rw [hp] at this; exact hmoves this

/-! ## Programs that change nothing -/

theorem inspects_raise {α : Type} (kind : ErrorKind) (text : String) {Q : α → Ctx → Prop} :
    Inspects (raise kind text : M α) Q := Inspects.throw

theorem inspects_refuseIf (c : Prop) [Decidable c] (kind : ErrorKind) (text : String) :
    Inspects (refuseIf c kind text) fun _ _ => ¬ c := by
  unfold refuseIf
  by_cases hc : c
  · rw [if_pos hc]; exact inspects_raise kind text
  · rw [if_neg hc]; exact Inspects.pure fun _ => hc

theorem inspects_refuseWith (e : Option Error) :
    Inspects (refuseWith e) fun _ _ => e = none := by
  cases e with
  | none => exact Inspects.pure fun _ => rfl
  | some e => exact Inspects.throw

theorem inspects_nodeAt (path : NodePath) :
    Inspects (nodeAt path) fun node ctx => ctx.node? path = some node := by
  refine Inspects.get_bind fun ctx => ?_
  cases h : ctx.node? path with
  | none => exact inspects_raise _ _
  | some node => exact Inspects.pure fun _ hs => hs ▸ h

theorem inspects_cellAt (path : NodePath) : Inspects (cellAt path) fun fields ctx =>
    ∃ node, ctx.node? path = some node ∧ node.body = .cell fields := by
  refine Inspects.bind (inspects_nodeAt path) fun node => ?_
  cases h : node.body with
  | cell fields => exact Inspects.pure fun _ hs => ⟨node, hs, h⟩
  | transformer fields => exact inspects_raise _ _

theorem inspects_transformerAt (path : NodePath) : Inspects (transformerAt path) fun fields ctx =>
    ∃ node, ctx.node? path = some node ∧ node.body = .transformer fields := by
  refine Inspects.bind (inspects_nodeAt path) fun node => ?_
  cases h : node.body with
  | cell fields => exact inspects_raise _ _
  | transformer fields => exact Inspects.pure fun _ hs => ⟨node, hs, h⟩

theorem inspects_resolve (viewPath : ViewPath) : Inspects (resolve viewPath) fun r ctx =>
    ctx.graph.resolveExisting viewPath = some r := by
  refine Inspects.get_bind fun ctx => ?_
  cases h : ctx.graph.resolveExisting viewPath with
  | none => exact inspects_raise _ _
  | some r => exact Inspects.pure fun _ hs => hs ▸ h

section Keeps

variable {I : Ctx → Prop}

theorem keeps_raise {α : Type} (kind : ErrorKind) (text : String) :
    Keeps I (raise kind text : M α) := Keeps.throw

theorem keeps_refuseIf (c : Prop) [Decidable c] (kind : ErrorKind) (text : String) :
    Keeps I (refuseIf c kind text) := (inspects_refuseIf c kind text).keeps

theorem keeps_refuseWith (e : Option Error) : Keeps I (refuseWith e) :=
  (inspects_refuseWith e).keeps

theorem keeps_onlyIf {c : Prop} [Decidable c] {program : M Unit} (h : Keeps I program) :
    Keeps I (onlyIf c program) := Keeps.ite h Keeps.pure

theorem keeps_nodeAt (path : NodePath) : Keeps I (nodeAt path) := (inspects_nodeAt path).keeps

theorem keeps_cellAt (path : NodePath) : Keeps I (cellAt path) := (inspects_cellAt path).keeps

theorem keeps_transformerAt (path : NodePath) : Keeps I (transformerAt path) :=
  (inspects_transformerAt path).keeps

theorem keeps_resolve (viewPath : ViewPath) : Keeps I (resolve viewPath) :=
  (inspects_resolve viewPath).keeps

theorem keeps_endpointCelltype (source : BoundEndpoint) : Keeps I (endpointCelltype source) := by
  unfold endpointCelltype
  cases source.celltype with
  | none => exact Keeps.bind (keeps_nodeAt _) fun _ => Keeps.pure
  | some celltype => exact Keeps.pure

theorem keeps_checkAuthority (path : NodePath) (localPath : Path) :
    Keeps I (checkAuthority path localPath) :=
  Keeps.bind Keeps.get fun _ => keeps_refuseIf _ _ _

theorem keeps_validateWrite (path : NodePath) (localPath : Path) (detach : Bool) :
    Keeps I (validateWrite path localPath detach) :=
  Keeps.bind Keeps.get fun _ => keeps_refuseIf _ _ _

theorem keeps_checkDeepLink (env : Substrate) (source : BoundEndpoint)
    (target : Option BoundEndpoint) : Keeps I (checkDeepLink env source target) :=
  Keeps.bind Keeps.get fun _ => keeps_refuseWith _

theorem keeps_checkProjected (source : BoundEndpoint) (sourceType targetType : Celltype) :
    Keeps I (checkProjected source sourceType targetType) := keeps_refuseIf _ _ _

theorem keeps_checkDeepSlot (source : BoundEndpoint) (k : Component) (targetType : Celltype) :
    Keeps I (checkDeepSlot source k targetType) := by
  refine Keeps.bind (keeps_endpointCelltype source) fun _ => ?_
  exact Keeps.bind (keeps_refuseIf _ _ _) fun _ => keeps_refuseIf _ _ _

theorem keeps_checkSlot (source target : BoundEndpoint) : Keeps I (checkSlot source target) := by
  unfold checkSlot
  split
  · refine Keeps.bind (keeps_refuseIf _ _ _) fun _ => ?_
    refine Keeps.bind (keeps_cellAt _) fun fields => ?_
    refine Keeps.bind (keeps_refuseIf _ _ _) fun _ => ?_
    refine Keeps.bind (keeps_refuseWith _) fun _ => ?_
    refine Keeps.bind (keeps_onlyIf (keeps_checkDeepSlot _ _ _)) fun _ => ?_
    exact keeps_onlyIf (Keeps.bind (keeps_endpointCelltype _) fun _ => keeps_checkProjected _ _ _)
  · exact keeps_raise _ _

theorem keeps_checkPin (env : Substrate) (source target : BoundEndpoint) (pin : String) :
    Keeps I (checkPin env source target pin) := by
  refine Keeps.bind (keeps_transformerAt _) fun fields => ?_
  refine Keeps.bind (keeps_endpointCelltype _) fun _ => ?_
  refine Keeps.bind (keeps_refuseIf _ _ _) fun _ => ?_
  exact keeps_onlyIf (Keeps.bind (keeps_nodeAt _) fun _ => keeps_refuseWith _)

theorem keeps_checkRoot (source target : BoundEndpoint) : Keeps I (checkRoot source target) := by
  refine keeps_onlyIf (Keeps.bind (keeps_cellAt _) fun fields => ?_)
  exact Keeps.bind (keeps_endpointCelltype _) fun _ => keeps_checkProjected _ _ _

theorem keeps_checkTarget (env : Substrate) (source target : BoundEndpoint) :
    Keeps I (checkTarget env source target) := by
  unfold checkTarget
  split
  · exact keeps_checkSlot _ _
  · exact keeps_checkPin _ _ _ _
  · exact keeps_raise _ _
  · exact keeps_checkRoot _ _
  · exact Keeps.pure

theorem keeps_labelCelltype (path : NodePath) (inputCelltype : Option Celltype) :
    Keeps I (labelCelltype path inputCelltype) := by
  cases inputCelltype with
  | none => exact Keeps.bind (keeps_cellAt path) fun _ => Keeps.pure
  | some celltype => exact Keeps.pure

theorem keeps_pinSnapshot (path : NodePath) (pin : String) : Keeps I (pinSnapshot path pin) := by
  refine Keeps.bind Keeps.get fun ctx => ?_
  cases ctx.node? path with
  | none => exact keeps_raise _ _
  | some node =>
    simp only
    cases node.transformerFields with
    | none => exact keeps_raise _ _
    | some fields => exact Keeps.ite Keeps.pure (keeps_raise _ _)

theorem keeps_sortedDescendants (path : NodePath) : Keeps I (sortedDescendants path) := by
  refine Keeps.bind Keeps.get fun ctx => ?_
  cases ctx.graph.descendants path with
  | none => exact keeps_raise _ _
  | some descendants => exact Keeps.pure

theorem keeps_mountNode (path : NodePath) : Keeps I (mountNode path) := by
  refine Keeps.bind Keeps.get fun ctx => ?_
  cases (ctx.node? path).filter Node.isCell with
  | none => exact keeps_raise _ _
  | some node => exact Keeps.pure

end Keeps

/-! ## Changes of bookkeeping -/

theorem Node.errors_essence (node : Node) : node.essence.errors = node.errors := by
  unfold Node.errors Node.essence
  cases node.body <;> rfl

theorem KeepsErrors.trans {a b c : Ctx} {path : NodePath}
    (hnode : (b.node? path).map Node.essence = (a.node? path).map Node.essence)
    (h : KeepsErrors a b path) (h' : KeepsErrors b c path) : KeepsErrors a c path := by
  have hshown : (b.node? path).map Node.errors = (a.node? path).map Node.errors := by
    have := congrArg (Option.map Node.errors) hnode
    rwa [Option.map_map, Option.map_map,
      show Node.errors ∘ Node.essence = Node.errors from funext Node.errors_essence] at this
  rcases h with h | ⟨h, hnone⟩
  · rcases h' with h' | ⟨h', hnone⟩
    · exact .inl (h'.trans h)
    · exact .inr ⟨by rw [h', h], hshown ▸ hnone⟩
  · rcases h' with h' | ⟨h', -⟩
    · exact .inr ⟨h'.trans h, hnone⟩
    · exact .inr ⟨by rw [h', h], hnone⟩

theorem Quiet.trans {a b c : Ctx} (h : Quiet a b) (h' : Quiet b c) : Quiet a c where
  node path := (h'.node path).trans (h.node path)
  edges := h'.edges.trans h.edges
  facts := h'.facts.trans h.facts
  current := h'.current.trans h.current
  settled hs := h.settled (h'.settled hs)
  errors hs path := (h.errors (h'.settled hs) path).trans (h.node path) (h'.errors hs path)

/-- A change outside the graph, the facts, the runs and the attachments. -/
theorem Quiet.of_eq {ctx ctx' : Ctx} (hgraph : ctx'.graph = ctx.graph)
    (hfacts : ctx'.facts = ctx.facts)
    (hcurrent : ctx'.runtime.currentRuns = ctx.runtime.currentRuns)
    (hsessions : ctx'.mountSessions = ctx.mountSessions)
    (hsettled : ctx'.settled = ctx.settled) : Quiet ctx ctx' where
  node path := by unfold Ctx.node?; rw [hgraph]
  edges := by rw [hgraph]
  facts := hfacts
  current := hcurrent
  settled hs := hsettled ▸ hs
  errors _ path := by
    refine .inl ?_
    unfold Ctx.outsideErrors Ctx.sessionsFor Ctx.node?
    rw [hgraph, hsessions]

theorem Quiet.refl (ctx : Ctx) : Quiet ctx ctx := .of_eq rfl rfl rfl rfl rfl

theorem Quiet.foldl {α : Type} {f : Ctx → α → Ctx} (h : ∀ ctx a, Quiet ctx (f ctx a))
    (as : List α) (ctx : Ctx) : Quiet ctx (as.foldl f ctx) := by
  induction as generalizing ctx with
  | nil => exact .refl ctx
  | cons a as ih => exact (h ctx a).trans (ih (f ctx a))

theorem quiet_incref (c : Checksum) (ctx : Ctx) : Quiet ctx (ctx.incref c) :=
  .of_eq rfl rfl rfl rfl rfl

theorem quiet_increfAll (cs : List Checksum) (ctx : Ctx) : Quiet ctx (ctx.increfAll cs) :=
  Quiet.foldl (fun ctx c => quiet_incref c ctx) cs ctx

theorem quiet_decrefAll (cs : List Checksum) (ctx : Ctx) : Quiet ctx (ctx.decrefAll cs) :=
  Quiet.foldl (f := fun ctx c => ctx.decref c) (fun _ _ => .of_eq rfl rfl rfl rfl rfl) cs ctx

theorem quiet_bumpRevision (path : NodePath) (ctx : Ctx) : Quiet ctx (ctx.bumpRevision path) :=
  .of_eq rfl rfl rfl rfl rfl

theorem quiet_poison (ctx : Ctx) : Quiet ctx ctx.poison :=
  .of_eq rfl rfl rfl rfl rfl

theorem quiet_syncRefholds {κ ν : Type} [DecidableEq κ] [DecidableEq ν]
    (checksumOf : ν → Checksum) (old wanted : AList (fun _ : κ => ν)) (ctx : Ctx) :
    Quiet ctx (ctx.syncRefholds checksumOf old wanted) :=
  (quiet_increfAll _ ctx).trans (quiet_decrefAll _ _)

theorem quiet_syncModuleRefholds (ctx : Ctx) : Quiet ctx ctx.syncModuleRefholds :=
  (quiet_syncRefholds id ctx.moduleRefholds _ ctx).trans (.of_eq rfl rfl rfl rfl rfl)

theorem quiet_syncSupersededRefholds (ctx : Ctx) : Quiet ctx ctx.syncSupersededRefholds := by
  unfold Ctx.syncSupersededRefholds
  dsimp only
  refine (Quiet.foldl (fun ctx entry => ?_) _ ctx).trans (Quiet.foldl (fun ctx item => ?_) _ _)
  · exact .of_eq rfl rfl rfl rfl rfl
  · split
    · exact .refl _
    · exact .of_eq rfl rfl rfl rfl rfl

theorem quiet_cancelRuns (records : List RunRecord) (ctx : Ctx) :
    Quiet ctx (ctx.cancelRuns records) := by
  refine Quiet.foldl (fun ctx record => ?_) records ctx
  split
  · exact .of_eq rfl rfl rfl rfl rfl
  · exact .refl _

/-- Dropping queued records. -/
theorem quiet_dropQueued (path : NodePath) (dropped : RunRecord → Bool) (ctx : Ctx) :
    Quiet ctx (ctx.dropQueued path dropped) := by
  unfold Ctx.dropQueued
  cases ctx.runtime.supersededRuns.lookup path with
  | none => exact .refl ctx
  | some queue =>
    refine Quiet.trans (b := { ctx with runtime := _ }) ?_ (quiet_cancelRuns _ _)
    exact .of_eq rfl rfl rfl rfl rfl

/-! ## Changes of the graph -/

theorem Ctx.outline_congr {ctx ctx' : Ctx} (h : ∀ path, ctx'.node? path = ctx.node? path) :
    ctx'.outline = ctx.outline := by
  funext path
  unfold Ctx.outline
  rw [h]

/-- A change of one node that keeps its outline. -/
theorem outline_updateNode {f : Node → Node} (hf : ∀ node, (f node).outline = node.outline)
    (g : ContextGraph) (path q : NodePath) :
    ((g.updateNode path f).nodes.lookup q).map Node.outline =
      (g.nodes.lookup q).map Node.outline := by
  rw [ContextGraph.lookup_updateNode]
  by_cases hq : q = path
  · rw [if_pos hq, hq]
    cases g.nodes.lookup path with
    | none => rfl
    | some node => exact congrArg some (hf node)
  · rw [if_neg hq]

theorem KeepsReasons.trans {a b c : Ctx} (h : KeepsReasons a b) (h' : KeepsReasons b c) :
    KeepsReasons a c := fun path reason hreason => by
  obtain ⟨q, hq⟩ := h' path reason hreason
  exact h q reason hq

/-- The block reasons depend on the nodes alone. -/
theorem keepsReasons_of_nodes {ctx ctx' : Ctx} (h : ctx'.graph.nodes = ctx.graph.nodes) :
    KeepsReasons ctx ctx' := by
  intro path reason hreason
  unfold Ctx.reasonAt Ctx.node? at hreason
  rw [h] at hreason
  exact ⟨path, hreason⟩

/-- Each node keeps its block reason, or shows none. -/
theorem keepsReasons_updateNode {ctx : Ctx} {f : Node → Node}
    (hf : ∀ node, ∀ reason ∈ (f node).blockReason, reason ∈ node.blockReason) {g : ContextGraph}
    (hg : g.nodes = ctx.graph.nodes) (path : NodePath) {ctx' : Ctx}
    (hgraph : ctx'.graph.nodes = (g.updateNode path f).nodes) : KeepsReasons ctx ctx' := by
  intro q reason hreason
  unfold Ctx.reasonAt Ctx.node? at hreason
  rw [hgraph, ContextGraph.lookup_updateNode, hg] at hreason
  refine ⟨q, ?_⟩
  by_cases hq : q = path
  · rw [if_pos hq, ← hq] at hreason
    unfold Ctx.reasonAt Ctx.node?
    cases hnode : ctx.graph.nodes.lookup q with
    | none =>
      rw [hnode] at hreason
      cases hreason
    | some node =>
      rw [hnode] at hreason
      exact hf node reason hreason
  · rwa [if_neg hq] at hreason

/-- A change of the edges that leaves the ledger alone. -/
theorem Rewires.rewire {ctx : Ctx} {f : ContextGraph → ContextGraph} {edges : List Edge}
    (hnodes : (f ctx.graph).nodes = ctx.graph.nodes) (hedges : (f ctx.graph).edges = edges) :
    Rewires ctx (ctx.modifyGraph f) ctx.outline edges where
  outline := Ctx.outline_congr fun path => by
    unfold Ctx.node? Ctx.modifyGraph
    rw [hnodes]
  edges := hedges
  unsettled := rfl
  reasons := keepsReasons_of_nodes hnodes

/-- A change of one node that keeps its outline. -/
theorem Rewires.modifyNode {ctx : Ctx} {path : NodePath} {f : Node → Node}
    (hf : ∀ node, (f node).outline = node.outline)
    (hreason : ∀ node, ∀ reason ∈ (f node).blockReason, reason ∈ node.blockReason) :
    Rewires ctx (ctx.modifyGraph fun g => g.updateNode path f) ctx.outline ctx.graph.edges where
  outline := funext (outline_updateNode hf ctx.graph path)
  edges := ContextGraph.updateNode_edges _ _ _
  unsettled := rfl
  reasons := keepsReasons_updateNode hreason rfl path rfl

theorem Quiet.outline {a b : Ctx} (h : Quiet a b) : b.outline = a.outline := by
  funext path
  have := congrArg (Option.map Node.outline) (h.node path)
  simpa [Ctx.outline, Option.map_map, Function.comp_def] using this

theorem Quiet.reasons {a b : Ctx} (h : Quiet a b) : KeepsReasons a b := by
  have hsame : ∀ path, b.reasonAt path = a.reasonAt path := fun path => by
    have hessence := congrArg (Option.bind · Node.blockReason) (h.node path)
    rwa [Option.bind_map, Option.bind_map] at hessence
  exact fun path reason hreason => ⟨path, hsame path ▸ hreason⟩

theorem Rewires.quiet {a b c : Ctx} {outline : NodePath → Option Outline} {edges : List Edge}
    (h : Rewires a b outline edges) (hq : Quiet b c) : Rewires a c outline edges where
  outline := hq.outline.trans h.outline
  edges := hq.edges.trans h.edges
  reasons := h.reasons.trans hq.reasons
  unsettled := by
    cases hs : c.settled with
    | false => rfl
    | true => exact absurd (hq.settled hs) (by simp [h.unsettled])

/-! ## Programs of moves -/

section Moving

variable {env : Substrate} {lim : Limits} {start : Ctx}

theorem moves_step {ctx ctx' : Ctx} (h : Moves env lim start ctx) (hm : Move env lim ctx ctx') :
    Moves env lim start ctx' := h.tail hm

theorem moving_modify {f : Ctx → Ctx} (h : ∀ ctx, Move env lim ctx (f ctx)) :
    Keeps (Moves env lim start) (modify f : M Unit) :=
  Keeps.modify fun ctx hctx => moves_step hctx (h ctx)

theorem moving_quiet {f : Ctx → Ctx} (h : ∀ ctx, Quiet ctx (f ctx)) :
    Keeps (Moves env lim start) (modify f : M Unit) := moving_modify fun ctx => .quiet (h ctx)

/-- A change of one node that keeps its outline. -/
theorem moving_modifyNode (path : NodePath) {f : Node → Node}
    (hf : ∀ node, (f node).outline = node.outline)
    (hreason : ∀ node, ∀ reason ∈ (f node).blockReason, reason ∈ node.blockReason) :
    Keeps (Moves env lim start) (modifyNode path f) :=
  moving_modify fun _ => .edit (.modifyNode hf hreason)

theorem blockReason_mapCell {f : CellFields → CellFields} (node : Node) :
    (node.mapCell f).blockReason = node.blockReason := by
  unfold Node.mapCell
  split <;> rfl

theorem blockReason_mapTransformer {f : TransformerFields → TransformerFields} (node : Node) :
    (node.mapTransformer f).blockReason = node.blockReason := by
  unfold Node.mapTransformer
  split <;> rfl

/-- A change of a cell that keeps its celltype. -/
theorem outline_mapCell {f : CellFields → CellFields}
    (hf : ∀ fields, (f fields).config.celltype = fields.config.celltype) (node : Node) :
    (node.mapCell f).outline = node.outline := by
  unfold Node.mapCell Node.outline Node.isCell Node.celltype
  cases h : node.body <;> simp [h, hf]

/-- A change of a transformer that keeps the celltype of its result. -/
theorem outline_mapTransformer {f : TransformerFields → TransformerFields}
    (hf : ∀ fields, (f fields).config.celltypeOf "result" = fields.config.celltypeOf "result")
    (node : Node) : (node.mapTransformer f).outline = node.outline := by
  unfold Node.mapTransformer Node.outline Node.isCell Node.celltype
  cases h : node.body <;> simp [h, hf]

theorem moving_mapCell (path : NodePath) {f : CellFields → CellFields}
    (hf : ∀ fields, (f fields).config.celltype = fields.config.celltype) :
    Keeps (Moves env lim start) (modifyNode path (Node.mapCell f)) :=
  moving_modifyNode path (outline_mapCell hf) fun node _ h => blockReason_mapCell (f := f) node ▸ h

theorem moving_mapTransformer (path : NodePath) {f : TransformerFields → TransformerFields}
    (hf : ∀ fields, (f fields).config.celltypeOf "result" = fields.config.celltypeOf "result") :
    Keeps (Moves env lim start) (modifyNode path (Node.mapTransformer f)) :=
  moving_modifyNode path (outline_mapTransformer hf) fun node _ h =>
    blockReason_mapTransformer (f := f) node ▸ h

/-! ## Celltypes -/

/-- The node exists, and is of a celltype or may become so. -/
def Fits (lim : Limits) (path : NodePath) (celltype : Celltype) (ctx : Ctx) : Prop :=
  ∃ node, ctx.outline path = some node ∧
    (lim.types path celltype ∨ (∀ c, ¬ lim.types path c) ∧ node.celltype = celltype)

/-- A change of one node gives it this celltype, or keeps its outline, and leaves its block reason. -/
structure Casts (f : Node → Node) (celltype : Celltype) : Prop where
  outline : ∀ node, (f node).outline = node.outline ∨ (f node).outline = { node.outline with celltype }
  reason : ∀ node, (f node).blockReason = node.blockReason

theorem casts_mapCell {f : CellFields → CellFields} {celltype : Celltype}
    (hf : ∀ fields, (f fields).config.celltype = celltype) : Casts (Node.mapCell f) celltype := by
  refine ⟨fun node => ?_, fun node => blockReason_mapCell node⟩
  unfold Node.mapCell Node.outline Node.isCell Node.celltype
  cases h : node.body <;> simp [h, hf]

theorem casts_mapTransformer {f : TransformerFields → TransformerFields} {celltype : Celltype}
    (hf : ∀ fields, (f fields).config.celltypeOf "result" = celltype) :
    Casts (Node.mapTransformer f) celltype := by
  refine ⟨fun node => ?_, fun node => blockReason_mapTransformer node⟩
  unfold Node.mapTransformer Node.outline Node.isCell Node.celltype
  cases h : node.body <;> simp [h, hf]

theorem outline_modifyNode {ctx : Ctx} {path : NodePath} {node : Node} (f : Node → Node)
    (hnode : ctx.node? path = some node) : (ctx.modifyGraph fun g => g.updateNode path f).outline =
      Function.update ctx.outline path (some (f node).outline) := by
  funext q
  show ((ctx.graph.updateNode path f).nodes.lookup q).map Node.outline = _
  rw [ContextGraph.lookup_updateNode]
  by_cases hq : q = path
  · rw [if_pos hq, hq, Function.update_self]
    show ((ctx.node? path).map f).map Node.outline = _
    rw [hnode]
    rfl
  · rw [if_neg hq, Function.update_of_ne hq]
    rfl

/-- A write that keeps the outline of a node, or gives it a celltype that it may have. -/
theorem move_cast {ctx : Ctx} {path : NodePath} {celltype : Celltype} {f : Node → Node}
    (hf : Casts f celltype) (hfits : Fits lim path celltype ctx) :
    Move env lim ctx (ctx.modifyGraph fun g => g.updateNode path f) := by
  obtain ⟨outline, houtline, hmay⟩ := hfits
  obtain ⟨node, hnode, rfl⟩ := Option.map_eq_some_iff.mp houtline
  have hedges : (ctx.graph.updateNode path f).edges = ctx.graph.edges := by simp
  have hreasons : KeepsReasons ctx (ctx.modifyGraph fun g => g.updateNode path f) :=
    keepsReasons_updateNode (fun node _ h => hf.reason node ▸ h) rfl path rfl
  have hsame : (f node).outline = node.outline →
      Move env lim ctx (ctx.modifyGraph fun g => g.updateNode path f) := by
    intro hsame
    refine .edit ⟨⟨?_, hedges, rfl⟩, hreasons⟩
    rw [outline_modifyNode f hnode, hsame, ← houtline, Function.update_eq_self]
  rcases hf.outline node with hkeeps | hcasts
  · exact hsame hkeeps
  · rcases hmay with htypes | ⟨-, hcelltype⟩
    · refine .recast houtline htypes ⟨⟨?_, hedges, rfl⟩, hreasons⟩
      rw [outline_modifyNode f hnode, hcasts]
    · exact hsame (by rw [hcasts, ← hcelltype])

/-- A node that the turn may give a celltype. -/
theorem moving_cast {path : NodePath} {celltype : Celltype} {f : Node → Node}
    (hf : Casts f celltype) (ht : lim.types path celltype) :
    Keeps (Moves env lim start) (modifyNode path f) := by
  refine Keeps.modify fun ctx hctx => ?_
  cases hnode : ctx.node? path with
  | none =>
    refine moves_step hctx (.edit ⟨⟨funext fun q => ?_, by simp [Ctx.modifyGraph], rfl⟩,
      keepsReasons_updateNode (fun node _ h => hf.reason node ▸ h) rfl path rfl⟩)
    show ((ctx.graph.updateNode path f).nodes.lookup q).map Node.outline = _
    rw [ContextGraph.lookup_updateNode]
    by_cases hq : q = path
    · have hnone : ctx.graph.nodes.lookup path = none := hnode
      rw [if_pos hq, hq, hnone]
      unfold Ctx.outline
      rw [hnode]
      rfl
    · rw [if_neg hq]
      rfl
  | some node =>
    refine moves_step hctx (move_cast hf ⟨node.outline, ?_, Or.inl ht⟩)
    unfold Ctx.outline
    rw [hnode]
    rfl

end Moving

/-! ## Nodes that stay -/

theorem mem_nodes_iff_outline {ctx : Ctx} {path : NodePath} :
    path ∈ ctx.graph.nodes ↔ (ctx.outline path).isSome = true := by
  rw [← AList.lookup_isSome]
  unfold Ctx.outline Ctx.node?
  rw [Option.isSome_map]

theorem Ctx.outline_of_durable {ctx ctx' : Ctx} (h : ctx'.durable = ctx.durable) :
    ctx'.outline = ctx.outline := by
  funext path
  have := congrArg (Option.map Node.outline) (congrFun (congrArg Durable.node h) path)
  have houtline : ∀ node : Node, node.durable.outline = node.outline := by
    intro node
    unfold Node.outline
    rw [Node.durable_isCell, Node.durable_celltype]
    rfl
  simpa [Ctx.durable, Ctx.outline, Option.map_map, Function.comp_def, houtline] using this

theorem outline_deriveGraph (env : Substrate) (sorted : List NodePath) (ctx : Ctx) :
    (ctx.beginDerivation.deriveGraph env sorted).outline = ctx.outline :=
  Ctx.outline_of_durable (by rw [Ctx.durable_deriveGraph, Ctx.durable_beginDerivation])

theorem edges_deriveGraph (env : Substrate) (sorted : List NodePath) (ctx : Ctx) :
    (ctx.beginDerivation.deriveGraph env sorted).graph.edges = ctx.graph.edges :=
  congrArg Durable.edges
    (show (ctx.beginDerivation.deriveGraph env sorted).durable = ctx.durable by
      rw [Ctx.durable_deriveGraph, Ctx.durable_beginDerivation])

/-- A Context that is poisoned in the middle of a derivation has its nodes and edges. -/
theorem durable_raised {env : Substrate} {sorted : List NodePath} {ctx raised : Ctx}
    (h : ctx.beginDerivation.graphRaises env sorted = some raised) :
    raised.unsettle.poison.durable = ctx.durable := by
  rw [Ctx.durable_poison, Ctx.durable_unsettle, Ctx.durable_graphRaises h, Ctx.durable_beginDerivation]

theorem outline_raised {env : Substrate} {sorted : List NodePath} {ctx raised : Ctx}
    (h : ctx.beginDerivation.graphRaises env sorted = some raised) :
    raised.unsettle.poison.outline = ctx.outline := Ctx.outline_of_durable (durable_raised h)

theorem edges_raised {env : Substrate} {sorted : List NodePath} {ctx raised : Ctx}
    (h : ctx.beginDerivation.graphRaises env sorted = some raised) :
    raised.unsettle.poison.graph.edges = ctx.graph.edges := congrArg Durable.edges (durable_raised h)

theorem moving_deriveAll {env : Substrate} {lim : Limits} {start : Ctx} :
    Keeps (Moves env lim start) (deriveAll env) := by
  refine deriveAll_keeps_of (fun ctx sorted hs hr _ hctx => moves_step hctx (.derive hs hr))
    (fun ctx sorted raised hraise hctx => moves_step hctx (.raise hraise))
    fun ctx hctx => moves_step hctx (.edit ?_)
  have hdurable : ctx.beginDerivation.poison.durable = ctx.durable :=
    (Ctx.durable_poison _).trans (Ctx.durable_beginDerivation ctx)
  exact ⟨⟨Ctx.outline_of_durable hdurable, congrArg Durable.edges hdurable, rfl⟩,
    (quiet_syncModuleRefholds ctx).reasons.trans (keepsReasons_of_nodes rfl)⟩

theorem outline_updateRun (path : NodePath) (generation : Nat) (f : RunRecord → RunRecord)
    (ctx : Ctx) : (ctx.updateRun path generation f).outline = ctx.outline := by
  unfold Ctx.updateRun
  split
  · rfl
  · split <;> rfl

theorem edges_updateRun (path : NodePath) (generation : Nat) (f : RunRecord → RunRecord)
    (ctx : Ctx) : (ctx.updateRun path generation f).graph.edges = ctx.graph.edges := by
  unfold Ctx.updateRun
  split
  · rfl
  · split <;> rfl

theorem isSome_update {outline : NodePath → Option Outline} {path q : NodePath} {node : Outline}
    (h : (outline q).isSome = true) :
    (Function.update outline path (some node) q).isSome = true := by
  by_cases hq : q = path
  · rw [hq, Function.update_self]
    rfl
  · rwa [Function.update_of_ne hq]

/-- A gentle move keeps every node. -/
theorem Move.stays {env : Substrate} {lim : Limits} {ctx ctx' : Ctx}
    (h : Move env lim.gentle ctx ctx') {path : NodePath} (hp : path ∈ ctx.graph.nodes) :
    path ∈ ctx'.graph.nodes := by
  rw [mem_nodes_iff_outline] at hp ⊢
  cases h with
  | quiet h => rwa [h.outline]
  | edit h => rwa [h.outline]
  | derive hs hr => rwa [outline_deriveGraph]
  | raise hr => rwa [outline_raised hr]
  | recast hn ht h =>
    rw [h.outline]
    exact isSome_update hp
  | drop keep h => rwa [h.outline]
  | connect hg hr h => rwa [h.outline]
  | create hn hc h =>
    rw [h.outline]
    exact isSome_update hp
  | remove path hr _ => exact hr.elim
  | retype hn ht h =>
    rw [h.outline]
    exact isSome_update hp
  | copy hc => exact hc.elim
  | load hl _ _ _ => exact hl.elim
  | deliver hd => rwa [outline_updateRun]

section Alive

variable {env : Substrate} {lim : Limits} {start : Ctx} {α : Type} {P : Ctx → Prop}

/-- Gentle moves keep this. -/
def Steadfast (env : Substrate) (lim : Limits) (P : Ctx → Prop) : Prop :=
  ∀ ctx ctx', Move env lim.gentle ctx ctx' → P ctx → P ctx'

theorem Steadfast.and {Q : Ctx → Prop} (hP : Steadfast env lim P) (hQ : Steadfast env lim Q) :
    Steadfast env lim fun ctx => P ctx ∧ Q ctx :=
  fun ctx ctx' hm h => ⟨hP ctx ctx' hm h.1, hQ ctx ctx' hm h.2⟩

theorem steadfast_true : Steadfast env lim fun _ => True := fun _ _ _ h => h

theorem steadfast_node (path : NodePath) : Steadfast env lim fun ctx => path ∈ ctx.graph.nodes :=
  fun _ _ hm h => hm.stays h

/-- The outline of a node after a gentle move. -/
theorem Move.outline_gentle {ctx ctx' : Ctx} (h : Move env lim.gentle ctx ctx') {path : NodePath}
    {node : Outline} (hnode : ctx.outline path = some node) : ∃ node', ctx'.outline path = some node' ∧
      (node' = node ∨ lim.types path node'.celltype) := by
  have hsame : ctx'.outline = ctx.outline → ∃ node', ctx'.outline path = some node' ∧
      (node' = node ∨ lim.types path node'.celltype) := fun he =>
    ⟨node, by rw [he, hnode], Or.inl rfl⟩
  have hupdate : ∀ {q : NodePath} {other : Outline}, (q = path → lim.types path other.celltype) →
      ctx'.outline = Function.update ctx.outline q (some other) →
      ∃ node', ctx'.outline path = some node' ∧ (node' = node ∨ lim.types path node'.celltype) := by
    intro q other ht he
    by_cases hq : path = q
    · exact ⟨other, by rw [he, hq, Function.update_self], Or.inr (ht hq.symm)⟩
    · exact ⟨node, by rw [he, Function.update_of_ne hq, hnode], Or.inl rfl⟩
  cases h with
  | quiet h => exact hsame h.outline
  | edit h => exact hsame h.outline
  | derive hs hr => exact hsame (outline_deriveGraph env _ ctx)
  | raise hr => exact hsame (outline_raised hr)
  | recast hn ht h => exact hupdate (fun hq => hq ▸ ht) h.outline
  | drop keep h => exact hsame h.outline
  | connect hg hr h => exact hsame h.outline
  | create hn hc h =>
    refine hupdate (fun hq => absurd ?_ hn) h.outline
    rw [hq, mem_nodes_iff_outline, hnode]
    rfl
  | remove path hr _ => exact hr.elim
  | retype hn ht h => exact hupdate (fun hq => hq ▸ ht) h.outline
  | copy hc => exact hc.elim
  | load hl _ _ _ => exact hl.elim
  | deliver hd => exact hsame (outline_updateRun _ _ _ ctx)

theorem steadfast_fits (path : NodePath) (celltype : Celltype) :
    Steadfast env lim (Fits lim path celltype) := by
  rintro ctx ctx' hm ⟨node, hnode, hmay⟩
  obtain ⟨node', hnode', hkept⟩ := hm.outline_gentle hnode
  refine ⟨node', hnode', hmay.imp id fun hfixed => ⟨hfixed.1, ?_⟩⟩
  rcases hkept with rfl | ht
  · exact hfixed.2
  · exact absurd ht (hfixed.1 _)

/-- Moves, with something that gentle ones have kept. -/
def Alive (env : Substrate) (lim : Limits) (start : Ctx) (P : Ctx → Prop) (ctx : Ctx) : Prop :=
  Moves env lim start ctx ∧ P ctx

theorem Alive.extend (hP : Steadfast env lim P) {ctx ctx' : Ctx} (h : Alive env lim start P ctx)
    (hm : Moves env lim.gentle ctx ctx') : Alive env lim start P ctx' := by
  induction hm with
  | refl => exact h
  | tail _ hmove ih => exact ⟨moves_step ih.1 hmove.of_gentle, hP _ _ hmove ih.2⟩

/-- A program of gentle moves keeps what they keep. -/
theorem triple_alive (hP : Steadfast env lim P) {program : M α} {Q : Ctx → Prop} (h : ∀ start, Triple
      (fun ctx => Moves env lim.gentle start ctx ∧ Q ctx) program
      (fun _ => Moves env lim.gentle start) (Moves env lim.gentle start)) :
    Triple (fun ctx => Alive env lim start P ctx ∧ Q ctx) program
      (fun _ => Alive env lim start P) (Alive env lim start P) := by
  intro ctx hctx
  have := h ctx ctx ⟨ReflTransGen.refl, hctx.2⟩
  cases hp : program ctx with
  | ok a ctx' => rw [hp] at this; exact hctx.1.extend hP this
  | error e ctx' => rw [hp] at this; exact hctx.1.extend hP this

theorem keeps_alive (hP : Steadfast env lim P) {program : M α} (h : Moving env lim.gentle program) :
    Keeps (Alive env lim start P) program := by
  refine (triple_alive (Q := fun _ => True) hP fun start => ?_).conseq
    (fun _ hc => ⟨hc, trivial⟩) (fun _ _ hc => hc) fun _ hc => hc
  exact (h start).conseq (fun _ hc => hc.1) (fun _ _ hc => hc) fun _ hc => hc

/-- A node gets a celltype that it is known to fit. -/
theorem alive_cast (hP : Steadfast env lim P) {path : NodePath} {celltype : Celltype}
    {f : Node → Node} (hf : Casts f celltype) (hfits : ∀ ctx, P ctx → Fits lim path celltype ctx) :
    Keeps (Alive env lim start P) (modifyNode path f) := by
  refine Keeps.modify fun ctx hctx => hctx.extend hP (ReflTransGen.single ?_)
  exact move_cast hf (hfits ctx hctx.2)

end Alive

end SeamlessWorkflow
