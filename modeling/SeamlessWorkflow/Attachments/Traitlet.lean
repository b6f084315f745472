import Mathlib.Logic.Function.Basic
import SeamlessWorkflow.Library.Transition

/-!
# A link between the hub of a cell and a trait

Both sides notify the link of their changes, on the thread that changes them. The first of these threads
dispatches what is queued meanwhile, and its own assignments notify the link again. Every locked
section, every reading of a side and every assignment to one is a step; what a notification still has to
do is a stack of the thread it runs on.
-/

namespace SeamlessWorkflow

namespace Traitlet

/-- The side that has changed: the `direction` of a dispatch. -/
inductive Side
  | hub
  | target
  deriving DecidableEq, Repr

/-- `Link`, as far as it stays the same. A value that is absent is Python's `None`; the target trait
stores what it makes of a value, or refuses it. -/
structure Link (V : Type) where
  bidirectional : Bool := true
  coerce : Option V → Option (Option V)

/-- A notification on a thread: the link's observer is still to be called, or has been. -/
inductive Notice (V : Type)
  | pending (side : Side) (value : Option V)
  | delivered
  deriving DecidableEq, Repr

/-- What the dispatching thread does on top of the dispatch: a notification, or the rest of a nested
`_dispatch`. -/
inductive Nested (V : Type)
  | notice (notice : Notice V)
  | compareHub (side : Side) (value : V)
  | compareTarget (side : Side) (value : V) (hub : Option V)
  | append (side : Side) (value : V)
  deriving DecidableEq, Repr

/-- Where the dispatching thread is in its loop: in `_process`, or before the check of the queue. -/
inductive Phase (V : Type)
  | process (side : Side)
  | setTarget (value : V)
  | readCoerced (value : V)
  | setHub (value : V)
  | drain
  deriving DecidableEq, Repr

/-- What there is while `_active_thread` is set. -/
structure Dispatch (T V : Type) where
  activeThread : T
  queue : List (Side × V) := []
  phase : Phase V
  nested : List (Nested V) := []
  deriving DecidableEq, Repr

structure State (T V : Type) where
  hub : Option V
  target : Option V
  linked : Bool := true
  dispatch : Option (Dispatch T V) := none
  /-- The notifications on a thread, but for those on top of the dispatch. -/
  notices : T → List (Notice V) := fun _ => []

variable {T V : Type} [DecidableEq T] [DecidableEq V]

/-- The value of a side. -/
def State.value (s : State T V) : Side → Option V
  | .hub => s.hub
  | .target => s.target

/-- A notification on top of what the thread is doing. -/
def State.notify (s : State T V) (thread : T) (side : Side) (value : Option V) : State T V :=
  let outside : State T V := { s with
    notices := Function.update s.notices thread (.pending side value :: s.notices thread) }
  match s.dispatch with
  | none => outside
  | some d =>
    if d.activeThread = thread then
      { s with dispatch := some { d with nested := .notice (.pending side value) :: d.nested } }
    else outside

/-- `hub.value = value`. An equal value notifies nobody. -/
def State.setHub (s : State T V) (thread : T) (value : Option V) : State T V :=
  if s.hub = value then s else ({ s with hub := value } : State T V).notify thread .hub value

namespace Link

variable (link : Link V)

/-- `setattr(target, target_attr, value)`, which only a bidirectional link observes. -/
def setTarget (s : State T V) (thread : T) (value : Option V) : Option (State T V) :=
  (link.coerce value).map fun stored =>
    if s.target = stored then s
    else if link.bidirectional then
      ({ s with target := stored } : State T V).notify thread .target stored
    else { s with target := stored }

/-- `_dispatch` of another thread than the active one, up to the end of its first locked section. -/
def enter (s : State T V) (thread : T) (side : Side) (value : Option V) : State T V :=
  match value with
  | none => s
  | some value =>
    if s.linked = false then s
    else match s.dispatch with
      | some d => { s with dispatch := some { d with queue := d.queue ++ [(side, value)] } }
      | none => { s with dispatch := some { activeThread := thread, phase := .process side } }

/-- A step of the notification on top of a thread's own. -/
def noticeStep (s : State T V) (thread : T) : Option (State T V) :=
  match s.notices thread with
  | [] => none
  | .delivered :: rest => some { s with notices := Function.update s.notices thread rest }
  | .pending side value :: rest =>
    some (enter { s with notices := Function.update s.notices thread (.delivered :: rest) }
      thread side value)

/-- A step of what is on top of the dispatch: a nested `_dispatch` drops an echo that already agrees at
both sides. -/
def nestedStep (s : State T V) (d : Dispatch T V) (rest : List (Nested V)) :
    Nested V → Dispatch T V
  | .notice .delivered => { d with nested := rest }
  | .notice (.pending side value) =>
    match value with
    | some value =>
      if s.linked then { d with nested := .compareHub side value :: .notice .delivered :: rest }
      else { d with nested := .notice .delivered :: rest }
    | none => { d with nested := .notice .delivered :: rest }
  | .compareHub side value => { d with nested := .compareTarget side value s.hub :: rest }
  | .compareTarget side value hub =>
    if hub = s.target then { d with nested := rest }
    else { d with nested := .append side value :: rest }
  | .append side value =>
    if s.linked then { d with queue := d.queue ++ [(side, value)], nested := rest }
    else { d with nested := rest }

/-- The dispatching thread is at another place of its loop. -/
def goto (s : State T V) (d : Dispatch T V) (phase : Phase V) : State T V :=
  { s with dispatch := some { d with phase := phase } }

/-- A step of the loop itself: `_process`, and the check of the queue behind it. -/
def phaseStep (s : State T V) (d : Dispatch T V) : State T V :=
  match d.phase with
  | .process .hub =>
    match s.hub with
    | none => goto s d .drain
    | some value => goto s d (.setTarget value)
  | .process .target =>
    match s.target with
    | none => goto s d .drain
    | some value => goto s d (.setHub value)
  | .setTarget value =>
    -- a value that the target refuses is logged
    let next := goto s d (if link.bidirectional then .readCoerced value else .drain)
    (link.setTarget next d.activeThread (some value)).getD (goto s d .drain)
  | .readCoerced value =>
    match s.target with
    | none => goto s d .drain
    | some coerced => if coerced = value then goto s d .drain else goto s d (.setHub coerced)
  | .setHub value => (goto s d .drain).setHub d.activeThread (some value)
  | .drain =>
    match s.linked, d.queue with
    | true, (side, _) :: queue => { s with dispatch := some { d with phase := .process side, queue } }
    | _, _ => { s with dispatch := none }

/-- A step of a thread, when it has one. -/
def step (s : State T V) (thread : T) : Option (State T V) :=
  match s.dispatch with
  | none => noticeStep s thread
  | some d =>
    if d.activeThread = thread then
      match d.nested with
      | [] => some (link.phaseStep s d)
      | frame :: rest => some { s with dispatch := some (nestedStep s d rest frame) }
    else noticeStep s thread

/-- `unlink` -/
def unlink (s : State T V) : State T V :=
  { s with linked := false, dispatch := s.dispatch.map fun d => { d with queue := [] } }

end Link

/-- Does a thread run code of the user: outside of the link, or in another observer? -/
def State.inUserCode (s : State T V) (thread : T) : Bool :=
  match s.dispatch with
  | none => true
  | some d =>
    if d.activeThread = thread then
      match d.nested with
      | .notice _ :: _ => true
      | _ => false
    else true

/-- What a thread does: go on with a notification or with the dispatch, or run code of the user. -/
inductive Event (T V : Type)
  | run (thread : T)
  | edit (thread : T) (side : Side) (value : Option V)
  | unlink (thread : T)
  deriving DecidableEq, Repr

/-- An edit that the target refuses does not change it. -/
def Link.next (link : Link V) (s : State T V) : Event T V → Option (State T V)
  | .run thread => link.step s thread
  | .edit thread side value =>
    if s.inUserCode thread then
      match side with
      | .hub => some (s.setHub thread value)
      | .target => link.setTarget s thread value
    else none
  | .unlink thread => if s.inUserCode thread then some (Link.unlink s) else none

/-- The link that `__init__` makes: it is about to write the value of the side that it starts with to
the other side. -/
def State.made (hub target : Option V) (thread : T) (initial : Option Side) : State T V :=
  let s : State T V := { hub := hub, target := target }
  match initial with
  | none => s
  | some side =>
    { s with notices := Function.update s.notices thread [.pending side (s.value side)] }

/-- Let the threads go on, in the order given. -/
def Link.follow (link : Link V) : List T → State T V → Option (State T V)
  | [], s => some s
  | thread :: threads, s => (link.step s thread).bind (follow link threads)

/-- No change is being delivered: all that is left to do is in other observers. -/
def State.Delivered (s : State T V) : Prop :=
  s.dispatch = none ∧ ∀ thread, ∀ notice ∈ s.notices thread, notice = .delivered

end Traitlet

end SeamlessWorkflow
