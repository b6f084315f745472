import SeamlessWorkflow.Attachments.Policy
import SeamlessWorkflow.Library.Transition

/-!
# Reserved mount paths

The file system service keeps the registrations of all Contexts. A mount is reserved at the real path
of its file or directory, unless it overlaps a registration and one of them may change what the other
one sees.
-/

namespace SeamlessWorkflow

namespace Mount

/-- `os.sep` -/
def sep : Char := '/'

/-- A resolved absolute path. -/
structure RealPath where
  names : List String
  proper : ∀ name ∈ names, name ≠ "" ∧ sep ∉ name.toList := by decide
  deriving DecidableEq, Repr

namespace RealPath

/-- The characters of a path. That of the root of the file system is a lone separator. -/
def chars (path : RealPath) : List Char :=
  if path.names = [] then [sep] else path.names.flatMap fun name => sep :: name.toList

/-- One of the paths contains the other one, or they are the same. -/
def Overlaps (path other : RealPath) : Prop := path.names <+: other.names ∨ other.names <+: path.names

instance (path other : RealPath) : Decidable (path.Overlaps other) :=
  inferInstanceAs (Decidable (_ ∨ _))

end RealPath

/-- `Registration`, as far as reservations depend on it. -/
structure Registration where
  id : Nat
  path : RealPath
  directory : Bool
  mode : Mode
  persistent : Bool
  replaces : List Nat := []
  closing : Bool := false
  closed : Bool := false
  deriving DecidableEq, Repr

namespace Registration

/-- The registration deletes what a directory contains when it ends. -/
def cleanup (reg : Registration) : Bool := reg.directory && !reg.persistent

/-- One of the two registrations writes, or cleans up. -/
def contends (reg other : Registration) : Bool :=
  reg.mode.writes || other.mode.writes || reg.cleanup || other.cleanup

/-- The test of `reserve`, on the text of the two paths. -/
def overlap (reg other : Registration) : Bool :=
  decide (reg.path.chars = other.path.chars) ||
    (other.path.chars ++ [sep]).isPrefixOf reg.path.chars ||
    (reg.path.chars ++ [sep]).isPrefixOf other.path.chars

/-- The registration is neither closed nor closing. -/
def isOpen (reg : Registration) : Bool := !reg.closed && !reg.closing

end Registration

/-- `FileSystemService`, as far as reservations depend on it. -/
structure FileSystemService where
  registrations : List Registration := []
  stopping : Bool := false
  /-- Registrations are numbered in the order in which they are made. -/
  next : Nat := 0
  deriving DecidableEq, Repr

namespace FileSystemService

/-- `reserve`: the registration that is made, or the path of the one that it overlaps. -/
def reserve (path : RealPath) (directory : Bool) (mode : Mode) (persistent : Bool) (replaces : List Nat)
    (service : FileSystemService) : Except String (Registration × FileSystemService) :=
  let reg : Registration := { id := service.next, path, directory, mode, persistent, replaces }
  if service.stopping then .error "Filesystem service closed"
  else
    match service.registrations.find? fun other =>
        other.isOpen && other.id ∉ replaces && reg.overlap other && reg.contends other with
    | some other => .error ("Mount path overlaps existing registration: '" ++
        String.ofList reg.path.chars ++ "', '" ++ String.ofList other.path.chars ++ "'")
    | none => .ok (reg, { service with
        registrations := service.registrations ++ [reg], next := service.next + 1 })

/-- Change one registration. -/
def modify (id : Nat) (f : Registration → Registration) (service : FileSystemService) :
    FileSystemService :=
  { service with registrations := service.registrations.map fun reg =>
      if reg.id = id then f reg else reg }

/-- `unregister`, up to the queued cleanup. -/
def unregister (id : Nat) (service : FileSystemService) : FileSystemService :=
  service.modify id fun reg => { reg with closing := true }

/-- The end of the queued cleanup. -/
def finishCleanup (id : Nat) (service : FileSystemService) : FileSystemService :=
  { service with registrations :=
      (service.modify id fun reg => { reg with closed := true }).registrations.filter fun reg =>
        reg.id ≠ id }

/-- What Contexts do to the service. `set_graph` reserves with the registrations that it replaces, and
unregisters these, or the new ones when it fails. -/
inductive Event
  | reserve (path : RealPath) (directory : Bool) (mode : Mode) (persistent : Bool) (replaces : List Nat)
  | unregister (id : Nat)
  | finishCleanup (id : Nat)
  | close
  deriving DecidableEq

/-- A reservation that raises leaves the service as it is. -/
def step (service : FileSystemService) : Event → Option FileSystemService
  | .reserve path directory mode persistent replaces =>
    match service.reserve path directory mode persistent replaces with
    | .ok (_, service) => some service
    | .error _ => some service
  | .unregister id => some (service.unregister id)
  | .finishCleanup id =>
    if service.registrations.any fun reg => decide (reg.id = id) && reg.closing then
      some (service.finishCleanup id)
    else none
  | .close => some { service with stopping := true }

/-- A registration is being replaced while a registration that replaces it is open. -/
def beingReplaced (service : FileSystemService) (reg : Registration) : Bool :=
  service.registrations.any fun other => other.isOpen && decide (reg.id ∈ other.replaces)

/-- The registrations that are neither closed nor closing nor being replaced. -/
def live (service : FileSystemService) : List Registration :=
  service.registrations.filter fun reg => reg.isOpen && !service.beingReplaced reg

/-- No two live registrations overlap, when one of them writes or cleans up. -/
def Exclusive (service : FileSystemService) : Prop :=
  ∀ reg ∈ service.live, ∀ other ∈ service.live, reg.id ≠ other.id →
    reg.contends other = true → ¬reg.path.Overlaps other.path

instance (service : FileSystemService) : Decidable service.Exclusive :=
  inferInstanceAs (Decidable (∀ reg ∈ _, ∀ other ∈ _, _ → _ → ¬_))

end FileSystemService

end Mount

end SeamlessWorkflow
