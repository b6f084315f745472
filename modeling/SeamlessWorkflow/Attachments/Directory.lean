import SeamlessWorkflow.Library.FileCalls
import Mathlib.Algebra.Ring.Nat
import Mathlib.Data.Char
import Mathlib.Data.List.Lex
import Mathlib.Data.List.Sort

/-!
# Delivery to a directory mount

The part of the file system transport that reads and writes a directory: the fingerprint of a mount, the
index that it reads back, and `_write_directory`, which brings the directory from what it is to what the
delivered index says. Strings are lists of characters. The name of a file below a mount is the list of
its parts, what `split('/')` makes of it.
-/

namespace SeamlessWorkflow

namespace DirectoryMount

open FileTree

abbrev Name := List Char

/-- A name in an index, or a path relative to the mount, by its parts. -/
abbrev Key := List Name

abbrev Bytes := List UInt8

abbrev Files := Tree Name Bytes

/-- What the transport calls: the compression packages, the buffers behind checksums, and a source of
random names. `V` is what an index maps its names to. -/
structure Packages (V : Type) where
  gzip : Bytes → Bytes
  gunzip : Bytes → Option Bytes
  zstd : Bytes → Bytes
  unzstd : Bytes → Option Bytes
  /-- `_resolve(Checksum(value))`. -/
  resolve : V → Option Bytes
  /-- `secrets.token_hex(8)`. -/
  token : Files → Name

structure Limits where
  maxFileSize : Nat := 1024 ^ 3
  maxFiles : Nat := 100000
  maxTreeSize : Nat := 10 * 1024 ^ 3

/-- What a delivery reads of a registration. `path` is the real path that the mount path had when it was
reserved. -/
structure Registration where
  path : List Name
  closed : Bool := false
  mode : String := "rw"
  authority : String := "file"
  deriving DecidableEq, Repr

inductive Failure
  | os (errno : Errno)
  | mountUnregistered
  | notDirectory
  /-- Directory mounts do not follow leaf symlinks. -/
  | leafSymlink
  | scanLimit
  | fileSizeLimit
  | corrupt
  /-- Directory index must be a mapping. -/
  | notMapping
  | fileCountLimit
  /-- Unsafe directory path. -/
  | unsafePath (name : Key)
  /-- Duplicate decompressed directory path. -/
  | duplicatePath (key : Key)
  /-- Directory mount closed during write. -/
  | closedDuringWrite
  /-- Directory path escapes mount through a symlink. -/
  | escapes
  | unresolved
  | deliveryLimit
  /-- Directory leaf changed. -/
  | leafChanged (name : Key)
  deriving DecidableEq, Repr

abbrev M := EStateM Failure Files

/-- A call on the tree. -/
def call {α : Type} (m : FileM Name Bytes α) : M α := fun t =>
  match m t with
  | .ok a t' => .ok a t'
  | .error errno t' => .error (.os errno) t'

/-- `try: body finally: cleanup`. -/
def andFinally {α : Type} (body : M α) (cleanup : M Unit) : M α := fun t =>
  match body t with
  | .ok a t' =>
    match cleanup t' with
    | .ok _ t'' => .ok a t''
    | .error e t'' => .error e t''
  | .error e t' =>
    match cleanup t' with
    | .ok _ t'' => .error e t''
    | .error e' t'' => .error e' t''

/-! ## Names -/

def gz : Name := ['.', 'g', 'z']

def zst : Name := ['.', 'z', 's', 't']

/-- `name.endswith(suffix)`, for a suffix without a slash. -/
def endsWith (suffix : Name) (key : Key) : Bool := suffix.isSuffixOf (key.getLastD [])

/-- Change the last part. -/
def mapLast (f : Name → Name) (key : Key) : Key := key.dropLast ++ [f (key.getLastD [])]

/-- The name in the index of a file in the directory. -/
def decompressedKey (relative : Key) : Key :=
  if endsWith gz relative then mapLast (fun name => name.take (name.length - 3)) relative
  else if endsWith zst relative then mapLast (fun name => name.take (name.length - 4)) relative
  else relative

/-- The file in the directory that a new name of the index goes to. -/
def defaultName (name : Key) : Key :=
  if endsWith gz name then mapLast (· ++ gz) name
  else if endsWith zst name then mapLast (· ++ zst) name
  else name

/-- `_temporary`. -/
def temporary (name : Name) : Bool :=
  ['.'].isPrefixOf name && decide (['.', 's', 'e', 'a', 'm', 'l', 'e', 's', 's', '-'] <:+: name) &&
    ['.', 't', 'm', 'p'].isSuffixOf name

/-- The name that `_atomic_write` writes to first. -/
def temporaryName (name token : Name) : Name :=
  ['.'] ++ name ++ ['.', 's', 'e', 'a', 'm', 'l', 'e', 's', 's', '-'] ++ token ++ ['.', 't', 'm', 'p']

/-- Does `_write_directory` refuse a name as unsafe? -/
def isUnsafe (name : Key) : Bool :=
  decide (name = []) || name.any fun part => decide (part = [] ∨ part = ['.'] ∨ part = ['.', '.'])

/-! ## Reading -/

structure Fingerprint where
  root : Tree.Status
  files : List (Key × Option Tree.Status)
  deriving DecidableEq, Repr

/-- `_stat`. -/
def statOf (t : Files) (path : List Name) : Except Failure (Option Tree.Status) :=
  match t.stat path with
  | .ok status => .ok (some status)
  | .error .notFound => .ok none
  | .error errno => .error (.os errno)

/-- The files below a mount that a fingerprint counts. -/
def mountedFiles (reg : Registration) (t : Files) : List Key :=
  (t.walkFiles reg.path).filter fun relative => !temporary (relative.getLastD [])

/-- `_fingerprint` of a directory mount. -/
def fingerprint (limits : Limits) (reg : Registration) (t : Files) :
    Except Failure (Option Fingerprint) :=
  match statOf t reg.path with
  | .error e => .error e
  | .ok none => .ok none
  | .ok (some root) =>
    if !root.isDir then .error .notDirectory
    else if (mountedFiles reg t).any fun relative => t.pathIsLink (reg.path ++ relative) then
      .error .leafSymlink
    else if limits.maxFiles < (mountedFiles reg t).length then .error .scanLimit
    else .ok (some ⟨root, (mountedFiles reg t).map fun relative =>
      (relative, (t.stat (reg.path ++ relative)).toOption)⟩)

variable {V : Type}

/-- `_decode`. -/
def decode (pk : Packages V) (limits : Limits) (path : List Name) (data : Bytes) :
    Except Failure Bytes :=
  let limited (content : Option Bytes) : Except Failure Bytes :=
    match content with
    | some content => .ok (content.take (limits.maxFileSize + 1))
    | none => .error .corrupt
  if data = [] then .ok []
  else if endsWith gz path then limited (pk.gunzip data)
  else if endsWith zst path then limited (pk.unzstd data)
  else .ok data

/-- `_encode`. -/
def encode (pk : Packages V) (path : List Name) (data : Bytes) : Bytes :=
  if data = [] then []
  else if endsWith gz path then pk.gzip data
  else if endsWith zst path then pk.zstd data
  else data

/-- `_read_bytes`. -/
def readBytes (pk : Packages V) (limits : Limits) (t : Files) (path : List Name) :
    Except Failure Bytes :=
  match t.read path with
  | .error errno => .error (.os errno)
  | .ok data =>
    if limits.maxFileSize < data.length then .error .fileSizeLimit
    else match decode pk limits path data with
      | .error e => .error e
      | .ok content =>
        if limits.maxFileSize < content.length then .error .fileSizeLimit else .ok content

/-! ## Writing -/

/-- Read something off the tree. -/
def look {α : Type} (f : Files → Except Failure α) : M α := fun t =>
  match f t with
  | .ok a => .ok a t
  | .error e => .error e t

/-- Remove a file, if it is there. -/
def unlinkIfFound (path : List Name) : M Unit :=
  tryCatch (call (unlink path)) fun e => if e = .os .notFound then pure () else throw e

/-- Is a file as it was expected? Where one was, its mode is taken over first, so it must still be
there. -/
def unchanged (expected : Option Tree.Status) (path : List Name) (t : Files) : Except Failure Bool :=
  match expected, t.stat path with
  | some _, .error errno => .error (.os errno)
  | _, _ =>
    match statOf t path with
    | .error e => .error e
    | .ok found => .ok (decide (found = expected))

/-- The `try` of `_atomic_write`: was the file written? -/
def writeThrough (pk : Packages V) (temporary path : List Name) (content : Bytes)
    (expected : Option Tree.Status) : M Bool := do
  call (create temporary (encode pk path content))
  let same ← look (unchanged expected path)
  if same then do
    call (replace temporary path)
    pure true
  else pure false

/-- `_atomic_write`. -/
def atomicWrite (pk : Packages V) (path : List Name) (content : Bytes)
    (expected : Option Tree.Status) : M Bool := do
  let t ← get
  let temporary := path.dropLast ++ [temporaryName (path.getLastD []) (pk.token t)]
  andFinally (writeThrough pk temporary path content expected) (unlinkIfFound temporary)

/-- The names that the files of a directory have in its index. -/
def physicalNames : List Key → List (Key × Key) → Except Failure (List (Key × Key))
  | [], names => .ok names
  | relative :: files, names =>
    let key := decompressedKey relative
    if (names.lookup key).isSome then .error (.duplicatePath key)
    else physicalNames files (names ++ [(key, relative)])

/-- The file of a name: the one that is there for it, or a new one. -/
def physicalName (names : List (Key × Key)) (name : Key) : Key :=
  (names.lookup name).getD (defaultName name)

/-- The path that a name of the index is written to. -/
def leafPath (reg : Registration) (names : List (Key × Key)) (name : Key) : List Name :=
  reg.path ++ physicalName names name

/-- Does a path lead into the mount, once its links are resolved? -/
def leadsInside (reg : Registration) (t : Files) (path : List Name) : Bool :=
  reg.path.isPrefixOf (t.realpath path)

/-- Is the content of a file the one to write? -/
def holds (pk : Packages V) (limits : Limits) (path : List Name) (data : Bytes)
    (expected : Option Tree.Status) (t : Files) : Except Failure Bool :=
  match expected with
  | none => .ok false
  | some _ =>
    match readBytes pk limits t path with
    | .error e => .error e
    | .ok old => .ok (decide (old = data))

/-- The part of a round that writes a content to a path. -/
def writeContent (pk : Packages V) (limits : Limits) (path : List Name) (name : Key) (data : Bytes) :
    M Unit := do
  call (makedirs path.dropLast)
  let expected ← look fun t => statOf t path
  let same ← look (holds pk limits path data expected)
  if same then pure ()
  else do
    let written ← atomicWrite pk path data expected
    if written then pure () else throw (.leafChanged name)

/-- One round of the loop of `_write_directory`, with the total size so far. -/
def writeLeaf (pk : Packages V) (limits : Limits) (reg : Registration) (names : List (Key × Key))
    (total : Nat) (item : Key × V) : M Nat := do
  let path := leafPath reg names item.1
  let t ← get
  if reg.closed then throw .closedDuringWrite
  else if leadsInside reg t path = false then throw .escapes
  else match pk.resolve item.2 with
    | none => throw .unresolved
    | some data =>
      if limits.maxTreeSize < total + data.length then throw .deliveryLimit
      else do
        writeContent pk limits path item.1 data
        pure (total + data.length)

/-- The loop of `_write_directory`. -/
def writeLeaves (pk : Packages V) (limits : Limits) (reg : Registration) (names : List (Key × Key)) :
    Nat → List (Key × V) → M Unit
  | _, [] => pure ()
  | total, item :: items => do
    let total ← writeLeaf pk limits reg names total item
    writeLeaves pk limits reg names total items

/-- Remove a file that is not in the index. -/
def unlinkStale (reg : Registration) (index : List (Key × V)) (relative : Key) : M Unit :=
  if temporary (relative.getLastD []) ∨ (index.lookup (decompressedKey relative)).isSome then pure ()
  else call (unlink (reg.path ++ relative))

/-- Remove a directory, if that is possible. -/
def rmdirIfEmpty (reg : Registration) (relative : Key) : M Unit :=
  tryCatch (call (rmdir (reg.path ++ relative))) fun _ => pure ()

/-- Deeper directories first. -/
def bottomUp (dirs : List Key) : List Key := dirs.insertionSort fun a b => b.length ≤ a.length

/-- The cleanup of `_write_directory`: files that are not in the index, and empty directories. It goes
bottom up, so a directory comes after what is below it. Links to directories are listed beside the
directories, but they cannot be removed as such. -/
def cleanUp (reg : Registration) (index : List (Key × V)) : M Unit := do
  let t ← get
  (t.walkFiles reg.path).forM (unlinkStale reg index)
  (bottomUp (t.walkDirs reg.path)).forM (rmdirIfEmpty reg)

/-- What `json.loads` makes of the content of a delivery. -/
inductive IndexValue (V : Type)
  | null
  | mapping (index : List (Key × V))
  | other

/-- The files of a fingerprint. -/
def seenFiles (expected : Option Fingerprint) : List Key :=
  match expected with
  | some seen => seen.files.map Prod.fst
  | none => []

/-- `sorted(index.items())`. -/
def sortedItems (index : List (Key × V)) : List (Key × V) :=
  index.insertionSort fun a b => ['/'].intercalate a.1 ≤ ['/'].intercalate b.1

/-- Does delivery remove what is not in the index? -/
def cleans (reg : Registration) : Bool := reg.mode = "w" ∨ reg.authority = "cell"

/-- The part of `_write_directory` that changes the directory. -/
def writeIndex (pk : Packages V) (limits : Limits) (reg : Registration) (names : List (Key × Key))
    (index : List (Key × V)) : M Unit := do
  call (makedirs reg.path)
  writeLeaves pk limits reg names 0 (sortedItems index)
  if cleans reg then cleanUp reg index else pure ()

/-- `_write_directory`: was the directory as it was expected? -/
def writeDirectory (pk : Packages V) (limits : Limits) (reg : Registration)
    (expected : Option Fingerprint) : IndexValue V → M Bool
  | .null => do
    let found ← look (fingerprint limits reg)
    pure (decide (found = expected))
  | .other => throw .notMapping
  | .mapping index =>
    if limits.maxFiles < index.length then throw .fileCountLimit
    else match index.find? fun item => isUnsafe item.1 with
      | some item => throw (.unsafePath item.1)
      | none => do
        let found ← look (fingerprint limits reg)
        if found ≠ expected then pure false
        else do
          let names ← look fun _ => physicalNames (seenFiles expected) []
          writeIndex pk limits reg names index
          pure true

/-- What the transport reports of a delivery. -/
inductive DeliveryAck
  | written (baseline : Option Fingerprint)
  | conflict
  | error (e : Failure)
  deriving DecidableEq, Repr

/-- The work of `deliver` on a directory mount: its acknowledgement, and the tree it leaves. -/
def deliver (pk : Packages V) (limits : Limits) (reg : Registration) (expected : Option Fingerprint)
    (index : IndexValue V) (t : Files) : DeliveryAck × Files :=
  if reg.closed then (.error .mountUnregistered, t)
  else match writeDirectory pk limits reg expected index t with
    | .error e t' => (.error e, t')
    | .ok false t' => (.conflict, t')
    | .ok true t' =>
      match fingerprint limits reg t' with
      | .ok baseline => (.written baseline, t')
      | .error e => (.error e, t')

end DirectoryMount

end SeamlessWorkflow
