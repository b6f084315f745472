import SeamlessWorkflow.Graph.Links
import SeamlessWorkflow.Library.PyText

/-!
# Path strings

The text of a path in a saved graph, which is written component by component, and read as a Python
expression.
-/

namespace SeamlessWorkflow

open PyText (Tables Expr)

/-- `append_item_path` and `append_slice_path`. -/
structure PathWriter where
  appendItem : String → Component → String
  appendSlice : String → Option Int → Option Int → Option Int → String

/-- One round of `_path_string`. -/
def PathWriter.append (w : PathWriter) (result : String) : Component → String
  | .slice start stop step => w.appendSlice result start stop step
  | item => w.appendItem result item

/-- `_path_string`. -/
def pathString (w : PathWriter) (path : Path) : String := path.foldl w.append ""

/-- The bound of a slice that an expression gives: `part`. -/
def slicePart (bound : Option Expr) : Option (Option Int) :=
  match PyText.boundEval bound with
  | some .none => some none
  | some (.int i) => some (some i)
  | _ => none

/-- The component of a subscript. `None`, which Python takes as a subscript, is a component of no
path. -/
def subscriptComponent : Expr → Option Component
  | .slice lower upper step =>
    (slicePart lower).bind fun start => (slicePart upper).bind fun stop =>
      (slicePart step).map fun step => .slice start stop step
  | key =>
    match PyText.literalEval key with
    | some (.str name) => some (.key name)
    | some (.int i) => some (.index i)
    | _ => none

/-- The loop of `_parse_path_string`. -/
def components : Expr → Option Path
  | .name id => if id = "x" then some [] else none
  | .attribute value attr => (components value).map (· ++ [.key attr])
  | .subscript value index =>
    (components value).bind fun path => (subscriptComponent index).map fun k => path ++ [k]
  | _ => none

/-- `relative_path`: a path that begins with a name is an attribute. -/
def relativePath : List Char → List Char
  | '.' :: rest => '.' :: rest
  | '[' :: rest => '[' :: rest
  | path => '.' :: path

/-- `_parse_path_string`: `none` when it raises. -/
def parsePathString (t : Tables) (path : String) : Option Path :=
  if path = "" then some []
  else (PyText.parse t ('x' :: relativePath path.toList)).bind components

end SeamlessWorkflow
