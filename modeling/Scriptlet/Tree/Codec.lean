import Scriptlet.Json
import Scriptlet.Nesting
import Scriptlet.Tree

/-!
Trees as data. A node is an object whose first member `type` names its kind, followed by `start`,
`end` and its fields. Reading takes any object that names a kind and has its fields, whatever they
hold.
-/

namespace Scriptlet

/-- Why a tree cannot be written, or data read as a tree. -/
inductive TreeError where
  /-- The tree holds something of another kind. -/
  | unsupported (kind : String)
  /-- The data holds something of another kind. -/
  | invalidObject
  /-- A list or an object stands where the name of a kind belongs. -/
  | typeNotText (kind : String)
  | unknownType (shown : String)
  | missingField (type field : String)
  | tooDeep
deriving DecidableEq, Repr

def TreeError.message : TreeError → String
  | .unsupported kind => "Unsupported node for serialization: " ++ kind
  | .invalidObject => "Invalid AST object"
  | .typeNotText kind => "unhashable type: " ++ Text.quoted kind
  | .unknownType shown => "Unknown AST node type: " ++ shown
  | .missingField type field => type ++ " object is missing field " ++ Text.quoted field
  | .tooDeep => "Tree nests too deeply"

namespace Tree

mutual

/-- A tree as data. -/
def encode : Tree → Except TreeError Json
  | .scalar s => .ok (.scalar s)
  | .list items => do return .list (← encodeAll items)
  | .node kind start stop fields => do
    let start ← encode start
    let stop ← encode stop
    let values ← encodeAll fields
    return .object (("type", .scalar (.text kind.name)) :: ("start", start) :: ("end", stop) ::
      kind.fields.zip values)
  | .nan _ => .ok .nan
  | .foreign j => .error (.unsupported j.kindName)

def encodeAll : List Tree → Except TreeError (List Json)
  | [] => .ok []
  | t :: rest => do
    let first ← encode t
    let others ← encodeAll rest
    return first :: others

end

/-- The kind that the `type` member of an object names. -/
def kindOf : Option Json → Except TreeError NodeKind
  | none => .error (.unknownType (Scalar.display .null))
  | some (.scalar s) =>
    match s with
    | .text name =>
      match NodeKind.ofName? name with
      | some kind => .ok kind
      | none => .error (.unknownType name)
    | other => .error (.unknownType other.display)
  | some .nan => .error (.unknownType (Json.quoted .nan))
  | some (.foreign _ shown) => .error (.unknownType shown)
  | some other => .error (.typeNotText other.kindName)

/-- What a missing field holds, if it may be missing. -/
def defaultField (kind : NodeKind) (field : String) : Except TreeError Tree :=
  if kind = .nullLiteral then .ok .null else .error (.missingField kind.name field)

/-- Puts the decoded members in the order of a kind's fields. The first fault in that order counts,
be it a missing field or a member that cannot be decoded. -/
def pickFields (kind : NodeKind) (members : List (String × Except TreeError Tree)) :
    List String → Except TreeError (List Tree)
  | [] => .ok []
  | field :: rest => do
    let first ← (members.lookup field).getD (defaultField kind field)
    let others ← pickFields kind members rest
    return first :: others

/-- Builds a node from decoded members. -/
def ofMembers (type : Option Json) (members : List (String × Except TreeError Tree)) :
    Except TreeError Tree := do
  let kind ← kindOf type
  let start ← (members.lookup "start").getD (.ok (.int 0))
  let stop ← (members.lookup "end").getD (.ok (.int 0))
  return .node kind start stop (← pickFields kind members kind.fields)

mutual

/-- Data at a place in a document as a tree. -/
def decodeAt (place : List Nat) : Json → Except TreeError Tree
  | .scalar s => .ok (.scalar s)
  | .list items => do return .list (← decodeAll place 0 items)
  | .object members => ofMembers (members.lookup "type") (decodeMembers place 0 members)
  | .nan => .ok (.nan place)
  | .foreign .. => .error .invalidObject

/-- The parts from number `i` on of what stands at a place. -/
def decodeAll (place : List Nat) (i : Nat) : List Json → Except TreeError (List Tree)
  | [] => .ok []
  | j :: rest => do
    let first ← decodeAt (i :: place) j
    let others ← decodeAll place (i + 1) rest
    return first :: others

def decodeMembers (place : List Nat) (i : Nat) :
    List (String × Json) → List (String × Except TreeError Tree)
  | [] => []
  | (name, value) :: rest =>
    (name, decodeAt (i :: place) value) :: decodeMembers place (i + 1) rest

end

/-- Data as a tree. -/
def decode (j : Json) : Except TreeError Tree :=
  decodeAt [] j

/-- A tree as data, unless it nests too deeply. -/
def toJson (t : Tree) : Except TreeError Json :=
  if t.height < nestingLimit then t.encode else .error .tooDeep

/-- Whether two trees are the same, and whether they have the same places, unless they nest too deeply. -/
def compare (a b : Tree) : Except TreeError (Bool × Bool) :=
  if nestingLimit ≤ a.height || nestingLimit ≤ b.height then .error .tooDeep
  else .ok (a.same b, a.samePlaces b)

end Tree

end Scriptlet
