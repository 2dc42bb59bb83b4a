import Scriptlet.Scalar

/-!
Data as it is exchanged in files: scalars, lists, and objects whose members keep their order.
-/

namespace Scriptlet

inductive Json where
  | scalar (s : Scalar)
  | list (items : List Json)
  | object (members : List (String × Json))
  /-- A number that is none. No two of them are equal. -/
  | nan
  /-- A thing that no file can hold, known by the name of its kind and its text. -/
  | foreign (kind shown : String)
deriving Inhabited

namespace Json

/-- The name of the kind of a datum, as messages give it. -/
def kindName : Json → String
  | .scalar s => s.kindName
  | .list _ => "list"
  | .object _ => "dict"
  | .nan => Scalar.kindName (.number (.float Binary.nan))
  | .foreign kind _ => kind

mutual

/-- A datum written out on one line. -/
def quoted : Json → String
  | .scalar s => s.quoted
  | .list items => "[" ++ ", ".intercalate (quotedAll items) ++ "]"
  | .object members => "\x7b" ++ ", ".intercalate (quotedMembers members) ++ "\x7d"
  | .nan => Decimal.text Binary.nan
  | .foreign _ shown => shown

def quotedAll : List Json → List String
  | [] => []
  | j :: rest => j.quoted :: quotedAll rest

def quotedMembers : List (String × Json) → List String
  | [] => []
  | (name, j) :: rest => (Text.quoted name ++ ": " ++ j.quoted) :: quotedMembers rest

end

mutual

/-- Equality of data, by value and whatever the order of members. -/
def same : Json → Json → Bool
  | .scalar a, .scalar b => a.same b
  | .list as, .list bs => sameAll as bs
  | .object as, .object bs => as.length = bs.length && sameMembers as bs
  | .foreign kind shown, .foreign kind' shown' => kind = kind' && shown = shown'
  | _, _ => false

def sameAll : List Json → List Json → Bool
  | [], [] => true
  | a :: as, b :: bs => a.same b && sameAll as bs
  | _, _ => false

/-- Whether each of some members has an equal one of its name among others. -/
def sameMembers : List (String × Json) → List (String × Json) → Bool
  | [], _ => true
  | (name, a) :: as, bs =>
    (match bs.lookup name with
    | some b => a.same b
    | none => false) && sameMembers as bs

end

/-- Sets a member: in place if the name is there, else at the end. -/
def setMember (name : String) (value : Json) : List (String × Json) → List (String × Json)
  | [] => [(name, value)]
  | (other, old) :: rest =>
    if other = name then (name, value) :: rest else (other, old) :: setMember name value rest

/-- Members with distinct names; of members with one name the last counts. -/
def dedup (members : List (String × Json)) : List (String × Json) :=
  members.foldl (fun kept (name, value) => setMember name value kept) []

end Json

end Scriptlet
