import ByteLayout.Double.Shortest
import ByteLayout.Text.Quoted

/-! # Untyped data

Input values before anything is known about them: the elements of a path that may be malformed, the
settings of a mapping, and whatever is found where a descriptor is expected. -/

namespace ByteLayout

/-- A value of which only the outer form is known. -/
inductive Datum where
  | null
  | flag (b : Bool)
  | int (n : Int)
  | real (x : Double)
  | text (s : String)
  | list (items : List Datum)
  | record (fields : List (String × Datum))
  deriving Inhabited

namespace Datum

mutual

/-- The text of a datum in messages. -/
def render : Datum → String
  | .null => "None"
  | .flag true => "True"
  | .flag false => "False"
  | .int n => toString n
  | .real x => x.render
  | .text s => Text.quote s
  | .list items => "[" ++ ", ".intercalate (renderItems items) ++ "]"
  | .record fields => "\x7b" ++ ", ".intercalate (renderFields fields) ++ "\x7d"

/-- The texts of the items of a list. -/
def renderItems : List Datum → List String
  | [] => []
  | item :: rest => item.render :: renderItems rest

/-- The texts of the fields of a record. -/
def renderFields : List (String × Datum) → List String
  | [] => []
  | (key, value) :: rest => (Text.quote key ++ ": " ++ value.render) :: renderFields rest

end

/-- The name of a datum's form in messages. -/
def form : Datum → String
  | .null => "NoneType"
  | .flag _ => "bool"
  | .int _ => "int"
  | .real _ => "float"
  | .text _ => "str"
  | .list _ => "list"
  | .record _ => "dict"

/-- The whole part of a number, cut off toward zero; a flag counts as zero or one. -/
def wholePart? : Datum → Option Int
  | .int n => some n
  | .flag b => some (if b then 1 else 0)
  | .real x => x.wholePart?
  | _ => none

/-- The greatest integer that is not above a number; a flag counts as zero or one. -/
def floor? : Datum → Option Int
  | .int n => some n
  | .flag b => some (if b then 1 else 0)
  | .real x => x.floor?
  | _ => none

/-- Whether a datum counts as a flag that is set: null, zero and everything empty do not. -/
def isSet : Datum → Bool
  | .null => false
  | .flag b => b
  | .int n => n ≠ 0
  | .real x => !x.isZero
  | .text s => !s.isEmpty
  | .list items => !items.isEmpty
  | .record fields => !fields.isEmpty

end Datum

end ByteLayout
