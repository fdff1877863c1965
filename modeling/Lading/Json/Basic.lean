import Lading.Entries
import Lading.Decimal.Shortest

namespace Lading

/-- A JSON value. Objects keep the order of their keys; numbers are integers of 64 bits, with or
without sign, or doubles. -/
inductive Json
  | null
  | bool (value : Bool)
  | integer (value : Int)
  | float (value : Float)
  | string (value : String)
  | array (items : List Json)
  | object (fields : List (String × Json))

namespace Json

abbrev Fields := Entries Json

instance : Inhabited Json := ⟨.null⟩

def kind : Json → String
  | .null => "null"
  | .bool _ => "boolean"
  | .integer _ | .float _ => "number"
  | .string _ => "string"
  | .array _ => "array"
  | .object _ => "object"

def string? : Json → Option String
  | .string s => some s
  | _ => none

def array? : Json → Option (List Json)
  | .array items => some items
  | _ => none

def escape (c : Char) : List Char :=
  if c = '"' then ['\\', '"']
  else if c = '\\' then ['\\', '\\']
  else if c = '\x08' then ['\\', 'b']
  else if c = '\t' then ['\\', 't']
  else if c = '\n' then ['\\', 'n']
  else if c = '\x0c' then ['\\', 'f']
  else if c = '\r' then ['\\', 'r']
  else if c.toNat < 0x20 then
    ['\\', 'u', '0', '0', Nat.digitChar (c.toNat / 16), Nat.digitChar (c.toNat % 16)]
  else [c]

def quoted (s : String) : List Char := '"' :: s.toList.flatMap escape ++ ['"']

mutual

def text : Json → List Char
  | .null => "null".toList
  | .bool true => "true".toList
  | .bool false => "false".toList
  | .integer n => Text.integer n
  | .float x => (Decimal.showCompact x).toList
  | .string s => quoted s
  | .array items => '[' :: itemsText items ++ [']']
  | .object fields => '\x7b' :: fieldsText fields ++ ['\x7d']

def itemsText : List Json → List Char
  | [] => []
  | [item] => text item
  | item :: items => text item ++ ',' :: itemsText items

def fieldsText : List (String × Json) → List Char
  | [] => []
  | [(key, value)] => quoted key ++ ':' :: text value
  | (key, value) :: fields => quoted key ++ ':' :: text value ++ ',' :: fieldsText fields

end

def compact (j : Json) : String := String.ofList j.text

end Json

end Lading
