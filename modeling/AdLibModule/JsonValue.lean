/-!
JSON text. A value is written on one line without spaces, or with each element of an array and each
field of an object on a line of its own, two spaces further in. In texts, quotes, backslashes and
the characters below the space are escaped; all others stand for themselves.
-/
namespace AdLibModule

inductive JsonValue where
  /-- A number, in the digits in which it is to be written. -/
  | number (digits : String)
  | bool (value : Bool)
  | text (value : String)
  | array (elements : List JsonValue)
  | object (fields : List (String × JsonValue))

namespace JsonValue

/-- The lowercase hexadecimal digit of a number below 16. -/
def hexDigit (n : Nat) : Char := if n < 10 then Char.ofNat (48 + n) else Char.ofNat (87 + n)

/-- A character in a text. -/
def escapeChar (c : Char) : List Char :=
  if c = '"' then ['\\', '"']
  else if c = '\\' then ['\\', '\\']
  else if c.toNat = 8 then ['\\', 'b']
  else if c.toNat = 9 then ['\\', 't']
  else if c.toNat = 10 then ['\\', 'n']
  else if c.toNat = 12 then ['\\', 'f']
  else if c.toNat = 13 then ['\\', 'r']
  else if c.toNat < 32 then ['\\', 'u', '0', '0', hexDigit (c.toNat / 16), hexDigit (c.toNat % 16)]
  else [c]

/-- A text between quotes. -/
def quote (text : String) : String :=
  "\"" ++ String.ofList (text.toList.flatMap escapeChar) ++ "\""

/-- The texts, with a comma between each two. -/
def commaSeparated (items : List String) : String := ",".intercalate items

mutual

/-- The value on one line. -/
def compact : JsonValue → String
  | number digits => digits
  | bool value => if value then "true" else "false"
  | text value => quote value
  | array elements => "[" ++ commaSeparated (compactElements elements) ++ "]"
  | object fields => "\x7b" ++ commaSeparated (compactFields fields) ++ "\x7d"

def compactElements : List JsonValue → List String
  | [] => []
  | element :: elements => compact element :: compactElements elements

def compactFields : List (String × JsonValue) → List String
  | [] => []
  | (name, value) :: fields => (quote name ++ ":" ++ compact value) :: compactFields fields

end

/-- The start of a line at the given depth. -/
def newLine (depth : Nat) : String := "\n" ++ String.ofList (List.replicate (2 * depth) ' ')

/-- Items between two brackets, each on a line of its own at one more than the given depth. Without
items the brackets stand together. -/
def bracketed (depth : Nat) (opening closing : String) (items : List String) : String :=
  match items with
  | [] => opening ++ closing
  | items =>
    opening ++ commaSeparated (items.map (newLine (depth + 1) ++ ·)) ++ newLine depth ++ closing

mutual

/-- The value on several lines, from a line at the given depth on. -/
def pretty (depth : Nat) : JsonValue → String
  | number digits => digits
  | bool value => if value then "true" else "false"
  | text value => quote value
  | array elements => bracketed depth "[" "]" (prettyElements (depth + 1) elements)
  | object fields => bracketed depth "\x7b" "\x7d" (prettyFields (depth + 1) fields)

def prettyElements (depth : Nat) : List JsonValue → List String
  | [] => []
  | element :: elements => pretty depth element :: prettyElements depth elements

def prettyFields (depth : Nat) : List (String × JsonValue) → List String
  | [] => []
  | (name, value) :: fields =>
    (quote name ++ ": " ++ pretty depth value) :: prettyFields depth fields

end

end JsonValue
end AdLibModule
