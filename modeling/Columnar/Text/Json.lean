/-! JSON documents and their printed forms. A number keeps its digits, and the members of an object
keep their order. -/

namespace Columnar.Text

/-- A string or key is `none` if an unpaired surrogate escape keeps it from being text. -/
inductive Json
  | null
  | bool (b : Bool)
  | number (literal : String)
  | string (text : Option String)
  | array (items : List Json)
  | object (members : List (Option String × Json))

namespace Json

def ofNat (n : Nat) : Json := .number (toString n)

def ofString (s : String) : Json := .string (some s)

def ofMembers (members : List (String × Json)) : Json :=
  .object (members.map fun (k, v) => (some k, v))

/-! ## Printing -/

def escape (c : Char) : List Char :=
  match c with
  | '"' => ['\\', '"']
  | '\\' => ['\\', '\\']
  | '\n' => ['\\', 'n']
  | '\r' => ['\\', 'r']
  | '\t' => ['\\', 't']
  | c =>
    if c.toNat = 8 then ['\\', 'b']
    else if c.toNat = 12 then ['\\', 'f']
    else if c.toNat < 32 then
      ['\\', 'u', '0', '0', Nat.digitChar (c.toNat / 16), Nat.digitChar (c.toNat % 16)]
    else [c]

/-- A text in quotes; one that is no text is written as the escape that makes it none. -/
def quote : Option String → String
  | some s => String.ofList ('"' :: s.toList.flatMap escape ++ ['"'])
  | none => "\"\\ud800\""

/-- The line break and indentation in front of an item at some depth, if there is one. -/
def newline (wide : Bool) (depth : Nat) : String :=
  if wide then String.ofList ('\n' :: List.replicate (2 * depth) ' ') else ""

mutual

/-- On one line without blanks if `wide` is false, else an item to the line. -/
def print (wide : Bool) : Json → Nat → String
  | .null, _ => "null"
  | .bool b, _ => if b then "true" else "false"
  | .number literal, _ => literal
  | .string text, _ => quote text
  | .array [], _ => "[]"
  | .array (j :: js), depth =>
    "[" ++ newline wide (depth + 1) ++ print wide j (depth + 1) ++ printItems wide js (depth + 1)
      ++ newline wide depth ++ "]"
  | .object [], _ => "\x7b\x7d"
  | .object (m :: ms), depth =>
    "\x7b" ++ newline wide (depth + 1) ++ printMember wide m (depth + 1)
      ++ printMembers wide ms (depth + 1) ++ newline wide depth ++ "\x7d"

def printItems (wide : Bool) : List Json → Nat → String
  | [], _ => ""
  | j :: js, depth => "," ++ newline wide depth ++ print wide j depth ++ printItems wide js depth

def printMember (wide : Bool) : Option String × Json → Nat → String
  | (key, j), depth => quote key ++ (if wide then ": " else ":") ++ print wide j depth

def printMembers (wide : Bool) : List (Option String × Json) → Nat → String
  | [], _ => ""
  | m :: ms, depth =>
    "," ++ newline wide depth ++ printMember wide m depth ++ printMembers wide ms depth

end

def pretty (j : Json) : String := j.print true 0

end Json

end Columnar.Text
