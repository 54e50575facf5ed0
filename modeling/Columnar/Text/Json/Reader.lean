import Columnar.Text.Json
import Columnar.Text.Json.Token

/-! Reading a JSON text: a machine with a stack takes one token at a time. -/

namespace Columnar.Text.Json

/-- An open array or object around the value that is being read; what it holds so far is kept last
first. -/
inductive Frame
  | array (items : List Json)
  | object (members : List (Option String × Json)) (key : Option String)

inductive Reading
  /-- A value comes next. -/
  | value (around : List Frame)
  /-- An array is open; what comes next closes it or brings the next item. -/
  | items (items : List Json) (around : List Frame)
  /-- An object is open; what comes next closes it or brings the next member. -/
  | members (members : List (Option String × Json)) (around : List Frame)
  | key (members : List (Option String × Json)) (around : List Frame)
  | colon (members : List (Option String × Json)) (key : Option String) (around : List Frame)
  | finished (j : Json)

namespace Reading

def complete (j : Json) : List Frame → Reading
  | [] => finished j
  | .array js :: around => items (j :: js) around
  | .object ms k :: around => members ((k, j) :: ms) around

/-- The first token of a value. -/
def begin? (around : List Frame) : Token → Option Reading
  | .beginArray => some (items [] around)
  | .beginObject => some (members [] around)
  | .null => some (complete .null around)
  | .bool b => some (complete (.bool b) around)
  | .number s => some (complete (.number s) around)
  | .string s => some (complete (.string s) around)
  | .endArray | .endObject | .colon | .comma => none

def step : Reading → Token → Option Reading
  | value around, t => begin? around t
  | items js around, .endArray => some (complete (.array js.reverse) around)
  | items [] around, t => begin? (.array [] :: around) t
  | items js around, .comma => some (value (.array js :: around))
  | members ms around, .endObject => some (complete (.object ms.reverse) around)
  | members [] around, .string k => some (colon [] k around)
  | members (m :: ms) around, .comma => some (key (m :: ms) around)
  | key ms around, .string k => some (colon ms k around)
  | colon ms k around, .colon => some (value (.object ms k :: around))
  | _, _ => none

end Reading

/-- The document that a text spells. -/
def parse? (s : String) : Option Json := do
  let tokens ← Token.scan s
  match ← tokens.foldlM Reading.step (.value []) with
  | .finished j => some j
  | _ => none

end Columnar.Text.Json
