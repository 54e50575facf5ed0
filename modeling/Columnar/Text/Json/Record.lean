import Columnar.Bytes
import Columnar.Text.Json

/-! Reading records. A record comes as an object with named members, or as an array of its fields in
order, of which the last ones may be left out. Members with other names are passed over. -/

namespace Columnar.Text.Json

def bool? : Json → Option Bool
  | .bool b => some b
  | _ => none

def string? : Json → Option String
  | .string text => text
  | _ => none

/-- A number that is spelled with digits alone and lies below `bound`. -/
def natBelow? (bound : Nat) : Json → Option Nat
  | .number literal =>
    if literal.toList.all Char.isDigit then
      literal.toNat?.filter (· < bound)
    else none
  | _ => none

def uint32? (j : Json) : Option UInt32 := (j.natBelow? (2 ^ 32)).map UInt32.ofNat

/-- A number of 64 bits. -/
def size? (j : Json) : Option Nat := j.natBelow? (2 ^ 64)

/-- A name out of a fixed set: the name itself, or an object that has it as its only key, with a
null. -/
def choice? {α : Type} (ofName? : String → Option α) : Json → Option α
  | .string (some name) => ofName? name
  | .object [(some name, .null)] => ofName? name
  | _ => none

/-- Something, or null for nothing. -/
def optional? {α : Type} (read : Json → Option α) : Json → Option (Option α)
  | .null => some none
  | j => (read j).map some

def list? {α : Type} (read : Json → Option α) : Json → Option (List α)
  | .array items => items.mapM read
  | _ => none

/-- The fields of a record, in order of the names; `none` stands for a field left out. -/
abbrev Fields := List (Option Json)

/-- Of an object, each key has to be text and each of the names may come once; an array may not
have more items than there are names. -/
def fields? (names : List String) : Json → Option Fields
  | .object members => do
    let keys ← members.mapM (·.1)
    if names.all fun name => keys.count name ≤ 1 then
      some (names.map fun name => (members.find? (·.1 == some name)).map (·.2))
    else none
  | .array items =>
    if items.length ≤ names.length then
      some (items.map some ++ List.replicate (names.length - items.length) none)
    else none
  | _ => none

/-- A field that has to be there. -/
def required? {α : Type} (read : Json → Option α) : Option Json → Option α
  | some j => read j
  | none => none

/-- A field with a value of its own when it is left out. -/
def withDefault? {α : Type} (read : Json → Option α) (default : α) : Option Json → Option α
  | some j => read j
  | none => some default

end Columnar.Text.Json
