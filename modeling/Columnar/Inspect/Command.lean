import Columnar.Bytes

/-! The commands of the inspection tool, as they are given on the command line. -/

namespace Columnar.Inspect

inductive Command
  | inspect (path : String) (json : Bool)
  | dump (path : String) (column first limit : Nat) (verify : Bool)
  | verify (path : String)

namespace Command

/-- An option of a command, with or without a value. -/
structure Switch where
  long : String
  short : Option Char := none
  takesValue : Bool

/-- What has been read so far. -/
structure Arguments where
  path : Option String := none
  /-- By the long name. -/
  options : List (String × String) := []

namespace Arguments

def addPath (a : Arguments) (s : String) : Option Arguments :=
  if s = "" ∨ a.path.isSome then none else some { a with path := some s }

/-- No option may be given twice. -/
def addOption (a : Arguments) (name value : String) : Option Arguments :=
  if a.options.any (·.1 = name) then none
  else some { a with options := (name, value) :: a.options }

end Arguments

/-- The text up to the first equals sign, and what follows the sign, if there is one. -/
def splitValue (cs : List Char) : String × Option String :=
  let name := cs.takeWhile (· ≠ '=')
  (String.ofList name, (cs.drop name.length).tail?.map String.ofList)

/-- The option that an argument names, and the value that it brings along. -/
def named? (known : List Switch) : List Char → Option (Switch × Option String)
  | '-' :: '-' :: cs => do
    let (name, value) := splitValue cs
    let o ← known.find? (·.long = name)
    return (o, value)
  | '-' :: c :: cs => do
    let o ← known.find? (·.short = some c)
    return (o, match cs with
      | [] => none
      | '=' :: value | value => some (String.ofList value))
  | _ => none

def isOption (s : String) : Bool :=
  match s.toList with
  | '-' :: _ :: _ => true
  | _ => false

/-- Reads options and one path, in any order; behind a double dash all is path. -/
def read (known : List Switch) : List String → Arguments → Option Arguments
  | [], a => some a
  | "--" :: rest, a => rest.foldlM Arguments.addPath a
  | s :: rest, a =>
    if isOption s then
      match named? known s.toList with
      | none => none
      | some (o, some value) =>
        if o.takesValue then a.addOption o.long value >>= read known rest else none
      | some (o, none) =>
        if o.takesValue then
          match rest with
          | value :: rest =>
            if isOption value then none else a.addOption o.long value >>= read known rest
          | [] => none
        else a.addOption o.long "" >>= read known rest
    else a.addPath s >>= read known rest

/-- A number of 64 bits; it may have a plus sign. -/
def number? (s : String) : Option Nat :=
  let digits := match s.toList with
    | '+' :: ds => ds
    | ds => ds
  if !digits.isEmpty && digits.all Char.isDigit then
    (String.ofList digits).toNat?.filter (· < 2 ^ 64)
  else none

def Arguments.has (a : Arguments) (name : String) : Bool := a.options.any (·.1 = name)

/-- The number given for an option, if it is given. -/
def Arguments.number (a : Arguments) (name : String) (default : Option Nat) : Option Nat :=
  match a.options.find? (·.1 = name) with
  | some (_, value) => number? value
  | none => default

/-- The command that arguments spell, if they do. -/
def parse? : List String → Option Command
  | "inspect" :: args => do
    let a ← read [{ long := "json", takesValue := false }] args {}
    return .inspect (← a.path) (a.has "json")
  | "dump" :: args => do
    let a ← read
      [{ long := "column", short := some 'c', takesValue := true },
       { long := "from", takesValue := true },
       { long := "limit", short := some 'l', takesValue := true },
       { long := "no-verify", takesValue := false }] args {}
    return .dump (← a.path) (← a.number "column" none) (← a.number "from" (some 0))
      (← a.number "limit" (some 100)) (!a.has "no-verify")
  | "verify" :: args => do
    let a ← read [] args {}
    return .verify (← a.path)
  | _ => none

end Command

end Columnar.Inspect
