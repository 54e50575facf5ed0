/-! The tokens of a JSON text, cut by a machine that sees one character at a time. -/

namespace Columnar.Text.Json

inductive Token
  | beginArray | endArray | beginObject | endObject | colon | comma
  | null
  | bool (b : Bool)
  | number (literal : String)
  | string (text : Option String)

namespace Token

def isDigit (c : Char) : Bool := '0' ≤ c ∧ c ≤ '9'

/-- An optional exponent. -/
def isExponent : List Char → Bool
  | [] => true
  | e :: cs =>
    let digits := match cs with
      | '+' :: ds | '-' :: ds => ds
      | ds => ds
    (e = 'e' || e = 'E') && !digits.isEmpty && digits.all isDigit

/-- An optional fraction, then an optional exponent. -/
def isFraction : List Char → Bool
  | '.' :: cs => !(cs.takeWhile isDigit).isEmpty && isExponent (cs.dropWhile isDigit)
  | cs => isExponent cs

/-- A number: sign, digits without a leading zero, fraction, exponent. -/
def isNumber (cs : List Char) : Bool :=
  let cs := match cs with
    | '-' :: ds => ds
    | ds => ds
  match cs.takeWhile isDigit with
  | [] => false
  | '0' :: _ :: _ => false
  | _ => isFraction (cs.dropWhile isDigit)

def ofWord? (cs : List Char) : Option Token :=
  match String.ofList cs with
  | "null" => some .null
  | "true" => some (.bool true)
  | "false" => some (.bool false)
  | s => if isNumber cs then some (.number s) else none

def isHigh (code : Nat) : Bool := 0xD800 ≤ code ∧ code < 0xDC00

def isLow (code : Nat) : Bool := 0xDC00 ≤ code ∧ code < 0xE000

/-- The characters that codes stand for, surrogates by pairs. -/
def characters : List Nat → Option (List Char)
  | [] => some []
  | high :: low :: codes =>
    if isHigh high then
      if isLow low then
        (characters codes).map
          (Char.ofNat (0x10000 + (high - 0xD800) * 0x400 + (low - 0xDC00)) :: ·)
      else none
    else if isLow high then none
    else (characters (low :: codes)).map (Char.ofNat high :: ·)
  | [code] => if isHigh code || isLow code then none else some [Char.ofNat code]

/-- Where the machine stands; what it has gathered is kept last first. -/
inductive Mode
  | between
  | word (gathered : List Char)
  | string (codes : List Nat)
  | escape (codes : List Nat)
  | hex (codes : List Nat) (missing value : Nat)

def isBlank (c : Char) : Bool := c = ' ' || c = '\n' || c = '\t' || c = '\r'

def hexDigit? (c : Char) : Option Nat :=
  if isDigit c then some (c.toNat - 48)
  else if 'a' ≤ c ∧ c ≤ 'f' then some (c.toNat - 87)
  else if 'A' ≤ c ∧ c ≤ 'F' then some (c.toNat - 55)
  else none

def punctuation? : Char → Option Token
  | '[' => some .beginArray
  | ']' => some .endArray
  | '\x7b' => some .beginObject
  | '\x7d' => some .endObject
  | ':' => some .colon
  | ',' => some .comma
  | _ => none

/-- The tokens that a character between tokens completes, and how to go on. -/
def start (c : Char) : List Token × Mode :=
  if isBlank c then ([], .between)
  else if c = '"' then ([], .string [])
  else match punctuation? c with
    | some t => ([t], .between)
    | none => ([], .word [c])

def unescaped? : Char → Option Nat
  | '"' => some 34
  | '\\' => some 92
  | '/' => some 47
  | 'b' => some 8
  | 'f' => some 12
  | 'n' => some 10
  | 'r' => some 13
  | 't' => some 9
  | _ => none

/-- One character; `none` if no JSON text goes on with it. -/
def step (c : Char) : Mode → Option (List Token × Mode)
  | .between => some (start c)
  | .word cs =>
    match start c with
    | (_, .word _) => some ([], .word (c :: cs))
    | (ts, mode) => (ofWord? cs.reverse).map fun t => (t :: ts, mode)
  | .string codes =>
    if c = '"' then some ([.string ((characters codes.reverse).map String.ofList)], .between)
    else if c = '\\' then some ([], .escape codes)
    else if c.toNat < 32 then none
    else some ([], .string (c.toNat :: codes))
  | .escape codes =>
    if c = 'u' then some ([], .hex codes 3 0)
    else (unescaped? c).map fun code => ([], .string (code :: codes))
  | .hex codes missing value =>
    (hexDigit? c).map fun d =>
      let value := 16 * value + d
      match missing with
      | 0 => ([], .string (value :: codes))
      | missing + 1 => ([], .hex codes missing value)

def scanOnto : List Char → Mode → List Token → Option (List Token)
  | [], .between, done => some done.reverse
  | [], .word cs, done => (ofWord? cs.reverse).map fun t => (t :: done).reverse
  | [], _, _ => none
  | c :: cs, mode, done =>
    match step c mode with
    | some (ts, mode) => scanOnto cs mode (ts.reverse ++ done)
    | none => none

def scan (s : String) : Option (List Token) := scanOnto s.toList .between []

end Token

end Columnar.Text.Json
