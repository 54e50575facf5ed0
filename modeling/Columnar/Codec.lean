import Columnar.FieldType

/-! How the values of a page are laid out, and how the finished page is compressed. -/

namespace Columnar

inductive Encoding
  /-- Each value in its own form, one after the other. -/
  | plain
  /-- Distances from the least value, each in the same number of bits. -/
  | bitPacked
  /-- The distinct values, then one code for each row. -/
  | dictionary
  deriving DecidableEq

namespace Encoding

def all : List Encoding := [plain, bitPacked, dictionary]

def id : Encoding → UInt8
  | plain => 0
  | bitPacked => 1
  | dictionary => 2

def ofId? (n : UInt8) : Option Encoding := all.find? (·.id = n)

def name : Encoding → String
  | plain => "plain"
  | bitPacked => "bitpacked"
  | dictionary => "dictionary"

def ofName? (s : String) : Option Encoding := all.find? (·.name = s)

instance : ToString Encoding := ⟨name⟩

def supports : Encoding → FieldType → Bool
  | plain, _ => true
  | bitPacked, t => t.isIntegerLike
  | dictionary, t => t.isString

/-- What a column gets if nothing else was asked for. -/
def default (t : FieldType) : Encoding :=
  if t.isString then dictionary else if t.isIntegerLike then bitPacked else plain

theorem default_supports (t : FieldType) : (default t).supports t = true := by
  cases t <;> decide

@[simp] theorem ofId?_id (e : Encoding) : ofId? e.id = some e := by cases e <;> rfl

theorem id_of_ofId? {n : UInt8} {e : Encoding} (h : ofId? n = some e) : e.id = n := by
  simpa using List.find?_some h

end Encoding

inductive Compression
  | none
  /-- An LZ4 block behind the length of what it expands to. -/
  | lz4
  deriving DecidableEq

namespace Compression

def all : List Compression := [none, lz4]

def id : Compression → UInt8
  | none => 0
  | lz4 => 1

def ofId? (n : UInt8) : Option Compression := all.find? (·.id = n)

def name : Compression → String
  | none => "none"
  | lz4 => "lz4"

def ofName? (s : String) : Option Compression := all.find? (·.name = s)

instance : ToString Compression := ⟨name⟩

@[simp] theorem ofId?_id (c : Compression) : ofId? c.id = some c := by cases c <;> rfl

theorem id_of_ofId? {n : UInt8} {c : Compression} (h : ofId? n = some c) : c.id = n := by
  simpa using List.find?_some h

end Compression

end Columnar
