import Columnar.Schema
import Columnar.Text.Json.Record
import Columnar.Text.Json.Reader

/-! Schemas as JSON documents. A document is read through the same checks as `Schema.new`. -/

namespace Columnar

open Text (Json)

namespace ColumnSchema

def toJson (c : ColumnSchema) : Json :=
  Json.ofMembers
    [("unique_id", .ofNat c.uniqueId.toNat), ("name", .ofString c.name),
     ("field_type", .ofString c.type.label), ("length", .ofNat c.length.toNat),
     ("index_length", .ofNat c.indexLength.toNat), ("is_key", .bool c.isKey),
     ("is_nullable", .bool c.isNullable)]

def fieldNames : List String :=
  ["unique_id", "name", "field_type", "length", "index_length", "is_key", "is_nullable"]

def ofJson? (j : Json) : Option ColumnSchema := do
  match ← j.fields? fieldNames with
  | [uniqueId, name, type, length, indexLength, isKey, isNullable] =>
    return {
      uniqueId := ← Json.required? Json.uint32? uniqueId
      name := ← Json.required? Json.string? name
      type := ← Json.required? (Json.choice? FieldType.ofLabel?) type
      length := ← Json.withDefault? Json.uint32? 0 length
      indexLength := ← Json.withDefault? Json.uint32? 20 indexLength
      isKey := ← Json.withDefault? Json.bool? false isKey
      isNullable := ← Json.withDefault? Json.bool? true isNullable }
  | _ => none

end ColumnSchema

/-- A schema as a document gives it, before it is checked. -/
structure RawSchema where
  columns : List ColumnSchema
  shortKeys : Nat := 0

namespace RawSchema

def fieldNames : List String := ["columns", "num_short_key_columns"]

def ofJson? (j : Json) : Option RawSchema := do
  match ← j.fields? fieldNames with
  | [columns, shortKeys] =>
    return {
      columns := ← Json.required? (Json.list? ColumnSchema.ofJson?) columns
      shortKeys := ← Json.withDefault? Json.size? 0 shortKeys }
  | _ => none

def check (raw : RawSchema) : Except Error Schema := Schema.new raw.columns raw.shortKeys

end RawSchema

namespace Schema

def toJson (s : Schema) : Json :=
  Json.ofMembers
    [("columns", .array (s.columns.map ColumnSchema.toJson)),
     ("num_short_key_columns", .ofNat s.shortKeys)]

def ofJson? (j : Json) : Option Schema := do
  let raw ← RawSchema.ofJson? j
  raw.check.toOption

/-- The schema that a JSON text describes. -/
def ofText? (s : String) : Option Schema := Json.parse? s >>= ofJson?

end Schema

end Columnar
