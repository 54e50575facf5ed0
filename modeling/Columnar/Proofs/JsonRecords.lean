import Columnar.Proofs.JsonRoundTrip
import Columnar.Text.Json.Record
import Mathlib

/-! # Records

What was written as a number, a list or a record is read as what it was. -/

namespace Columnar.Text.Json

/-! ## Numbers -/

end Columnar.Text.Json
