/-! The life of a segment that is being written. -/

namespace Columnar.Segment

inductive Stage
  | created
  /-- The output is open and holds no row yet. -/
  | initialized
  | appending
  /-- Nothing more can be written, whether or not the last step succeeded. -/
  | finalized
  deriving DecidableEq

namespace Stage

def name : Stage → String
  | created => "Created"
  | initialized => "Initialized"
  | appending => "Appending"
  | finalized => "Finalized"

instance : ToString Stage := ⟨name⟩

/-- Rows are taken and the segment can be finished. -/
def isOpen : Stage → Bool
  | initialized | appending => true
  | created | finalized => false

end Stage

end Columnar.Segment
