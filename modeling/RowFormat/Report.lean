namespace RowFormat

/-- The outermost message, and under it the messages from the next one down to the root cause. -/
structure Report where
  message : String
  causes : List String
deriving DecidableEq

namespace Report

/-- A failure without anything underneath. -/
def plain (message : String) : Report := ⟨message, []⟩

/-- A failure seen from one level further out. -/
def under (context : String) (r : Report) : Report := ⟨context, r.message :: r.causes⟩

end Report

end RowFormat
