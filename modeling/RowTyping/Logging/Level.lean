/-! # Log levels -/

namespace RowTyping.Logging

/-- The levels that have a name, with their severity. -/
def levels : List (String × Nat) :=
  [("TRACE", 5), ("DEBUG", 10), ("INFO", 20), ("SUCCESS", 25), ("WARNING", 30), ("ERROR", 40),
    ("CRITICAL", 50)]

/-- The severity of a level, if it is known. -/
def severity? (level : String) : Option Nat := levels.lookup level

end RowTyping.Logging
