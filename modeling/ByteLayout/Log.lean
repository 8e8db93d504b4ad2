/-! # Log entries

Operations report what they did as data: a list of entries, each with a level and a text. -/

namespace ByteLayout.Log

/-- How important an entry is. -/
inductive Level where
  | debug
  | info
  | warning
  deriving DecidableEq, Repr, Inhabited

namespace Level

/-- The name of a level. -/
def label : Level → String
  | .debug => "DEBUG"
  | .info => "INFO"
  | .warning => "WARNING"

/-- The place of a level in the order of importance. -/
def rank : Level → Nat
  | .debug => 0
  | .info => 1
  | .warning => 2

/-- The level with a given name. -/
def ofLabel? (label : String) : Option Level :=
  [Level.debug, .info, .warning].find? fun level => level.label = label

end Level

/-- One line of a log. -/
structure Entry where
  level : Level
  text : String
  deriving DecidableEq, Repr, Inhabited

/-- The line that is written for an entry. -/
def Entry.render (e : Entry) : String := e.level.label ++ ": " ++ e.text

/-- The entries of a level or above, in their order. -/
def atLeast (level : Level) (log : List Entry) : List Entry :=
  log.filter fun e => level.rank ≤ e.level.rank

end ByteLayout.Log
