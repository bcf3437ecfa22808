import TryRegions.Text.Hex

/-! Diagnostics: warnings about what was dropped and errors that stop a method. -/

namespace TryRegions

inductive Severity where
  | error
  | warning
  | info
  | debug
  /-- Any other word; it counts as much as an error. -/
  | other (name : String)
deriving DecidableEq, Repr

namespace Severity

def ofName (name : String) : Severity :=
  if name = "error" then error
  else if name = "warning" then warning
  else if name = "info" then info
  else if name = "debug" then debug
  else other name

def name : Severity → String
  | error => "error"
  | warning => "warning"
  | info => "info"
  | debug => "debug"
  | other n => n

def rank : Severity → Nat
  | debug => 0
  | info => 1
  | warning => 2
  | error | other _ => 3

def atLeast (s level : Severity) : Bool := decide (level.rank ≤ s.rank)

end Severity

/-- A method and, unless it is negative, an offset in its code. -/
structure Location where
  method : String := ""
  offset : Int := -1
deriving DecidableEq, Repr, Inhabited

namespace Location

def isValid (l : Location) : Bool := decide (l.method ≠ "")

def text (l : Location) : String :=
  if 0 ≤ l.offset then l.method ++ "@0x" ++ Text.hex l.offset else l.method

end Location

structure Diagnostic where
  /-- The name of the pass that reports. -/
  stage : String
  severity : Severity
  code : String
  message : String
  location : Location := {}
  notes : List String := []
  help : String := ""
  /-- The text of the failure that the diagnostic reports. -/
  cause : Option String := none
deriving DecidableEq, Repr

namespace Diagnostic

/-- A colon, a blank and the cause, if there is one. -/
def causeText (d : Diagnostic) : String :=
  match d.cause with
  | some c => ": " ++ c
  | none => ""

/-- The diagnostic on one line; severity and code are left out if there is no code. -/
def text (d : Diagnostic) : String :=
  (if d.code = "" then d.message
    else d.severity.name ++ "[" ++ d.code ++ "]: " ++ d.message) ++ d.causeText

end Diagnostic

end TryRegions
