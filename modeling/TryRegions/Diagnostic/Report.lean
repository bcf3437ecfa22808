import TryRegions.Diagnostic.Basic
import TryRegions.Text.UpperCase

/-! Diagnostics for a reader: as a report, with colours or without, and as comments in code. -/

namespace TryRegions

/-- A way to make text stand out: the codes that start it and that end it. -/
structure Ink where
  start : String
  stop : String
deriving DecidableEq, Repr

namespace Ink

def error : Ink := ⟨"31;1", "0;22"⟩

def warning : Ink := ⟨"33;1", "0;22"⟩

def plain : Ink := ⟨"36", "0"⟩

def accent : Ink := ⟨"34;1", "0;22"⟩

def ofSeverity : Severity → Ink
  | .error => error
  | .warning => warning
  | _ => plain

/-- The text between its codes, or as it is if colours are off. -/
def paint (ink : Ink) (color : Bool) (text : String) : String :=
  if color then "\x1b[" ++ ink.start ++ "m" ++ text ++ "\x1b[" ++ ink.stop ++ "m" else text

end Ink

namespace Diagnostic

/-- A diagnostic without a severity is reported as an error. -/
def shownSeverity (d : Diagnostic) : Severity := if d.severity.name = "" then .error else d.severity

def header (color : Bool) (d : Diagnostic) : String :=
  let paint := (Ink.ofSeverity d.shownSeverity).paint color
  let code := if d.code = "" then "" else paint ("[" ++ d.code ++ "]")
  paint d.shownSeverity.name ++ code ++ ": " ++ d.message ++ "\n"

/-- A line of detail, set off by an accent. -/
def detail (color : Bool) (mark text : String) : String :=
  "  " ++ Ink.accent.paint color mark ++ " " ++ text ++ "\n"

/-- The lines of one diagnostic: header, place, cause, notes, help. -/
def report (color : Bool) (d : Diagnostic) : String :=
  d.header color ++
    (if d.location.isValid then detail color "-->" d.location.text else "") ++
    (match d.cause with
      | some c => detail color "=" ("caused by: " ++ c)
      | none => "") ++
    String.join (d.notes.map fun n => detail color "=" ("note: " ++ n)) ++
    (if d.help = "" then "" else Ink.plain.paint color "help" ++ ": " ++ d.help ++ "\n")

/-- The reports of all diagnostics, an empty line between them. -/
def reportAll (color : Bool) (ds : List Diagnostic) : String :=
  Text.joined "\n" (ds.map (report color))

/-- The diagnostic as a comment; line feeds become blanks. -/
def comment (d : Diagnostic) : String :=
  let text := "/* " ++ Text.upperCase d.severity.name ++ ": " ++ d.message ++ d.causeText ++ " */"
  text.map fun c => if c = '\n' then ' ' else c

/-- The comments for the diagnostics that are at least as severe as `level`. -/
def comments (ds : List Diagnostic) (level : Severity) : List String :=
  (ds.filter fun d => d.severity.atLeast level).map comment

end Diagnostic

end TryRegions
