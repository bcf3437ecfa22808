import TryRegions.BlockId

/-! What a run writes to its log. Every event is recorded; the level of the log decides which of
them are shown. -/

namespace TryRegions

/-- How much a log shows, from everything to nothing. -/
inductive LogLevel where
  | trace
  | debug
  | info
  | warn
  | error
  | fatal
  | panic
  | disabled
deriving DecidableEq, Repr, Inhabited

namespace LogLevel

def all : List LogLevel := [trace, debug, info, warn, error, fatal, panic, disabled]

def name : LogLevel → String
  | trace => "trace"
  | debug => "debug"
  | info => "info"
  | warn => "warn"
  | error => "error"
  | fatal => "fatal"
  | panic => "panic"
  | disabled => "disabled"

def ofName? (name : String) : Option LogLevel := all.find? fun l => l.name = name

def rank : LogLevel → Nat
  | trace => 0
  | debug => 1
  | info => 2
  | warn => 3
  | error => 4
  | fatal => 5
  | panic => 6
  | disabled => 7

/-- A log of level `shown` shows events of level `l`. -/
def shows (shown l : LogLevel) : Bool := decide (shown.rank ≤ l.rank)

end LogLevel

/-- Regions and handlers are recorded as the text they had at the time. -/
inductive Event where
  | before (listing : String)
  | inputHandler (handler : String) (covered body : List BlockId)
  | droppedRegion (region : String)
  | mergedClauses (region handler : String)
  | resultRegion (region : String)
  | bounds (region : Int) (top : BlockId) (bottom : Option BlockId)
  | splitters (region : Int) (top : BlockId) (bottom : Option BlockId)
  | removedMonitorExit (block : BlockId) (offset : Int)
  | after (listing : String)
  | passFailed (pass error : String)
deriving DecidableEq, Repr

inductive Event.Field where
  | text (s : String)
  | number (n : Int)
deriving DecidableEq, Repr

namespace Event

def level : Event → LogLevel
  | passFailed .. => .error
  | _ => .debug

def message : Event → String
  | before listing => "before exception handler processing:\n" ++ listing
  | inputHandler .. => "input exception handler"
  | droppedRegion _ => "dropping empty try block"
  | mergedClauses .. => "merged multi-catch"
  | resultRegion _ => "result try-catch block"
  | bounds .. => "try block split"
  | splitters .. => "try block splitters"
  | removedMonitorExit .. => "removed monitor-exit from handler"
  | after listing => "after exception handler processing:\n" ++ listing
  | passFailed .. => "pass failed"

def fields : Event → List (String × Field)
  | before _ | after _ => []
  | inputHandler handler covered body =>
    [("handler", .text handler), ("throw_blocks", .text (BlockId.labels covered)),
      ("handler_blocks", .text (BlockId.labels body))]
  | droppedRegion region | resultRegion region => [("try_block", .text region)]
  | mergedClauses region handler => [("try_block", .text region), ("handler", .text handler)]
  | bounds region top bottom =>
    [("try_block", .number region), ("top", .text (BlockId.label top)),
      ("bottom", .text (BlockId.labelOf bottom))]
  | splitters region top bottom =>
    [("try_block", .number region), ("top_splitter", .text (BlockId.label top)),
      ("bottom_splitter", .text (BlockId.labelOf bottom))]
  | removedMonitorExit block offset =>
    [("block", .text (BlockId.label block)), ("offset", .number offset)]
  | passFailed pass error => [("error", .text error), ("pass", .text pass)]

end Event

/-- An event and the method that it is about. -/
structure LogEntry where
  method : String
  event : Event
deriving DecidableEq, Repr

/-- The entries that a log of the given level shows. -/
def LogEntry.shown (level : LogLevel) (log : List LogEntry) : List LogEntry :=
  log.filter fun e => level.shows e.event.level

end TryRegions
