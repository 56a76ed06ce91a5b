import Unnest.Node

/-!
# The log

What a run reports while it goes on: the beginnings of its parts, which are
spans, and what happens in them, which are events.
-/

namespace Unnest

structure Tally where
  /-- Rules that were attached when their turn came. -/
  visited : Nat := 0
  /-- Nested rules that were moved to the root. -/
  promoted : Nat := 0
  /-- Rules that were removed because they had lost their last child. -/
  pruned : Nat := 0
deriving DecidableEq

inductive LogEntry where
  /-- A pipeline with this many plugins begins. -/
  | process (plugins : Nat)
  /-- Reading a text of this many bytes begins. -/
  | parse (bytes : Nat)
  /-- The text was read into a sheet of this size. -/
  | parsed (nodes : Nat)
  | plugin (name : String)
  | pass
  /-- The rule goes to the root under its expanded selector. -/
  | promoting (rule : NodeId) (selector : String)
  | removed (rule : NodeId)
  | flattened (tally : Tally)
deriving DecidableEq

namespace LogEntry

inductive Level where
  | debug
  | trace
deriving DecidableEq

def Level.name : Level → String
  | debug => "DEBUG"
  | trace => "TRACE"

inductive Field where
  | number (value : Nat)
  | text (value : String)
deriving DecidableEq

def level : LogEntry → Level
  | parsed _ | promoting .. | removed _ => .trace
  | _ => .debug

def isSpan : LogEntry → Bool
  | process _ | parse _ | plugin _ | pass => true
  | _ => false

def title : LogEntry → String
  | process _ => "process"
  | parse _ => "parse"
  | parsed _ => "Parsed stylesheet"
  | plugin _ => "plugin"
  | pass => "flatten_nesting"
  | promoting .. => "Promoting nested rule"
  | removed _ => "Removed empty rule"
  | flattened _ => "Flattened nested rules"

def fields : LogEntry → List (String × Field)
  | process plugins => [("plugins", .number plugins)]
  | parse bytes => [("len", .number bytes)]
  | parsed nodes => [("nodes", .number nodes)]
  | plugin name => [("name", .text name)]
  | pass => []
  | promoting rule selector => [("rule", .number rule), ("selector", .text selector)]
  | removed rule => [("rule", .number rule)]
  | flattened tally =>
      [("visited", .number tally.visited), ("promoted", .number tally.promoted),
       ("pruned", .number tally.pruned)]

end LogEntry

end Unnest
