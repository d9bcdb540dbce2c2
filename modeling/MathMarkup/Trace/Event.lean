import MathMarkup.Conversion.Basic
import MathMarkup.Json.Basic

/-! Events of a trace, and the event of a conversion. -/
namespace MathMarkup

/-- What tells one event from all others: an identifier, and a time. -/
structure Stamp where
  id : String
  time : String
  deriving DecidableEq

structure Event where
  stamp : Stamp
  kind : String
  message : String
  data : Json

namespace Event

def toJson (e : Event) : Json :=
  .object [("event_id", .string e.stamp.id), ("ts", .string e.stamp.time),
    ("kind", .string e.kind), ("message", .string e.message), ("data", e.data)]

def diagnosticJson (d : Diagnostic) : Json :=
  .object [("offset", .number d.offset), ("expected", .string d.expected.text),
    ("found", .string d.found)]

/-- The dialects go by the names that they were given under. -/
def ofConversion (stamp : Stamp) (source target : String) (c : Conversion) : Event :=
  { stamp := stamp
    kind := "convert"
    message := s!"{source} -> {target}: {c.parsed.status}"
    data := .object [("source", .string source), ("target", .string target),
      ("status", .string c.parsed.status), ("input", .string c.input),
      ("output", .string c.output),
      ("diagnostics", .array (c.parsed.notes.map diagnosticJson))] }

end Event

end MathMarkup
