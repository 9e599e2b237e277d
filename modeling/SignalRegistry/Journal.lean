/-
# The journal of an operation

Operations on the registry change nothing outside it. What is to be told to
the outside is written to a journal, in order: remarks for the log, and
notices of events, each with the network it concerns as it was at that
moment.

Key definitions: `Entry`, `Journal`, `Journal.events`.
-/
import SignalRegistry.Network

namespace SignalRegistry

/-- A line for the log, or an event with the network it concerns. -/
inductive Entry where
  | remark (r : Remark)
  | notice (event : Event) (network : Option Network)

/-- What an operation tells the outside, in order. -/
abbrev Journal := List Entry

namespace Journal

def ofRemarks (rs : List Remark) : Journal := rs.map .remark

def ofRemark (r : Remark) : Journal := [.remark r]

/-- The events of a journal with the networks they concern. -/
def notices (j : Journal) : List (Event × Option Network) :=
  j.filterMap fun
    | .notice e n => some (e, n)
    | .remark _ => none

/-- The events of a journal. -/
def events (j : Journal) : List Event := j.notices.map Prod.fst

@[simp] theorem notices_append (a b : Journal) : (a ++ b).notices = a.notices ++ b.notices := by
  simp [notices]

@[simp] theorem events_append (a b : Journal) : (a ++ b).events = a.events ++ b.events := by
  simp [events]

@[simp] theorem notices_ofRemarks (rs : List Remark) : (ofRemarks rs).notices = [] := by
  simp [notices, ofRemarks]

end Journal
end SignalRegistry
