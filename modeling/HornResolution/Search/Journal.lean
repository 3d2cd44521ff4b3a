import HornResolution.Search.Event

/-!
# Journals

A search may be logged. Each event is then written down as it happens, with the
names of that moment, and a search that comes to an event without names for it
cannot go on. A search that is not logged carries the closed journal, which takes
every event and keeps none.
-/

namespace HornResolution

inductive Journal where
  | closed
  /-- The events so far, latest first. -/
  | opened (latest : List Event)

namespace Journal

/-- The journal of a search that is logged from now on. -/
def blank : Journal := .opened []

/-- The events in the order in which they were reported. -/
def events : Journal → List Event
  | .closed => []
  | .opened latest => latest.reverse

/-- The journal after one more event, unless that has to be written down and the
vocabulary lacks a name for it. -/
def report (V : Vocabulary) (event : Event) : Journal → Option Journal
  | .closed => some .closed
  | .opened latest =>
    if V.knows event.symbols event.occurrences then some (.opened (event :: latest)) else none

@[simp] theorem report_closed (V : Vocabulary) (event : Event) :
    closed.report V event = some .closed := rfl

/-- An event is written after those before it. -/
theorem events_of_report {V : Vocabulary} {event : Event} {latest : List Event} {J : Journal}
    (h : (opened latest).report V event = some J) :
    J.events = (opened latest).events ++ [event] := by
  rw [report] at h
  split at h
  · obtain rfl := Option.some.inj h
    simp [events]
  · simp at h

end Journal

end HornResolution
