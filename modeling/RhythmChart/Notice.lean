/-! # Notices

What the library has to report while it goes on: a severity and a line of text.  Each module names
the causes of its notices and words them; nothing here decides when a notice is due. -/

namespace RhythmChart

/-- How serious a notice is. -/
inductive Severity where
  | warning
  | error
  deriving DecidableEq, Repr

/-- A line of text for whoever runs the program. -/
structure Notice where
  severity : Severity
  text : String
  deriving DecidableEq, Repr

/-- A notice about input that was ignored or replaced. -/
def Notice.warning (text : String) : Notice := ⟨.warning, text⟩

/-- A notice about work that was cut short. -/
def Notice.error (text : String) : Notice := ⟨.error, text⟩

end RhythmChart
