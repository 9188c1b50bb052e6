/-! # Kinds of faults

The kinds under which the faults of a chart text are reported. -/

namespace RhythmChart

/-- What is wrong with a line of a chart. -/
inductive FaultKind where
  | malformedNumber
  | malformedSymbol
  | unknownRowSyntax
  | noteOutsideRow
  | duplicateRow
  deriving DecidableEq, Repr

end RhythmChart
