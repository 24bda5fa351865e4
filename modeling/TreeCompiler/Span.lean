import TreeCompiler.Text.Json

/-!
# Source spans

A span is a stretch of one source file. The span from 0 to 0 stands for "nowhere", whatever file it
names.
-/

namespace TreeCompiler

/-- The stretch `lo..hi` of a source file. -/
structure Span where
  file : Nat := 0
  lo : Nat := 0
  hi : Nat := 0
  deriving DecidableEq, Repr, Inhabited

namespace Span

/-- No place at all. -/
def null : Span := {}

/-- Whether the span is nowhere. The file does not matter. -/
def isNull (span : Span) : Bool := span.lo == 0 && span.hi == 0

/-- The number of bytes covered. -/
def length (span : Span) : Nat := span.hi - span.lo

/-- Whether the span covers nothing. -/
def isEmpty (span : Span) : Bool := span.lo == span.hi

/-- The smallest stretch over both spans, in the first one's file. -/
def cover (first second : Span) : Span :=
  { file := first.file, lo := min first.lo second.lo, hi := max first.hi second.hi }

/-- The smallest stretch over all spans that are somewhere, in the file of the first of them. -/
def union (spans : List Span) : Span :=
  match spans.filter (!·.isNull) with
  | [] => null
  | first :: rest => rest.foldl cover first

/-- The stretch from one span to another. -/
def through (first second : Span) : Span := union [first, second]

/-- The span as it is shown to people. -/
def text (span : Span) : String := s!"Span({span.file}:{span.lo}-{span.hi})"

/-- The span as a short JSON value: the file and the two offsets. -/
def toJson (span : Span) : Text.Json := .ofList .nat [span.file, span.lo, span.hi]

def toObject (span : Span) : Text.Json :=
  .object [("file", .nat span.file), ("lo", .nat span.lo), ("hi", .nat span.hi)]

end Span

end TreeCompiler
