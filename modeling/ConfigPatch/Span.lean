/-!
# Spans

A span is a stretch of a text, from a byte offset up to below another. The
spans of mappings and sequences include their brackets.
-/

namespace ConfigPatch

/-- The bytes from `start` up to below `stop`. -/
structure Span where
  start : Nat
  stop : Nat
deriving DecidableEq

namespace Span

/-- The number of bytes. -/
def length (span : Span) : Nat := span.stop - span.start

/-- Whether the span has no bytes. -/
def isEmpty (span : Span) : Bool := span.start == span.stop

/-- The span without its first and its last byte, which are the brackets
of a mapping or a sequence. -/
def inner (span : Span) : Span :=
  let start := min (span.start + 1) span.stop
  ⟨start, max (span.stop - 1) start⟩

/-- Whether the other span lies within this one. -/
def contains (span other : Span) : Bool :=
  span.start ≤ other.start && other.stop ≤ span.stop

/-- The first byte of a span that is not empty. -/
def opener? (bytes : List UInt8) (span : Span) : Option UInt8 :=
  if span.isEmpty then none else bytes[span.start]?

/-- The span made longer so that it goes on to an offset, or a new one
that starts at the given place. -/
def extend (span : Option Span) (start stop : Nat) : Span :=
  ⟨(span.map Span.start).getD start, stop⟩

end Span

end ConfigPatch
