import ConfigPatch.Literal.Entry
import ConfigPatch.Literal.Exported

/-!
# Paths in source text

A path is walked through the spans of nested literals, from the mapping
that a file exports. Nothing is made on the way: a segment that is not
there, in whatever sense, means that the whole path is not found.
-/

namespace ConfigPatch.Literal

open Lexical

/-- The mapping in a span, out of at most so many parentheses. -/
def unwrap (bytes : List UInt8) : Nat → Span → Except Failure (Option Span)
  | 0, _ => .ok none
  | layers + 1, span =>
    match (span.opener? bytes).bind Bracket.ofOpener? with
    | some .brace => .ok (some span)
    | some .round => do
      let inner := span.inner
      let opening ← Failure.ofCut (triviaEnd? bytes inner.start inner.stop)
      if inner.stop ≤ opening then return none
      unwrap bytes layers (← Failure.ofExcept (spanAt bytes opening))
    | _ => .ok none

/-- **The mapping that a span holds**, inside of any parentheses. Every
pair of them starts later than the one around it, so there are no more of
them than bytes. -/
def mappingIn (bytes : List UInt8) (span : Span) : Except Failure (Option Span) :=
  unwrap bytes (bytes.length + 1) span

/-- The span of the mapping that a file exports. -/
def root (options : Options) (s : String) : Except Failure Span := do
  let literal ← Failure.ofExcept (exported options s)
  match ← mappingIn (Text.bytes s) literal.span with
  | some span => return span
  | none => throw (.refused (.noLiteral .noMapping))

/-- A value that is a mapping or a sequence ends with its bracket. -/
def narrow (bytes : List UInt8) (value : Span) : Except Error Span :=
  match (value.opener? bytes).bind Bracket.ofOpener? with
  | some .brace | some .square => spanAt bytes value.start
  | _ => .ok value

/-- The value of a property of the mapping in a span. Of several entries
of the name the last one counts. -/
def property? (s : String) (span : Span) (name : String) :
    Except Failure (Option Span) := do
  let bytes := Text.bytes s
  if (span.opener? bytes).bind Bracket.ofOpener? ≠ some .brace then return none
  let items ← Failure.ofCut (items? bytes span.inner)
  let entries ← items.mapM (Entry.read? s)
  match (entries.reduceOption.filter (·.key == name)).getLast? with
  | none => return none
  | some entry => return some (← Failure.ofExcept (narrow bytes entry.value))

/-- The item at an index of the sequence in a span. -/
def item? (s : String) (span : Span) (n : UInt64) : Except Failure (Option Span) := do
  let bytes := Text.bytes s
  if (span.opener? bytes).bind Bracket.ofOpener? ≠ some .square then return none
  let items ← Failure.ofCut (items? bytes span.inner)
  return items[n.toNat]?

/-- The span one step below another; `p` is the path that is walked. -/
def down (s : String) (p : Path) (span : Span) (step : Step) : Except Failure Span := do
  let found ← match step.segment with
    | .property name => property? s span name
    | .index n => item? s span n
  match found with
  | some span => return span
  | none => throw (.refused (.pathNotFound p))

/-- **The span of the literal at a path.** The empty path has none. -/
def find (options : Options) (s : String) (p : Path) : Except Failure Span :=
  if p.isEmpty then .error (.refused (.pathNotFound p))
  else do
    let span ← root options s
    p.steps.foldlM (down s p) span

end ConfigPatch.Literal
