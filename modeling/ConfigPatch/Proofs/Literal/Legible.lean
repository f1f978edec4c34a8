import ConfigPatch.Literal.Lookup
import ConfigPatch.Proofs.Lexical.Nesting

/-!
# Literals that a string may replace

The literal at a path is found by several scans, each from another offset:
one for the bracket that closes a literal, one for the commas in it, one
for the blanks around a colon. A text is legible along a path if they
agree on where the literals on the way stand, and if the last one can go
without a trace, because it closes just what it opens and a comma or a
closing bracket comes next.
-/

namespace ConfigPatch.Literal

open Lexical

/-- Whether the scan from an offset on is in code at another. -/
def isCodeAt (bytes : List UInt8) (start stop : Nat) : Bool :=
  decide (modeAfter .code (byteBefore bytes start) bytes[stop]?
    ((bytes.drop start).take (stop - start)) = .code)

/-- The labels from an offset in code up to another. -/
def stretch (bytes : List UInt8) (start stop : Nat) : List Mark :=
  (marksFrom bytes start).take (stop - start)

/-- Whether a span lies in an item of a literal and starts where the scan
of the inside is in code. -/
def isWithin (bytes : List UInt8) (outer inner : Span) : Bool :=
  isCodeAt bytes (outer.start + 1) inner.start &&
    (items bytes outer.inner).any fun item =>
      decide (item.start ≤ inner.start ∧ inner.stop ≤ item.stop)

/-- Whether a span ends with the item of a literal that it lies in. -/
def isLast (bytes : List UInt8) (outer inner : Span) : Bool :=
  (items bytes outer.inner).any fun item =>
    decide (item.start ≤ inner.start ∧ item.stop = inner.stop)

/-- Whether a span ends in code and closes just the brackets that it
opens. -/
def isClosed (bytes : List UInt8) (span : Span) : Bool :=
  isCodeAt bytes span.start span.stop &&
    decide (openAfter [] (stretch bytes span.start span.stop) = some [])

/-- What comes behind an item: a comma or a closing bracket. -/
def isEnd (mark : Mark) : Bool :=
  mark.kind == .code && (mark.byte == comma || (Bracket.ofCloser? mark.byte).isSome)

/-- Whether an item ends at an offset, blanks and comments aside, if it
ends with a quote. -/
def isEndedAt (bytes : List UInt8) (stop : Nat) : Bool :=
  ((marks .code (some doubleQuote) (bytes.drop stop)).dropWhile Mark.isBlank).head?.any isEnd

/-- **Whether a string may replace a span** in a literal. -/
def isReplaceable (bytes : List UInt8) (outer inner : Span) : Bool :=
  isLast bytes outer inner && isClosed bytes inner && isEndedAt bytes inner.stop

/-- Whether a text is legible along steps from the literal in a span on. -/
def isLegibleFrom (s : String) (p : Path) (outer : Span) : List Step → Bool
  | [] => true
  | step :: steps =>
    match down s p outer step with
    | .error _ => true
    | .ok inner =>
      isWithin (Text.bytes s) outer inner &&
        if steps.isEmpty then isReplaceable (Text.bytes s) outer inner
        else isLegibleFrom s p inner steps

/-- Whether the scan of the inside of each pair of parentheses around a
mapping is in code where the next literal starts. -/
def isUnwrapped (bytes : List UInt8) : Nat → Span → Bool
  | 0, _ => true
  | layers + 1, span =>
    match (span.opener? bytes).bind Bracket.ofOpener? with
    | some .round =>
      let opening := triviaEnd bytes span.inner.start span.inner.stop
      isCodeAt bytes (span.start + 1) opening &&
        match spanAt bytes opening with
        | .error _ => true
        | .ok inner => isUnwrapped bytes layers inner
    | _ => true

/-- **Whether a text is legible along a path.** -/
def isLegible (options : Options) (s : String) (p : Path) : Bool :=
  match exported options s, root options s with
  | .ok literal, .ok span =>
    isUnwrapped (Text.bytes s) ((Text.bytes s).length + 1) literal.span &&
      isLegibleFrom s p span p.steps
  | _, _ => true

end ConfigPatch.Literal
