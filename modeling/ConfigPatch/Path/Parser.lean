import ConfigPatch.Error

/-!
# Reading paths

A path is written as tokens with points between them. A token is a name,
an index in brackets, or a name followed by one index in brackets. Nothing
is escaped, so a name holds no point and no bracket, and an index is
written in decimal digits and fits into 64 bits.
-/

namespace ConfigPatch.Path

/-- The tokens between the points of a text; there is always one. -/
def tokens : List Char → List (List Char)
  | [] => [[]]
  | c :: cs =>
    if c = '.' then [] :: tokens cs
    else match tokens cs with
      | [] => [[c]]
      | token :: rest => (c :: token) :: rest

/-- Reads the digits between two brackets as an index. -/
def readIndex (digits : List Char) : Except Fault UInt64 :=
  if digits.isEmpty || !digits.all Char.isDigit then
    .error (.notNumeric (String.ofList digits))
  else
    let n := Nat.ofDigitChars 10 digits 0
    if n < 1 <<< 64 then .ok (.ofNat n) else .error (.tooLarge (String.ofList digits))

/-- Reads what stands before the opening bracket of a token and after it,
where `token` is the whole. -/
def readIndexed (token name inner : List Char) : Except Fault Path :=
  if inner.getLast? ≠ some ']' then .error (.unclosed (String.ofList token))
  else
    let digits := inner.dropLast
    if name.contains ']' || digits.contains '[' || digits.contains ']' then
      .error (.severalIndices (String.ofList token))
    else do
      let n ← readIndex digits
      return if name.isEmpty then [.index n]
        else [.property (String.ofList name), .index n]

/-- Reads one token: its segments are a property, an index, or both. -/
def readToken (token : List Char) : Except Fault Path :=
  if token.isEmpty then .error .emptySegment
  else match token.span (· ≠ '[') with
    | (_, []) =>
      if token.contains ']' then .error (.strayClose (String.ofList token))
      else .ok [.property (String.ofList token)]
    | (name, _ :: inner) => readIndexed token name inner

/-- The segments of all tokens, or the fault of the first faulty one. -/
def readTokens : List (List Char) → Except Fault Path
  | [] => .ok []
  | token :: rest => do
    let segments ← readToken token
    let more ← readTokens rest
    return segments ++ more

/-- **Reads a path.** A fault is reported together with the whole text. -/
def parse (s : String) : Except Error Path :=
  let outcome := if s.toList.isEmpty then .error .empty else readTokens (tokens s.toList)
  outcome.mapError (.malformedPath s)

end ConfigPatch.Path
