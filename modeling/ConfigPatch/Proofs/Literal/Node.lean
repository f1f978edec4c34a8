import ConfigPatch.Literal.Export
import ConfigPatch.Options
import ConfigPatch.Path.Basic
import ConfigPatch.Proofs.Lexical.Trivia
import ConfigPatch.Text.Quoted

/-!
# The literals of configuration files

`Node` is the tree of a literal as it is written: words and strings,
mappings and sequences, with the blanks and comments between their tokens.
Its text is that of `Node.lexemes`. `Target.down?` says what a segment of
a path leads to in such a tree and where in the text that stands, and
`Source` is the file around it. None of this reads text: the resolver of
paths is held against it.
-/

namespace ConfigPatch.Literal

open Lexical Lexeme

/-! ## Trees -/

/-- Blanks and comments. -/
abbrev Gap := List Lexeme

/-- What stands between two commas, with the gaps around it. -/
structure Slot (α : Type) where
  lead : Gap
  core : α
  trail : Gap

/-- The key of an entry. -/
inductive Key where
  | bare (name : List Char)
  | quoted (quote : Quotes) (inside : List Char)

/-- An entry of a mapping whose values are of a given kind. What is spread
is any word, such as a property of something else. -/
inductive Item (α : Type) where
  | pair (key : Key) (before after : Gap) (value : α)
  | shorthand (name : List Char)
  | spread (expr : List Char)

/-- **A literal.** Its entries or items have commas between them; a last
comma is followed by the gap before the bracket. An item that is not there
is a hole. -/
inductive Node where
  | word (text : List Char)
  | string (quote : Char) (inside : List Char)
  | object (entries : List (Slot (Item Node))) (close : Option Gap)
  | array (items : List (Slot (Option Node))) (close : Option Gap)

/-! ## Text -/

/-- The key as it is written. -/
def Key.lexeme : Key → Lexeme
  | .bare name => .word name
  | .quoted quote inside => .string quote.char inside

/-- The name that a path has to give. -/
def Key.name : Key → String
  | .bare name => String.ofList name
  | .quoted _ inside => String.ofList inside

/-- The slot with something else in it. -/
def Slot.map {α β : Type} (f : α → β) (slot : Slot α) : Slot β :=
  ⟨slot.lead, f slot.core, slot.trail⟩

/-- The lexemes of a slot. -/
def Slot.lexemes (slot : Slot (List Lexeme)) : List Lexeme :=
  slot.lead ++ (slot.core ++ slot.trail)

/-- Slots with commas between them. -/
def joined : List (Slot (List Lexeme)) → Option Gap → List Lexeme
  | [], close => close.getD []
  | [slot], none => slot.lexemes
  | slot :: rest, close => slot.lexemes ++ .comma :: joined rest close

mutual

/-- **The lexemes of a literal.** -/
def Node.lexemes : Node → List Lexeme
  | .word text => [.word text]
  | .string quote inside => [.string quote inside]
  | .object entries close =>
    .opening .brace :: (joined (entrySlots entries) close ++ [.closing .brace])
  | .array items close =>
    .opening .square :: (joined (itemSlots items) close ++ [.closing .square])

/-- The lexemes of the entries of a mapping. -/
def entrySlots : List (Slot (Item Node)) → List (Slot (List Lexeme))
  | [] => []
  | ⟨lead, .pair key before after value, trail⟩ :: rest =>
    ⟨lead, key.lexeme :: (before ++ .colon :: (after ++ value.lexemes)), trail⟩ ::
      entrySlots rest
  | ⟨lead, .shorthand name, trail⟩ :: rest => ⟨lead, [.word name], trail⟩ :: entrySlots rest
  | ⟨lead, .spread expr, trail⟩ :: rest =>
    ⟨lead, [.word ('.' :: '.' :: '.' :: expr)], trail⟩ :: entrySlots rest

/-- The lexemes of the items of a sequence. -/
def itemSlots : List (Slot (Option Node)) → List (Slot (List Lexeme))
  | [] => []
  | ⟨lead, some node, trail⟩ :: rest => ⟨lead, node.lexemes, trail⟩ :: itemSlots rest
  | ⟨lead, none, trail⟩ :: rest => ⟨lead, [], trail⟩ :: itemSlots rest

end

/-- The lexemes of one entry. -/
def Item.lexemes : Item Node → List Lexeme
  | .pair key before after value =>
    key.lexeme :: (before ++ .colon :: (after ++ value.lexemes))
  | .shorthand name => [.word name]
  | .spread expr => [.word ('.' :: '.' :: '.' :: expr)]

/-- The lexemes of one item, if it is no hole. -/
def placeLexemes (item : Option Node) : List Lexeme := item.elim [] Node.lexemes

theorem entrySlots_eq_map (entries : List (Slot (Item Node))) :
    entrySlots entries = entries.map (Slot.map Item.lexemes) := by
  induction entries with
  | nil => rfl
  | cons slot rest ih =>
    obtain ⟨lead, entry, trail⟩ := slot
    cases entry <;> simp [entrySlots, ih, Slot.map, Item.lexemes]

theorem itemSlots_eq_map (items : List (Slot (Option Node))) :
    itemSlots items = items.map (Slot.map placeLexemes) := by
  induction items with
  | nil => rfl
  | cons slot rest ih =>
    obtain ⟨lead, item, trail⟩ := slot
    cases item <;> simp [itemSlots, ih, Slot.map, placeLexemes]

/-! ## Which trees are written -/

/-- Whether a literal ends with a bracket. -/
def Node.isContainer : Node → Bool
  | .word _ | .string _ _ => false
  | .object _ _ | .array _ _ => true

/-- Names are made of identifier characters, strings end with their
quote. -/
def Key.isWellFormed : Key → Bool
  | .bare name => Text.isWord name
  | .quoted quote inside => (Lexeme.string quote.char inside).isWellFormed

/-- Whether gaps may stand around something that may end with a bracket.
Where it does not, a blank comes before a comment. -/
def isFrame (lead : Gap) (bracket : Bool) (trail : Gap) : Bool :=
  isGap lead && isGap trail && (bracket || isApart trail)

/-- Whether the last item is a hole. -/
def endsWithHole (items : List (Slot (Option Node))) : Bool :=
  items.getLast?.any fun slot => slot.core.isNone

mutual

/-- **The literals that are written.** A hole at the end needs a comma,
and so does not count as the end of the sequence. -/
def Node.isWellFormed : Node → Bool
  | .word text => (Lexeme.word text).isWellFormed
  | .string quote inside => (Lexeme.string quote inside).isWellFormed
  | .object entries close => entriesWellFormed entries && close.all isGap
  | .array items close =>
    itemsWellFormed items && close.all isGap && (close.isSome || !endsWithHole items)

/-- The same for the entries of a mapping. -/
def entriesWellFormed : List (Slot (Item Node)) → Bool
  | [] => true
  | ⟨lead, .pair key before after value, trail⟩ :: rest =>
    isFrame lead value.isContainer trail && key.isWellFormed &&
      (isGap before && isApart before && isGap after) &&
      value.isWellFormed && entriesWellFormed rest
  | ⟨lead, .shorthand name, trail⟩ :: rest =>
    isFrame lead false trail && Text.isWord name && entriesWellFormed rest
  | ⟨lead, .spread expr, trail⟩ :: rest =>
    isFrame lead false trail && (Lexeme.word expr).isWellFormed && entriesWellFormed rest

/-- The same for the items of a sequence. The gap of a hole is the one
before it. -/
def itemsWellFormed : List (Slot (Option Node)) → Bool
  | [] => true
  | ⟨lead, some node, trail⟩ :: rest =>
    isFrame lead node.isContainer trail && node.isWellFormed && itemsWellFormed rest
  | ⟨lead, none, trail⟩ :: rest => isGap lead && trail.isEmpty && itemsWellFormed rest

end

/-! ## What a path leads to -/

/-- The contents of slots with the offsets at which they start. The slots
stand from an offset on, each with a comma after it. -/
def cores {α : Type} (lexemes : α → List Lexeme) (offset : Nat) : List (Slot α) → List (Nat × α)
  | [] => []
  | slot :: rest =>
    (offset + width slot.lead, slot.core) ::
      cores lexemes (offset + width (slot.map lexemes).lexemes + 1) rest

/-- **What a path leads to**: a literal, or a hole, and the offset at which
it starts. -/
structure Target where
  start : Nat
  node : Option Node

namespace Target

/-- The lexemes. -/
def lexemes (t : Target) : List Lexeme := placeLexemes t.node

/-- The span. A hole has no bytes. -/
def span (t : Target) : Span := ⟨t.start, t.start + width t.lexemes⟩

end Target

/-- The value of an entry that stands at an offset, with its name.
Shorthands and spreads have none. -/
def Item.member? (start : Nat) : Item Node → Option (String × Target)
  | .pair key before after value =>
    some (key.name, ⟨start + width (key.lexeme :: (before ++ .colon :: after)), some value⟩)
  | .shorthand _ | .spread _ => none

/-- The values of the entries that stand from an offset on, with their
names. -/
def members (offset : Nat) (entries : List (Slot (Item Node))) : List (String × Target) :=
  (cores Item.lexemes offset entries).filterMap fun place => place.2.member? place.1

/-- The items that stand from an offset on. -/
def places (offset : Nat) (items : List (Slot (Option Node))) : List Target :=
  (cores placeLexemes offset items).map fun place => ⟨place.1, place.2⟩

/-- **What a segment leads to.** Of several entries of a name it is the
last one. -/
def Target.down? (t : Target) (segment : Segment) : Option Target :=
  match segment, t.node with
  | .property name, some (.object entries _) =>
    ((members (t.start + 1) entries).filter (·.1 == name)).getLast?.map Prod.snd
  | .index n, some (.array items _) => (places (t.start + 1) items)[n.toNat]?
  | _, _ => none

theorem Target.down?_object {start : Nat} {entries : List (Slot (Item Node))}
    {close : Option Gap} {name : String} :
    Target.down? ⟨start, some (.object entries close)⟩ (.property name) =
      ((members (start + 1) entries).filter (·.1 == name)).getLast?.map Prod.snd := rfl

theorem Target.down?_array {start : Nat} {items : List (Slot (Option Node))}
    {close : Option Gap} {n : UInt64} :
    Target.down? ⟨start, some (.array items close)⟩ (.index n) =
      (places (start + 1) items)[n.toNat]? := rfl

/-! ## Files -/

/-- **A configuration file**: a mapping after the words of an export
statement, and perhaps within a call of the factory. -/
structure Source where
  convention : Convention
  wrapped : Bool
  lead : Gap
  entries : List (Slot (Item Node))
  close : Option Gap
  trail : Gap

namespace Source

/-- The words of an export statement. -/
def words : Convention → List Char
  | .exportDefault => "export default ".toList
  | .moduleExports => "module.exports = ".toList

/-- What stands before the mapping and its gap. -/
def header (options : Options) (source : Source) : List Char :=
  words source.convention ++ if source.wrapped then options.factory.toList ++ ['('] else []

/-- The exported mapping. -/
def root (source : Source) : Node := .object source.entries source.close

/-- What stands after the header. -/
def body (source : Source) : List Lexeme :=
  source.lead ++ (source.root.lexemes ++ (source.trail ++
    if source.wrapped then [.closing .round] else []))

/-- **The text of a file.** -/
def text (options : Options) (source : Source) : String :=
  String.ofList (source.header options ++ Lexeme.text source.body)

/-- Whether the name can be that of a function. -/
def isFunctionName : List Char → Bool
  | [] => false
  | c :: cs => isNameChar c && !c.isDigit && cs.all isNameChar

/-- The files that are written. -/
def isWellFormed (options : Options) (source : Source) : Bool :=
  isFrame source.lead true source.trail && source.root.isWellFormed &&
    (!source.wrapped || isFunctionName options.factory.toList)

/-- Where the mapping stands. -/
def target (options : Options) (source : Source) : Target :=
  ⟨(Text.utf8 (source.header options)).length + width source.lead, some source.root⟩

/-- **What a path leads to in a file.** -/
def locate? (options : Options) (source : Source) (p : Path) : Option Target :=
  p.foldlM Target.down? (source.target options)

end Source

end ConfigPatch.Literal
