import ConfigPatch.Literal.Entry
import ConfigPatch.Proofs.Lexical.Local
import ConfigPatch.Proofs.Lexical.Replace
import ConfigPatch.Proofs.Text.Replacement

/-!
# Reading an entry is local

What an item of a mapping is read as depends on its own text. So an item
in front of a replacement is read as before, an item behind it as well but
for its offsets, and an item around it has the same key, and a value that
starts at the same place.
-/

namespace ConfigPatch.Literal

open Lexical

variable {s t : String} {bytes bytes' : List UInt8} {item : Span} {first quote : UInt8}
variable {offset limit k : Nat} {cs ds : List Char}

/-! ## The parts of reading -/

theorem opaqueEnd?_of_isQuote (h : bytes[offset]? = some quote) (hquote : isQuote quote = true) :
    opaqueEnd? bytes offset =
      some (offset + 1 + (Mode.quoted quote).extent (bytes.drop (offset + 1))) := by
  obtain ⟨hlt, hget⟩ := List.getElem?_eq_some_iff.1 h
  have hnext : Mode.next (byteBefore bytes offset) quote (bytes.drop (offset + 1)).head? .code =
      .quoted quote := by
    rw [Mode.next, if_pos hquote]
  rw [opaqueEnd?, List.drop_eq_getElem_cons hlt, hget]
  simp only [hnext, reduceCtorEq, if_false]

theorem triviaEnd_congr (h : bytes.take (limit + 1) = bytes'.take (limit + 1))
    (hle : offset ≤ limit) : triviaEnd bytes offset limit = triviaEnd bytes' offset limit := by
  have hlen : limit + 1 - offset = limit - offset + 1 := by omega
  refine triviaEndFrom_congr ?_
  rw [← hlen, ← List.drop_take, ← List.drop_take, h]

theorem triviaEnd_shift {front : List UInt8} :
    triviaEnd (front ++ bytes) (offset + front.length) (limit + front.length) =
      triviaEnd bytes offset limit + front.length := by
  rw [triviaEnd, triviaEnd, Nat.add_comm offset, List.drop_length_add_append,
    Nat.add_comm front.length offset, triviaEndFrom_shift]

/-- The bytes from an offset on fall apart at a byte further on. -/
theorem drop_eq_of_getElem? {b : UInt8} {stop : Nat} (hle : offset ≤ stop)
    (hb : bytes[stop]? = some b) :
    bytes.drop offset = (bytes.take stop).drop offset ++ b :: bytes.drop (stop + 1) := by
  obtain ⟨hlt, rfl⟩ := List.getElem?_eq_some_iff.1 hb
  have hlen : offset ≤ (bytes.take stop).length := by
    rw [List.length_take]
    omega
  rw [← List.drop_eq_getElem_cons, ← List.drop_append_of_le_length hlen, List.take_append_drop]

/-- Skipping stops at the same place in another text, if that is the same
up to there and goes on with what is neither a blank nor a slash. -/
theorem triviaEnd_replace {b : UInt8} {stop limit' : Nat} (h : triviaEnd bytes offset limit = stop)
    (hle : offset ≤ stop) (hlt : stop < limit) (hlt' : stop < limit') (hlen : stop < bytes.length)
    (htake : bytes'.take stop = bytes.take stop) (hb : bytes'[stop]? = some b)
    (hspace : isSpace b = false) (hslash : b ≠ slash) : triviaEnd bytes' offset limit' = stop := by
  have hskipped : ((bytes.take stop).drop offset).length = stop - offset := by
    rw [List.length_drop, List.length_take]
    omega
  have hstop : stop = offset + ((bytes.take stop).drop offset).length := by
    omega
  rw [triviaEnd, drop_eq_of_getElem? hle (List.getElem?_eq_getElem hlen)] at h
  rw [triviaEnd, drop_eq_of_getElem? hle hb, htake,
    triviaEndFrom_replace (h.trans hstop) (by omega) (by omega) hspace hslash, hskipped]
  omega

theorem isQuote_of_opensKey (h : first = doubleQuote ∨ first = singleQuote) :
    isQuote first = true := by
  rcases h with rfl | rfl <;> rfl

/-- A key in quotes ends with the string, or with the item. -/
theorem readKey?_of_quote {start stop keyEnd : Nat}
    (hquote : first = doubleQuote ∨ first = singleQuote)
    (hfirst : (Text.bytes s)[start]? = some first)
    (hend : min (start + 1 + (Mode.quoted first).extent ((Text.bytes s).drop (start + 1))) stop =
      keyEnd) :
    Entry.readKey? s ⟨start, stop⟩ first =
      if keyEnd < start + 2 then .ok none
      else do
        let key ← Failure.ofCut (Text.slice? s (start + 1) (keyEnd - 1))
        return some (key, keyEnd) := by
  rw [Entry.readKey?, if_pos hquote, opaqueEnd?_of_isQuote hfirst (isQuote_of_opensKey hquote),
    Option.getD_some, hend]

/-- **What a value is**: it starts behind a colon, blanks and comments, and
ends with the item. -/
theorem valueAfter?_eq_some {keyEnd stop : Nat} {value : Span} :
    Entry.valueAfter? bytes keyEnd stop = some value ↔
      ∃ mark < stop, triviaEnd bytes keyEnd stop = mark ∧ bytes[mark]? = some colon ∧
        triviaEnd bytes (mark + 1) stop = value.start ∧ value.start < value.stop ∧
        value.stop = stop := by
  unfold Entry.valueAfter?
  dsimp only
  constructor
  · intro h
    split at h
    · rename_i hmark
      split at h
      · rename_i hstart
        cases h
        exact ⟨_, hmark.1, rfl, hmark.2, rfl, hstart, rfl⟩
      · cases h
    · cases h
  · rintro ⟨mark, hmark, rfl, hcolon, hstart, hlt, rfl⟩
    rw [if_pos ⟨hmark, hcolon⟩, hstart, if_pos hlt]

/-- **What an entry is**: a key, and a value behind it. -/
theorem read?_eq_ok {entry : Entry} : Entry.read? s item = .ok (some entry) ↔
    ∃ first keyEnd, (Text.bytes s)[item.start]? = some first ∧
      Entry.readKey? s item first = .ok (some (entry.key, keyEnd)) ∧
      Entry.valueAfter? (Text.bytes s) keyEnd item.stop = some entry.value := by
  unfold Entry.read?
  constructor
  · intro h
    split at h
    · cases h
    · rename_i first hfirst
      obtain ⟨found, hkey, h⟩ := Failure.bind_eq_ok.1 h
      cases found with
      | none => cases h
      | some key =>
        obtain ⟨value, hvalue, rfl⟩ := Option.map_eq_some_iff.1 (Except.ok.inj h)
        exact ⟨first, key.2, hfirst, hkey, hvalue⟩
  · rintro ⟨first, keyEnd, hfirst, hkey, hvalue⟩
    rw [hfirst]
    dsimp only
    rw [hkey, Failure.ok_bind]
    dsimp only
    rw [hvalue]
    rfl

/-- The key of an item lies in it. -/
theorem Entry.readKey?_bounds {key : String} {keyEnd : Nat}
    (h : Entry.readKey? s item first = .ok (some (key, keyEnd))) :
    item.start < keyEnd ∧ keyEnd ≤ item.stop := by
  unfold Entry.readKey? at h
  split at h
  · dsimp only at h
    split at h
    · cases h
    · rename_i hlt
      obtain ⟨part, hpart, h⟩ := Failure.bind_eq_ok.1 h
      cases h
      omega
  · obtain ⟨whole, hwhole, h⟩ := Failure.bind_eq_ok.1 h
    obtain ⟨before, after, -, -, hstop⟩ := Text.slice?_eq_some_iff.1 (Failure.ofCut_eq_ok.1 hwhole)
    dsimp only at h
    split at h
    · cases h
    · rename_i hempty
      cases h
      have hsplit := congrArg (fun cs => (Text.utf8 cs).length)
        (whole.toList.takeWhile_append_dropWhile (p := Text.isWordChar))
      have hpos : 0 < (Text.utf8 (whole.toList.takeWhile Text.isWordChar)).length := by
        cases hkey : whole.toList.takeWhile Text.isWordChar with
        | nil =>
          rw [hkey] at hempty
          exact absurd rfl hempty
        | cons c cs =>
          have hsize := c.utf8Size_pos
          rw [Text.utf8_cons, List.length_append, String.length_utf8EncodeChar]
          omega
      rw [Text.utf8_append, List.length_append] at hsplit
      change item.start + (Text.utf8 whole.toList).length = item.stop at hstop
      omega

/-- The value of an entry starts behind its key and ends with the item. -/
theorem valueAfter?_bounds {keyEnd stop : Nat} {value : Span} (hle : keyEnd ≤ stop)
    (h : Entry.valueAfter? bytes keyEnd stop = some value) :
    keyEnd < value.start ∧ value.start < value.stop ∧ value.stop = stop := by
  obtain ⟨mark, hmark, hfirst, -, hsecond, hlt, hstop⟩ := valueAfter?_eq_some.1 h
  have hmarkLe : keyEnd ≤ mark := hfirst ▸ (le_triviaEnd hle).1
  have hnextLe : mark + 1 ≤ value.start := hsecond ▸ (le_triviaEnd hmark).1
  omega

/-- The value of an entry lies in the item, behind its start. -/
theorem read?_bounds {entry : Entry} (h : Entry.read? s item = .ok (some entry)) :
    item.start < entry.value.start ∧ entry.value.start < entry.value.stop ∧
      entry.value.stop = item.stop := by
  obtain ⟨first, keyEnd, -, hkey, hafter⟩ := read?_eq_ok.1 h
  have hkeyEnd := Entry.readKey?_bounds hkey
  have hvalue := valueAfter?_bounds hkeyEnd.2 hafter
  omega

/-! ## In front of a replacement -/

theorem getElem?_congr {n : Nat} (h : bytes.take (limit + 1) = bytes'.take (limit + 1))
    (hn : n ≤ limit) : bytes[n]? = bytes'[n]? := by
  have htake := congrArg (·[n]?) h
  rwa [List.getElem?_take_of_lt (by omega), List.getElem?_take_of_lt (by omega)] at htake

theorem readKey?_congr (hbytes : (Text.bytes s).take (item.stop + 1) =
      (Text.bytes t).take (item.stop + 1))
    (hslice : ∀ start stop, stop ≤ item.stop → Text.slice? s start stop = Text.slice? t start stop)
    (hle : item.start ≤ item.stop) (hfirst : (Text.bytes s)[item.start]? = some first) :
    Entry.readKey? s item first = Entry.readKey? t item first := by
  by_cases hquote : first = doubleQuote ∨ first = singleQuote
  · -- both strings end at the same place, or both go on to the end of the item
    have hfirst' : (Text.bytes t)[item.start]? = some first := by
      rw [← getElem?_congr hbytes hle, hfirst]
    have hdrop : ((Text.bytes s).drop (item.start + 1)).take (item.stop - (item.start + 1)) =
        ((Text.bytes t).drop (item.start + 1)).take (item.stop - (item.start + 1)) := by
      have htake := congrArg (List.take item.stop) hbytes
      rw [List.take_take, List.take_take, Nat.min_eq_left (by omega)] at htake
      rw [← List.drop_take, ← List.drop_take, htake]
    have hextent := extent_congr (show (Mode.quoted first).kind ≠ .comment by simp [Mode.kind]) hdrop
    have hstop : min (item.start + 1 + (Mode.quoted first).extent
          ((Text.bytes t).drop (item.start + 1))) item.stop =
        min (item.start + 1 + (Mode.quoted first).extent
          ((Text.bytes s).drop (item.start + 1))) item.stop := by
      omega
    rw [readKey?_of_quote hquote hfirst rfl, readKey?_of_quote hquote hfirst' hstop,
      hslice _ _ (by omega)]
  · rw [Entry.readKey?, Entry.readKey?, if_neg hquote, if_neg hquote, hslice _ _ (Nat.le_refl _)]

theorem valueAfter?_congr {keyEnd : Nat} (h : bytes.take (limit + 1) = bytes'.take (limit + 1))
    (hle : keyEnd ≤ limit) :
    Entry.valueAfter? bytes keyEnd limit = Entry.valueAfter? bytes' keyEnd limit := by
  unfold Entry.valueAfter?
  dsimp only
  rw [triviaEnd_congr h hle, getElem?_congr h (le_triviaEnd hle).2]
  split
  · rw [triviaEnd_congr h (by omega)]
  · rfl

/-- **An item is read from the bytes up to its end**, one byte ahead, and
from the slices in it. -/
theorem read?_congr (hbytes : (Text.bytes s).take (item.stop + 1) =
      (Text.bytes t).take (item.stop + 1)) (hle : item.start ≤ item.stop)
    (hslice : ∀ start stop, stop ≤ item.stop → Text.slice? s start stop = Text.slice? t start stop) :
    Entry.read? s item = Entry.read? t item := by
  unfold Entry.read?
  rw [← getElem?_congr hbytes hle]
  cases hfirst : (Text.bytes s)[item.start]? with
  | none => rfl
  | some first =>
    dsimp only
    rw [readKey?_congr hbytes hslice hle hfirst]
    cases hread : Entry.readKey? t item first with
    | error cause => rfl
    | ok key =>
      cases key with
      | none => rfl
      | some key =>
        have hbounds : item.start < key.2 ∧ key.2 ≤ item.stop := Entry.readKey?_bounds hread
        rw [Failure.ok_bind, Failure.ok_bind]
        dsimp only
        rw [valueAfter?_congr hbytes hbounds.2]

/-! ## Behind a replacement -/

/-- The entry so many bytes further on. -/
def Entry.shift (k : Nat) (entry : Entry) : Entry := ⟨entry.key, entry.value.shift k⟩

theorem bytes_ofList_append :
    Text.bytes (String.ofList (cs ++ ds)) = Text.utf8 cs ++ Text.bytes (String.ofList ds) := by
  simp [Text.bytes]

theorem readKey?_shift {start stop : Nat}
    (hfirst : (Text.bytes (String.ofList ds))[start]? = some first) :
    Entry.readKey? (String.ofList (cs ++ ds))
        ⟨start + (Text.utf8 cs).length, stop + (Text.utf8 cs).length⟩ first =
      (Entry.readKey? (String.ofList ds) ⟨start, stop⟩ first).map
        (Option.map fun key => (key.1, key.2 + (Text.utf8 cs).length)) := by
  have hget : (Text.bytes (String.ofList (cs ++ ds)))[start + (Text.utf8 cs).length]? =
      some first := by
    rw [bytes_ofList_append, List.getElem?_append_right (by omega), Nat.add_sub_cancel, hfirst]
  by_cases hquote : first = doubleQuote ∨ first = singleQuote
  · have hdrop : (Text.bytes (String.ofList (cs ++ ds))).drop
          (start + (Text.utf8 cs).length + 1) =
        (Text.bytes (String.ofList ds)).drop (start + 1) := by
      rw [bytes_ofList_append, Nat.add_right_comm, Nat.add_comm _ (Text.utf8 cs).length,
        List.drop_length_add_append]
    have hend : min (start + (Text.utf8 cs).length + 1 + (Mode.quoted first).extent
          ((Text.bytes (String.ofList (cs ++ ds))).drop (start + (Text.utf8 cs).length + 1)))
          (stop + (Text.utf8 cs).length) =
        min (start + 1 + (Mode.quoted first).extent
          ((Text.bytes (String.ofList ds)).drop (start + 1))) stop + (Text.utf8 cs).length := by
      rw [hdrop]
      omega
    rw [readKey?_of_quote hquote hget hend, readKey?_of_quote hquote hfirst rfl]
    generalize min _ stop = keyEnd
    by_cases hshort : keyEnd < start + 2
    · rw [if_pos hshort, if_pos (by omega)]
      rfl
    · have hstart : start + (Text.utf8 cs).length + 1 = start + 1 + (Text.utf8 cs).length := by
        omega
      have hstop : keyEnd + (Text.utf8 cs).length - 1 = keyEnd - 1 + (Text.utf8 cs).length := by
        omega
      rw [if_neg hshort, if_neg (by omega), hstart, hstop, Text.slice?_back]
      cases Text.slice? (String.ofList ds) (start + 1) (keyEnd - 1) <;> rfl
  · rw [Entry.readKey?, Entry.readKey?, if_neg hquote, if_neg hquote, Text.slice?_back]
    cases Text.slice? (String.ofList ds) start stop with
    | none => rfl
    | some whole =>
      rw [Failure.ofCut_some, Failure.ok_bind, Failure.ok_bind]
      dsimp only
      split
      · rfl
      · rw [Nat.add_right_comm]
        rfl

theorem valueAfter?_shift {front : List UInt8} {keyEnd stop : Nat} :
    Entry.valueAfter? (front ++ bytes) (keyEnd + front.length) (stop + front.length) =
      (Entry.valueAfter? bytes keyEnd stop).map (Span.shift front.length) := by
  have hget : (front ++ bytes)[triviaEnd bytes keyEnd stop + front.length]? =
      bytes[triviaEnd bytes keyEnd stop]? := by
    rw [List.getElem?_append_right (by omega), Nat.add_sub_cancel]
  unfold Entry.valueAfter?
  rw [triviaEnd_shift]
  dsimp only
  rw [hget, Nat.add_right_comm, triviaEnd_shift]
  by_cases hmark : triviaEnd bytes keyEnd stop < stop ∧ bytes[triviaEnd bytes keyEnd stop]? = some colon
  · rw [if_pos hmark, if_pos ⟨by omega, hmark.2⟩]
    by_cases hstart : triviaEnd bytes (triviaEnd bytes keyEnd stop + 1) stop < stop
    · rw [if_pos hstart, if_pos (by omega)]
      rfl
    · rw [if_neg hstart, if_neg (by omega)]
      rfl
  · rw [if_neg hmark, if_neg (fun h => hmark ⟨by omega, h.2⟩)]
    rfl

/-- **An item behind other text** is read as it is without that, but for
its offsets. -/
theorem read?_shift :
    Entry.read? (String.ofList (cs ++ ds)) (item.shift (Text.utf8 cs).length) =
      (Entry.read? (String.ofList ds) item).map
        (Option.map (Entry.shift (Text.utf8 cs).length)) := by
  have hget : (Text.bytes (String.ofList (cs ++ ds)))[(item.shift (Text.utf8 cs).length).start]? =
      (Text.bytes (String.ofList ds))[item.start]? := by
    change (Text.bytes (String.ofList (cs ++ ds)))[item.start + (Text.utf8 cs).length]? = _
    rw [bytes_ofList_append, List.getElem?_append_right (by omega), Nat.add_sub_cancel]
  unfold Entry.read?
  rw [hget]
  cases hfirst : (Text.bytes (String.ofList ds))[item.start]? with
  | none => rfl
  | some first =>
    have hkey : Entry.readKey? (String.ofList (cs ++ ds)) (item.shift (Text.utf8 cs).length) first =
        _ := readKey?_shift hfirst
    dsimp only
    rw [hkey]
    cases Entry.readKey? (String.ofList ds) item first with
    | error cause => rfl
    | ok key =>
      cases key with
      | none => rfl
      | some key =>
        change Except.ok ((Entry.valueAfter? (Text.bytes (String.ofList (cs ++ ds)))
          (key.2 + (Text.utf8 cs).length) (item.stop + (Text.utf8 cs).length)).map (⟨key.1, ·⟩)) =
          Except.ok (((Entry.valueAfter? (Text.bytes (String.ofList ds)) key.2 item.stop).map
            (⟨key.1, ·⟩)).map (Entry.shift (Text.utf8 cs).length))
        rw [bytes_ofList_append, valueAfter?_shift]
        cases Entry.valueAfter? (Text.bytes (String.ofList ds)) key.2 item.stop <;> rfl

/-! ## Around a replacement -/

/-- The key of an item is read from the characters up to its end. -/
theorem takeWhile_append_of_lt {p : Char → Bool} {front rest : List Char} (rest' : List Char)
    (h : (Text.utf8 ((front ++ rest).takeWhile p)).length < (Text.utf8 front).length) :
    (front ++ rest').takeWhile p = (front ++ rest).takeWhile p := by
  rw [List.takeWhile_append] at h ⊢
  rw [List.takeWhile_append]
  split
  · rename_i hall
    rw [if_pos hall, Text.utf8_append, List.length_append] at h
    omega
  · rfl

variable {x : Text.Replacement} {start n : Nat}

theorem readKey?_around {key : String} {keyEnd : Nat}
    (h : Entry.readKey? x.source ⟨start, x.oldStop + n⟩ first = .ok (some (key, keyEnd)))
    (hfirst : (Text.bytes x.source)[start]? = some first) (hkey : keyEnd < x.start) :
    Entry.readKey? x.outcome ⟨start, x.newStop + n⟩ first = .ok (some (key, keyEnd)) := by
  have hold : x.start ≤ x.oldStop := Nat.le_add_right _ _
  have hnew : x.start ≤ x.newStop := Nat.le_add_right _ _
  have hstart := (Entry.readKey?_bounds h).1
  dsimp only at hstart
  by_cases hquote : first = doubleQuote ∨ first = singleQuote
  · -- the string ends in front of the part
    have hfirst' : (Text.bytes x.outcome)[start]? = some first := by
      rw [x.getElem?_bytes (by omega), hfirst]
    have htake : ((Text.bytes x.source).drop (start + 1)).take (x.start - (start + 1)) =
        ((Text.bytes x.outcome).drop (start + 1)).take (x.start - (start + 1)) := by
      rw [← List.drop_take, ← List.drop_take, x.take_bytes (Nat.le_refl _)]
    have hextent := extent_congr (show (Mode.quoted first).kind ≠ .comment by simp [Mode.kind]) htake
    rw [readKey?_of_quote hquote hfirst rfl] at h
    split at h
    · cases h
    · rename_i hlong
      obtain ⟨part, hpart, h⟩ := Failure.bind_eq_ok.1 h
      cases h
      have hstop : min (start + 1 + (Mode.quoted first).extent
            ((Text.bytes x.outcome).drop (start + 1))) (x.newStop + n) =
          min (start + 1 + (Mode.quoted first).extent
            ((Text.bytes x.source).drop (start + 1))) (x.oldStop + n) := by
        omega
      rw [readKey?_of_quote hquote hfirst' hstop, if_neg hlong,
        x.slice?_outcome (Failure.ofCut_eq_ok.1 hpart) (by omega)]
      rfl
  · rw [Entry.readKey?, if_neg hquote] at h ⊢
    dsimp only at h ⊢
    obtain ⟨whole, hwhole, h⟩ := Failure.bind_eq_ok.1 h
    obtain ⟨front, rest, rest', whole', hslice, hparts, hparts', hlen⟩ :=
      Text.slice?_around (Failure.ofCut_eq_ok.1 hwhole) (by omega)
    rw [hslice, Failure.ofCut_some, Failure.ok_bind]
    split at h
    · cases h
    · rename_i hempty
      cases h
      rw [hparts] at hkey hempty ⊢
      -- the name ends in front of the part, so the slice need not go on the same way
      have hsame : (front ++ rest').takeWhile Text.isWordChar =
          (front ++ rest).takeWhile Text.isWordChar := takeWhile_append_of_lt rest' (by omega)
      rw [hparts', hsame, if_neg hempty]
      rfl

/-- The value of an item around the part starts where it did, if it still
starts there with what is neither a blank nor a slash. -/
theorem valueAfter?_around {b : UInt8} {keyEnd : Nat} {value : Span}
    (h : Entry.valueAfter? (Text.bytes x.source) keyEnd (x.oldStop + n) = some value)
    (hkeyEnd : keyEnd ≤ x.oldStop + n) (hvalue : value.start ≤ x.start)
    (hb : (Text.bytes x.outcome)[value.start]? = some b) (hspace : isSpace b = false)
    (hslash : b ≠ slash) (hlt : x.start < x.newStop) (hlen : n ≤ (Text.utf8 x.back).length) :
    Entry.valueAfter? (Text.bytes x.outcome) keyEnd (x.newStop + n) =
      some ⟨value.start, x.newStop + n⟩ := by
  have hsource : x.oldStop + n ≤ (Text.bytes x.source).length := by
    rw [x.length_bytes_source]
    omega
  obtain ⟨mark, hmark, hfirst, hcolon, hsecond, hend, hstop⟩ := valueAfter?_eq_some.1 h
  have hmarkLe : keyEnd ≤ mark := hfirst ▸ (le_triviaEnd hkeyEnd).1
  have hnextLe : mark + 1 ≤ value.start := hsecond ▸ (le_triviaEnd hmark).1
  have hcolon' : (Text.bytes x.outcome)[mark]? = some colon := by
    rw [x.getElem?_bytes (by omega), hcolon]
  have hmark' : triviaEnd (Text.bytes x.outcome) keyEnd (x.newStop + n) = mark :=
    triviaEnd_replace hfirst hmarkLe hmark (by omega) (by omega) (x.take_bytes (by omega))
      hcolon' (by decide) (by decide)
  have hvalue' : triviaEnd (Text.bytes x.outcome) (mark + 1) (x.newStop + n) = value.start :=
    triviaEnd_replace hsecond hnextLe (by omega) (by omega) (by omega) (x.take_bytes hvalue)
      hb hspace hslash
  have hend' : value.start < x.newStop + n := by omega
  exact valueAfter?_eq_some.2 ⟨mark, by omega, hmark', hcolon', hvalue', hend', rfl⟩

/-- **An item around the part that is replaced** keeps its key, and its
value starts where it did. -/
theorem read?_around {entry : Entry} {b : UInt8}
    (h : Entry.read? x.source ⟨start, x.oldStop + n⟩ = .ok (some entry))
    (hvalue : entry.value.start ≤ x.start)
    (hb : (Text.bytes x.outcome)[entry.value.start]? = some b) (hspace : isSpace b = false)
    (hslash : b ≠ slash) (hlt : x.start < x.newStop) (hlen : n ≤ (Text.utf8 x.back).length) :
    Entry.read? x.outcome ⟨start, x.newStop + n⟩ =
      .ok (some ⟨entry.key, ⟨entry.value.start, x.newStop + n⟩⟩) := by
  obtain ⟨first, keyEnd, hfirst, hkey, hafter⟩ := read?_eq_ok.1 h
  have hbounds := Entry.readKey?_bounds hkey
  have hbehind := valueAfter?_bounds hbounds.2 hafter
  dsimp only at hfirst hbounds hafter
  refine read?_eq_ok.2 ⟨first, keyEnd, ?_, readKey?_around hkey hfirst (by omega), ?_⟩
  · rw [x.getElem?_bytes (by dsimp only; omega), hfirst]
  · exact valueAfter?_around hafter hbounds.2 hvalue hb hspace hslash hlt hlen

end ConfigPatch.Literal
