/-
Errors in a source, and how they are shown.

An error is an offset into the source and what was expected there. Its line and column are those of
the offset, counted from one in characters; a line ends with its line feed. To show the error, its
picture quotes the source with a caret under the fault.

The caret of a source of several lines follows a rule of its own. It stands under a character, and the
end of the source is none: an error there is shown one place behind the last character, and on that
character's line even if it is the line feed that ends it. And a character that takes several bytes in
UTF-8 has its place counted in bytes, as has every character of a source of one line. The places
agree with line and column in a source of ASCII characters that does not end in a line feed.
-/
import UtteranceGrammar.Source.Reader

set_option autoImplicit false

namespace UtteranceGrammar

/-! ## Places in a text -/

namespace Text

/-- What stands behind the last line feed of a text, or all of it if it has none. -/
def lastLine (s : Text) : Text := (s.reverse.takeWhile (· != '\n')).reverse

/-- The line, counted from one, on which a text with `before` in front of it starts. -/
def lineAfter (before : Text) : Nat := before.count '\n' + 1

/-- The column, counted from one, in which a text with `before` in front of it starts. -/
def columnAfter (before : Text) : Nat := (lastLine before).length + 1

/-- The number of bytes that a text takes in UTF-8. -/
def byteCount (s : Text) : Nat := s.foldr (fun c n => c.utf8Size + n) 0

/-- The decimal digits of a number. -/
def decimal (n : Nat) : Text := Nat.toDigits 10 n

end Text

/-! ## Errors -/

/-- Where a source stops being a grammar, and what was expected there. -/
structure SourceError where
  source : Text
  /-- How many of its characters stand before the fault. -/
  offset : Nat
  /-- What could have stood there, the innermost expectation first. -/
  expected : List Expectation
deriving DecidableEq, Repr

namespace SourceError

/-- The source up to the fault. -/
def before (e : SourceError) : Text := e.source.take e.offset

/-- The line of the fault. -/
def line (e : SourceError) : Nat := Text.lineAfter e.before

/-- The column of the fault. -/
def column (e : SourceError) : Nat := Text.columnAfter e.before

/-- The line and the column under which the caret stands in a source of several lines. -/
def caret (e : SourceError) : Nat × Nat :=
  match e.source.drop e.offset with
  | [] =>
    let before := e.source.dropLast
    (Text.lineAfter before, Text.columnAfter before + 1)
  | c :: _ =>
    if c.utf8Size = 1 then (e.line, e.column)
    else (e.line, Text.byteCount (Text.lastLine e.before) + 1)

/-- The source, with a caret under the fault: all of it if it is one line, or else its line at fault,
under a heading and behind its number. -/
def picture (e : SourceError) : Text :=
  if '\n' ∈ e.source then
    let (line, column) := e.caret
    let number := Text.decimal line
    let gutter := List.replicate number.length ' '
    let quoted := ((Text.split (· == '\n') e.source)[line - 1]?).getD []
    "parse error at line ".toList ++ number ++ ", column ".toList ++ Text.decimal column ++
      '\n' :: gutter ++ " |\n".toList ++
      number ++ " | ".toList ++ quoted ++
      '\n' :: gutter ++ " | ".toList ++ List.replicate (column - 1) ' ' ++ "^\n".toList
  else
    e.source ++ '\n' :: List.replicate (Text.byteCount e.before) ' ' ++ "^\n".toList

/-- What was expected, in words. -/
def wanted (e : SourceError) : Text :=
  if e.expected.isEmpty then []
  else "expected ".toList ++ [',', ' '].intercalate (e.expected.map Expectation.describe)

/-- The picture of the fault, and what was expected there. -/
def detail (e : SourceError) : String := String.ofList (e.picture ++ e.wanted)

/-- The wording of the error. -/
def message (e : SourceError) : String := s!"parse error at {e.line}:{e.column}: " ++ e.detail

end SourceError

/-- The failure as an error in `source`, which ends with what the failure left unread. -/
def Failure.inSource (f : Failure) (source : Text) : SourceError :=
  ⟨source, source.length - f.rest.length, f.expected⟩

/-- The grammar that a source is the written form of. -/
def Grammar.parse (source : Text) : Except SourceError Grammar :=
  (Grammar.read source).mapError (·.inSource source)

end UtteranceGrammar
