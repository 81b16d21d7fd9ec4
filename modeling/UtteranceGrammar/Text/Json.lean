/-
JSON, laid out in lines.

A value is given as the lines that show it. A string or a number takes one line. An array or object
with something in it takes a line for its opening bracket, the lines of its members, indented by two
spaces, and a line for its closing bracket; a comma follows the last line of every member but the
last. An empty one takes a line. In strings, only what has to be escaped is: the quote, the backslash
and the control characters below U+0020, five of which have a letter of their own.
-/
import UtteranceGrammar.Text.Basic

set_option autoImplicit false

namespace UtteranceGrammar

namespace Json

/-- A character as it stands in a JSON string. -/
def escape (c : Char) : Text :=
  if c = '"' then ['\\', '"']
  else if c = '\\' then ['\\', '\\']
  else if c = '\n' then ['\\', 'n']
  else if c = '\r' then ['\\', 'r']
  else if c = '\t' then ['\\', 't']
  else if c = '\x08' then ['\\', 'b']
  else if c = '\x0c' then ['\\', 'f']
  else if c.toNat < 0x20 then
    ['\\', 'u', '0', '0', (c.toNat / 16).digitChar, (c.toNat % 16).digitChar]
  else [c]

/-- A text as a JSON string. -/
def quoted (s : Text) : Text := '"' :: (s.flatMap escape ++ ['"'])

/-- The lines that show a value. -/
abbrev Lines := List Text

/-- A string. -/
def string (s : Text) : Lines := [quoted s]

/-- A number. -/
def number (n : Nat) : Lines := [Nat.toDigits 10 n]

/-- Lines with a comma behind the last of them. -/
def withComma : Lines → Lines
  | [] => []
  | [line] => [line ++ [',']]
  | line :: next :: lines => line :: withComma (next :: lines)

/-- The lines of all members, with commas between them. -/
def separated : List Lines → Lines
  | [] => []
  | [member] => member
  | member :: next :: members => withComma member ++ separated (next :: members)

/-- Members between brackets. -/
def bracketed (opening closing : Char) (members : List Lines) : Lines :=
  if members.isEmpty then [[opening, closing]]
  else [opening] :: ((separated members).map (' ' :: ' ' :: ·) ++ [[closing]])

/-- An array. -/
def array (members : List Lines) : Lines := bracketed '[' ']' members

/-- A value behind its key. -/
def keyed (key : String) : Lines → Lines
  | [] => []
  | line :: lines => (quoted key.toList ++ ':' :: ' ' :: line) :: lines

/-- An object, its keys in the given order. -/
def object (members : List (String × Lines)) : Lines :=
  bracketed '{' '}' (members.map fun (key, value) => keyed key value)

/-- Lines as one text, without a line feed at its end. -/
def render (lines : Lines) : Text := ['\n'].intercalate lines

end Json

end UtteranceGrammar
