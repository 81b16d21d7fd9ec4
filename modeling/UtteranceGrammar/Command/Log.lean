/-
The log of a run.

An event has a level and a message, and is shown if the log's own level lets it through. That level is
set by a text: the name or the number of a level, or the beginning of the name of the program whose
events are to be shown, all of them. A terminal is not to be steered by what a grammar has in it: the
control characters that could do so are shown by their codes.
-/
import UtteranceGrammar.Text.Basic

set_option autoImplicit false

namespace UtteranceGrammar

/-- The name of the program whose log it is. -/
def programName : String := "ugen"

/-- How much an event matters, from what always does to the smallest detail. -/
inductive Level where
  | error
  | warn
  | info
  | debug
  | trace
deriving DecidableEq, Repr

namespace Level

/-- The levels that let this one through, as a number: one that is shown at all is shown at every
greater number too. -/
def rank : Level → Nat
  | error => 1
  | warn => 2
  | info => 3
  | debug => 4
  | trace => 5

/-- The level's name in front of an event. -/
def label : Level → String
  | error => "ERROR"
  | warn => "WARN"
  | info => "INFO"
  | debug => "DEBUG"
  | trace => "TRACE"

end Level

/-- Something that happened in a run. -/
structure Event where
  level : Level
  message : String
deriving DecidableEq, Repr

/-- Which events are shown. -/
structure Verbosity where
  /-- The greatest rank that is shown. -/
  rank : Nat
deriving DecidableEq, Repr

namespace Verbosity

/-- Nothing is shown. -/
def silent : Verbosity := ⟨0⟩

/-- A level and all that matter more are shown. -/
def upTo (level : Level) : Verbosity := ⟨level.rank⟩

/-- What is shown if nothing is asked for. -/
def standard : Verbosity := upTo .info

/-- The verbosity whose rank a text gives in digits, which may have zeros in front. -/
def ofNumber? (digits : Text) : Option Verbosity :=
  match digits.dropWhile (· = '0') with
  | [] => if digits.isEmpty then none else some silent
  | ['1'] => some (upTo .error)
  | ['2'] => some (upTo .warn)
  | ['3'] => some (upTo .info)
  | ['4'] => some (upTo .debug)
  | ['5'] => some (upTo .trace)
  | _ => none

/-- The verbosity whose level a text names, in letters of any case. The level that lets nothing through
is `off`. -/
def ofName? (name : Text) : Option Verbosity :=
  match String.ofList (name.map Char.toLower) with
  | "off" => some silent
  | "error" => some (upTo .error)
  | "warn" => some (upTo .warn)
  | "info" => some (upTo .info)
  | "debug" => some (upTo .debug)
  | "trace" => some (upTo .trace)
  | _ => none

/-- Whether a setting that is no level can be a name. All characters beyond ASCII count as letters. -/
def startsName : Text → Bool
  | [] => false
  | c :: _ => c.isAlphanum || c == '_' || c == '-' || c == ':' || 0x80 ≤ c.toNat

/-- The verbosity that a setting asks for. A level asks for what it lets through, and an empty setting
for silence. A name that is no level asks for all events of the programs whose names start with it,
and for none of others. What is no name either asks for nothing. -/
def ofSetting (setting : String) : Verbosity :=
  let s := setting.toList
  match ofNumber? s <|> ofName? s with
  | some v => v
  | none =>
    if s.isEmpty then silent
    -- blanks around a name belong to it, but it is a name by what stands behind them
    else if startsName (Text.trim s) then
      if s.isPrefixOf programName.toList then upTo .trace else silent
    else standard

/-- Whether an event is shown. -/
def shows (v : Verbosity) (e : Event) : Bool := e.level.rank ≤ v.rank

end Verbosity

namespace Event

/-- A character as the log shows it. -/
def visible (c : Char) : Text :=
  let n := c.toNat
  if n = 0x1B then "\\x1b".toList
  else if n = 0x07 then "\\x07".toList
  else if n = 0x08 then "\\x08".toList
  else if n = 0x0C then "\\x0c".toList
  else if n = 0x7F then "\\x7f".toList
  else if 0x80 ≤ n ∧ n ≤ 0x9F then "\\u\x7b".toList ++ Nat.toDigits 16 n ++ "\x7d".toList
  else [c]

/-- An event as the log shows it. -/
def line (e : Event) : String :=
  e.level.label ++ " " ++ String.ofList (e.message.toList.flatMap visible) ++ "\n"

end Event

end UtteranceGrammar
