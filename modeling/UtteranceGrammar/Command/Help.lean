/-
What the command line says about itself.
-/
import UtteranceGrammar.Command.Run

set_option autoImplicit false

namespace UtteranceGrammar

/-- The program's name and version. -/
def versionText : String := programName ++ " 0.1.0\n"

/-- The help on a topic. -/
def HelpTopic.text : HelpTopic → String
  | .program =>
    "Generates utterances based on a combinatorial rules language\n\n" ++
    "Usage: ugen <COMMAND>\n\n" ++
    "Commands:\n" ++
    "  create  Create labelled test cases (JSON) from the intent rules\n" ++
    "  print   Print the utterances of every rule\n" ++
    "  help    Print this message or the help of the given subcommand(s)\n\n" ++
    "Options:\n" ++
    "  -h, --help     Print help\n" ++
    "  -V, --version  Print version\n"
  | .task .create =>
    "Create labelled test cases (JSON) from the intent rules\n\n" ++
    "Usage: ugen create [OPTIONS] <FILE>\n\n" ++
    "Arguments:\n" ++
    "  <FILE>  Input file with rules\n\n" ++
    "Options:\n" ++
    "  -o, --out <OUT>  Write output to this file instead of standard output\n" ++
    "  -f, --force      Overwrite the --out file if it already exists\n" ++
    "  -h, --help       Print help\n"
  | .task .print =>
    "Print the utterances of every rule\n\n" ++
    "Usage: ugen print [OPTIONS] <FILE>\n\n" ++
    "Arguments:\n" ++
    "  <FILE>  Input file with rules\n\n" ++
    "Options:\n" ++
    "  -o, --out <OUT>         Write output to this file instead of standard output\n" ++
    "  -f, --force             Overwrite the --out file if it already exists\n" ++
    "  -r, --rules <RULES>...  Names of rules to display; space, comma or semicolon separated\n" ++
    "  -h, --help              Print help\n"
  | .help =>
    "Print this message or the help of the given subcommand(s)\n\n" ++
    "Usage: ugen help [COMMAND]...\n\n" ++
    "Arguments:\n" ++
    "  [COMMAND]...  Print help for the subcommand(s)\n"

/-- The outcome of arguments that give no command. Wrong ones have a status of their own. -/
def Refusal.outcome : Refusal → Outcome
  | .usage => ⟨2, "", []⟩
  | .help topic => ⟨0, topic.text, []⟩
  | .version => ⟨0, versionText, []⟩

/-- Runs the command that the arguments give. -/
def runArguments {m : Type → Type} [Monad m] [Store m] (arguments : List String) : m Outcome :=
  match Arguments.parse arguments with
  | .error refusal => return refusal.outcome
  | .ok invocation => invocation.run

end UtteranceGrammar
