/-
The arguments of the command line.

The first argument is the command: `create` or `print`, or `help`, or an option that asks for help or
for the version. What follows `create` or `print` is read from left to right. An argument that starts
with two dashes is a long option, its value, if it has one attached, behind an equals sign; one that
starts with one dash is a cluster of short options, of which the first that takes a value takes the
rest of the cluster as its value, less an equals sign in front. Two dashes alone end the options. A
single dash, and anything without one, is a value: of the option before it, if that still waits for
values, or else of the command, which takes one, the input file.

`--out` waits for one value and may be given once; `--rules` takes every value that comes, but needs one
each time it is given; `--force` takes none and may be given once. A value attached to an option is its
only one. No file may have an empty name. What an argument gives is checked when the next argument is
begun, or at the end: so a request for help is granted only if nothing before it is wrong.
-/
set_option autoImplicit false

namespace UtteranceGrammar

/-- What is to be written. -/
inductive Task where
  | create
  | print
deriving DecidableEq, Repr

/-- A command that can be carried out. -/
structure Invocation where
  task : Task
  /-- The file with the grammar. -/
  file : String
  /-- The file to write to, if not the standard output. -/
  out : Option String
  /-- Whether a file that is there already may be written over. -/
  force : Bool
  rules : List String
deriving DecidableEq, Repr

/-- What the help is about. -/
inductive HelpTopic where
  | program
  | task (t : Task)
  | help
deriving DecidableEq, Repr

/-- Why arguments are not carried out. -/
inductive Refusal where
  | usage
  | help (topic : HelpTopic)
  | version
deriving DecidableEq, Repr

namespace Arguments

/-- The argument whose values are being read. -/
inductive Pending where
  | nothing
  | file (path : String)
  /-- The output file, once its path is there. -/
  | out (path : Option String)
  | rules (values : List String)

/-- What has been read so far. -/
structure Collected where
  task : Task
  file : Option String := none
  out : Option String := none
  force : Bool := false
  rules : List String := []
  /-- The argument that is not checked yet. -/
  pending : Pending := .nothing

namespace Collected

/-- Checks the argument that is pending and puts it where it belongs. -/
def settle (c : Collected) : Except Refusal Collected :=
  match c.pending with
  | .nothing => .ok c
  | .file path =>
    if path = "" then .error .usage else .ok { c with file := some path, pending := .nothing }
  | .out none => .error .usage
  | .out (some path) =>
    if path = "" ∨ c.out.isSome then .error .usage
    else .ok { c with out := some path, pending := .nothing }
  | .rules values =>
    if values.isEmpty then .error .usage
    else .ok { c with rules := c.rules ++ values, pending := .nothing }

/-- Begins an argument. -/
def begin (c : Collected) (p : Pending) : Except Refusal Collected := do
  return { ← c.settle with pending := p }

/-- Begins an option with a value attached, and ends it at once. -/
def attach (c : Collected) (p : Pending) : Except Refusal Collected := do
  (← c.begin p).settle

/-- Reads `--force`. -/
def setForce (c : Collected) : Except Refusal Collected := do
  let c ← c.settle
  if c.force then throw .usage
  return { c with force := true }

/-- Reads a request for help. -/
def askHelp (c : Collected) : Except Refusal Collected := do
  let c ← c.settle
  throw (.help (.task c.task))

/-- Reads a value of the command: the input file, of which there is one. -/
def positional (c : Collected) (value : String) : Except Refusal Collected :=
  -- a file that is still pending counts as given
  let given := match c.pending with
    | .file _ => true
    | _ => c.file.isSome
  if given then .error .usage else c.begin (.file value)

/-- Reads a value: of the option before it, or else of the command. -/
def value (c : Collected) (value : String) : Except Refusal Collected :=
  match c.pending with
  | .out none => .ok { c with pending := .out (some value) }
  | .rules values => .ok { c with pending := .rules (values ++ [value]) }
  | _ => c.positional value

/-- Reads a long option, without its dashes, with the value attached to it. -/
def long (c : Collected) (name : String) (attached : Option String) : Except Refusal Collected :=
  match name, attached, c.task with
  | "help", none, _ => c.askHelp
  | "force", none, _ => c.setForce
  | "out", none, _ => c.begin (.out none)
  | "out", some path, _ => c.attach (.out (some path))
  -- only listings select rules
  | "rules", none, .print => c.begin (.rules [])
  | "rules", some value, .print => c.attach (.rules [value])
  | _, _, _ => .error .usage

/-- What is attached to a short option, if anything is. -/
def attached? : List Char → Option String
  | [] => none
  | c :: cs => some (String.ofList (if c = '=' then cs else c :: cs))

/-- Reads a cluster of short options, without its dash. -/
def short (c : Collected) : List Char → Except Refusal Collected
  | [] => .ok c
  | letter :: rest =>
    match letter, c.task with
    | 'h', _ => c.askHelp
    | 'f', _ => do (← c.setForce).short rest
    | 'o', _ =>
      match attached? rest with
      | some path => c.attach (.out (some path))
      | none => c.begin (.out none)
    | 'r', .print =>
      match attached? rest with
      | some value => c.attach (.rules [value])
      | none => c.begin (.rules [])
    | _, _ => .error .usage

/-- Reads an argument before the options have been ended. -/
def argument (c : Collected) (argument : String) : Except Refusal Collected :=
  match argument.toList with
  | '-' :: '-' :: option =>
    match option.dropWhile (· ≠ '=') with
    | [] => c.long (String.ofList option) none
    | _ :: attached =>
      c.long (String.ofList (option.takeWhile (· ≠ '='))) (some (String.ofList attached))
  | '-' :: letter :: letters => c.short (letter :: letters)
  -- a dash alone is a value like any other
  | _ => c.value argument

/-- Reads the arguments behind the command. -/
def read (c : Collected) : List String → Except Refusal Collected
  | [] => .ok c
  | argument :: arguments =>
    -- behind two dashes not even an option that waits for values takes any
    if argument = "--" then arguments.foldlM positional c
    else do (← c.argument argument).read arguments

/-- The command that has been read, which has to have its file. -/
def finish (c : Collected) : Except Refusal Invocation := do
  let c ← c.settle
  match c.file with
  | some file => return ⟨c.task, file, c.out, c.force, c.rules⟩
  | none => throw .usage

end Collected

/-- Reads the arguments behind a task's name. -/
def parseTask (task : Task) (arguments : List String) : Except Refusal Invocation := do
  let collected : Collected := { task := task }
  (← collected.read arguments).finish

/-- Reads the arguments behind `help`. -/
def parseHelp : List String → Refusal
  | [] => .help .program
  | ["create"] => .help (.task .create)
  | ["print"] => .help (.task .print)
  | ["help"] => .help .help
  | _ => .usage

/-- The command that the arguments give. -/
def parse : List String → Except Refusal Invocation
  | [] => .error .usage
  | "create" :: arguments => parseTask .create arguments
  | "print" :: arguments => parseTask .print arguments
  | "help" :: arguments => .error (parseHelp arguments)
  | "--help" :: _ => .error (.help .program)
  | "--version" :: _ => .error .version
  | argument :: _ =>
    match argument.toList with
    | '-' :: 'h' :: _ => .error (.help .program)
    | '-' :: 'V' :: _ => .error .version
    | _ => .error .usage

end Arguments

end UtteranceGrammar
