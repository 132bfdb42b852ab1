import Cookbook.Dialect
import Cookbook.Template

/-!
# The command line

The commands and how they are written. An option may stand anywhere after its command, at most once;
its value follows it or is attached to it. What does not fit the command is a usage error, about
which nothing more is said here.

## Main definitions

* `Command`: what to do.
* `Command.parse?`: reads the arguments of the program.
-/

namespace Cookbook

/-- What the program is asked to do. -/
inductive Command where
  /-- Compile one artifact and print its recipes. -/
  | compile (artifact : String) (dialect : Option Dialect) (decorator payload : Option String)
  /-- Build a registry and print it, or a summary of it. -/
  | build (manifest : String) (concurrent json : Bool)
  /-- List the candidates of a constraint. -/
  | candidates (manifest constraint : String)
  /-- Bind the arguments of a candidate. -/
  | bind (manifest constraint ancestry : String) (candidate : Nat) (context : Option String)
  /-- Check a registry. -/
  | lint (manifest : String)
  deriving DecidableEq, Repr

namespace CommandLine

/-! ## Words and options -/

/-- An option of a command. -/
structure OptionSpec where
  long : String
  short : Option Char
  takesValue : Bool
  deriving DecidableEq, Repr

/-- More text on the program's progress; allowed everywhere. -/
def verbose : OptionSpec := ⟨"verbose", some 'v', false⟩

/-- What the arguments of a command were read as. -/
structure Arguments where
  /-- The arguments that belong to no option, in order. -/
  words : List String
  /-- The options given, by their long names, with their values. -/
  given : List (String × String)
  deriving DecidableEq, Repr

/-- Records an option, which must not have been given before. -/
def Arguments.give? (arguments : Arguments) (option : OptionSpec) (value : String) :
    Option Arguments :=
  if (arguments.given.lookup option.long).isSome then none
  else some { arguments with given := arguments.given ++ [(option.long, value)] }

/-- Whether an argument is a word, and not an option. A single hyphen is a word. -/
def isWord (argument : String) : Bool :=
  argument == "-" || argument.toList.head? != some '-'

/-- What a cluster of short options amounts to. -/
inductive Cluster where
  /-- All options are complete. -/
  | complete (arguments : Arguments)
  /-- The last option still needs a value. -/
  | needsValue (arguments : Arguments) (option : OptionSpec)

/-- Reads short options behind one hyphen. An option with a value takes the rest of the argument,
less an equals sign in front; if there is no rest, the value is the next argument. -/
def readCluster (options : List OptionSpec) (arguments : Arguments) : List Char → Option Cluster
  | [] => some (.complete arguments)
  | c :: rest =>
    match options.find? fun o => o.short = some c with
    | none => none
    | some option =>
      if option.takesValue then
        match rest with
        | [] => some (.needsValue arguments option)
        | '=' :: value => (arguments.give? option (String.ofList value)).map .complete
        | value => (arguments.give? option (String.ofList value)).map .complete
      else
        match arguments.give? option "" with
        | some arguments => readCluster options arguments rest
        | none => none

/-- The name of a long option, and the value after an equals sign. -/
def splitLong (text : List Char) : String × Option String :=
  let name := String.ofList (text.takeWhile (· != '='))
  match text.dropWhile (· != '=') with
  | [] => (name, none)
  | _ :: value => (name, some (String.ofList value))

/-- Reads the arguments of a command. -/
def readArguments (options : List OptionSpec) (arguments : Arguments) :
    List String → Option Arguments
  | [] => some arguments
  | argument :: rest =>
    match argument.toList with
    -- Behind a bare pair of hyphens everything is a word.
    | ['-', '-'] => some { arguments with words := arguments.words ++ rest }
    | '-' :: '-' :: long =>
      let (name, value) := splitLong long
      match options.find? fun o => o.long = name with
      | none => none
      | some option =>
        match option.takesValue, value, rest with
        | true, some value, rest => do
          readArguments options (← arguments.give? option value) rest
        | true, none, value :: rest =>
          if isWord value then do readArguments options (← arguments.give? option value) rest
          else none
        | true, none, [] => none
        | false, none, rest => do readArguments options (← arguments.give? option "") rest
        | false, some _, _ => none
    | '-' :: c :: cluster =>
      match readCluster options arguments (c :: cluster) with
      | none => none
      | some (.complete arguments) => readArguments options arguments rest
      | some (.needsValue arguments option) =>
        match rest with
        | [] => none
        | value :: rest =>
          if isWord value then do readArguments options (← arguments.give? option value) rest
          else none
    | _ => readArguments options { arguments with words := arguments.words ++ [argument] } rest

/-! ## Values -/

/-- A path, which must not be empty. -/
def path? (text : String) : Option String :=
  if text.isEmpty then none else some text

/-- The value of an option that need not be given, if it can be read. -/
def valueOf? {α : Type} (arguments : Arguments) (long : String) (read : String → Option α) :
    Option (Option α) :=
  match arguments.given.lookup long with
  | none => some none
  | some text => (read text).map some

/-- Whether an option was given. -/
def has (arguments : Arguments) (long : String) : Bool :=
  (arguments.given.lookup long).isSome

/-! ## Commands -/

/-- The options of a command; none if there is no such command. -/
def optionsOf? : String → Option (List OptionSpec)
  | "compile" =>
    some [verbose, ⟨"dialect", some 'd', true⟩, ⟨"annotation", none, true⟩,
      ⟨"payload-function", none, true⟩]
  | "build" => some [verbose, ⟨"concurrent", none, false⟩, ⟨"json", none, false⟩]
  | "candidates" | "lint" => some [verbose]
  | "bind" =>
    some [verbose, ⟨"ancestry", some 'a', true⟩, ⟨"candidate", some 'c', true⟩,
      ⟨"context", none, true⟩]
  | _ => none

/-- The command of a name and its arguments. -/
def command? (name : String) (arguments : Arguments) : Option Command :=
  match name, arguments.words with
  | "compile", [artifact] => do
    return .compile (← path? artifact) (← valueOf? arguments "dialect" Dialect.ofAlias?)
      (← valueOf? arguments "annotation" some) (← valueOf? arguments "payload-function" some)
  | "build", [manifest] => do
    return .build (← path? manifest) (has arguments "concurrent") (has arguments "json")
  | "candidates", [manifest, constraint] => do return .candidates (← path? manifest) constraint
  | "bind", [manifest, constraint] => do
    let ancestry ← arguments.given.lookup "ancestry"
    let candidate ← valueOf? arguments "candidate" fun text => Template.index? text.toList
    return .bind (← path? manifest) constraint (← path? ancestry) (candidate.getD 0)
      (← valueOf? arguments "context" path?)
  | "lint", [manifest] => do return .lint (← path? manifest)
  | _, _ => none

/-- Skips the options in front of the command's name; each may be given once. -/
def skipGlobal (given : Arguments) : List String → Option (List String)
  | [] => none
  | argument :: rest =>
    match argument.toList with
    | ['-', '-'] => none
    | '-' :: '-' :: long =>
      if splitLong long = (verbose.long, none) then do
        skipGlobal (← given.give? verbose "") rest
      else none
    | '-' :: c :: cluster =>
      match readCluster [verbose] given (c :: cluster) with
      | some (.complete given) => skipGlobal given rest
      | _ => none
    -- The first word is the command's name.
    | _ => some (argument :: rest)

end CommandLine

open CommandLine in
/-- The command that the arguments of the program describe; none if they are not used right. -/
def Command.parse? (arguments : List String) : Option Command := do
  match ← skipGlobal ⟨[], []⟩ arguments with
  | [] => none
  | name :: rest =>
    let options ← optionsOf? name
    command? name (← readArguments options ⟨[], []⟩ rest)

end Cookbook
