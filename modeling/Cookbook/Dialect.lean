import Cookbook.Text.Blank

/-!
# Dialects

The family of languages that a recipe is written in. The dialect fixes how the registration header
of an artifact is marked off and where the recipe's entrypoint comes from.
-/

namespace Cookbook

open Cookbook.Text

/-- The surface family of an artifact. -/
inductive Dialect where
  | native
  | shell
  | query
  | statistical
  deriving DecidableEq, Repr, Inhabited

namespace Dialect

/-- All dialects, in the order in which their artifacts are registered. -/
def all : List Dialect := [native, shell, query, statistical]

/-- The name of a dialect. -/
def name : Dialect → String
  | native => "native"
  | shell => "shell"
  | query => "query"
  | statistical => "statistical"

/-- The markers before and after a header. A native header has none: it runs from the decorator to
the payload function. -/
def markers? : Dialect → Option (String × String)
  | native => none
  | shell | statistical => some ("###+", "###+")
  | query => some ("/***", "***/")

/-- Whether the header stands in line comments. -/
def commentsHeader : Dialect → Bool
  | shell | statistical => true
  | native | query => false

/-- Whether a recipe that names no entrypoint takes it from the header's last line. -/
def namesEntrypointInHeader : Dialect → Bool
  | shell | statistical => true
  | native | query => false

/-- The dialect with exactly this name. -/
def ofName? (name : String) : Option Dialect :=
  all.find? fun d => d.name = name

/-- The form in which aliases are compared: without blanks around, ASCII letters in lower case. -/
def foldAlias (text : String) : String :=
  String.ofList ((trim text.toList).map Char.toLower)

/-- The dialect that a user names, in any case and by any of its aliases. -/
def ofAlias? (text : String) : Option Dialect :=
  match foldAlias text with
  | "native" | "python" => some native
  | "shell" | "bash" => some shell
  | "query" | "presto" | "sql" => some query
  | "statistical" | "r" => some statistical
  | _ => none

/-- The dialect of a file with this extension. -/
def ofExtension? : String → Option Dialect
  | "py" => some native
  | "sh" => some shell
  | "sql" => some query
  | "R" | "r" => some statistical
  | _ => none

end Dialect

end Cookbook
