import Cookbook.Proofs.Artifact.BlockLiterals
import Cookbook.Proofs.Checked.Bodies

/-!
# Quotes line by line

The lines of a block are read one by one, and of all that a scan knows only the triple-quoted literal
that is open is handed on from line to line. A line that starts in a literal is searched for its
closing quotes, and the scan starts anew behind them. This is as good as a scan of the whole text if
literals in simple quotes are closed on their lines: comments end with their lines anyway.

## Main results

* `foldlM_openQuote?`: the searches and the fresh starts are steps of one scan, line by line.
* `openQuote?_lines`: behind all lines the same literal is open as behind the text that they make.
-/

namespace Cookbook.Checked

open Cookbook.Text Cookbook.Body

variable {quote? : Option Char} {lines : List (List Char)}

/-- All cuts on the way through the lines are sound. -/
theorem foldlM_openQuote? (hquote : ∀ q ∈ quote?, isQuote q = true) (lines : List (List Char)) :
    lines.foldlM openQuote? quote? = some (openBehind quote? lines) := by
  induction lines generalizing quote? with
  | nil => rfl
  | cons line lines ih =>
    rw [List.foldlM_cons, openQuote?_eq hquote]
    exact ih (isQuote_openQuote? hquote line)

/-- What a scan of the whole text reports as open. -/
theorem structure?_open (text : List Char) :
    (structure? text).map Prod.snd = some (Mode.code.after text).tripled? := by
  rw [structure_eq]
  rfl

/-- Behind lines on which literals in simple quotes are closed, the literal in triple quotes that is
found open line by line is the one that a scan of the whole text finds open. -/
theorem openQuote?_lines (h : ClosedOnLines .code (joinLines lines)) :
    lines.foldl Body.openQuote? none = (scan .code 0 (joinLines lines)).mode.tripled? ∧
      lines.foldlM openQuote? none = (structure? (joinLines lines)).map Prod.snd := by
  have hnone : ∀ q ∈ (none : Option Char), isQuote q = true := fun _ hq => by cases hq
  have hscan : (Mode.code.after (joinLines lines)).tripled? = openBehind none lines :=
    tripled?_after_joinLines hnone h
  refine ⟨hscan.symm, ?_⟩
  calc lines.foldlM openQuote? none
      = some (openBehind none lines) := foldlM_openQuote? hnone lines
    _ = some (Mode.code.after (joinLines lines)).tripled? := by rw [hscan]
    _ = (structure? (joinLines lines)).map Prod.snd := (structure?_open _).symm

/-- Lines with escapes and comments, and with either kind of triple quotes in the other. -/
def mixedLines : List (List Char) :=
  ["x = \"\\\"#\" + '''a # \"b".toList, "it's \"\"\"".toList, "c''' + \"\"\"d '''".toList,
    "\\".toList, "e\"\"\" # '''".toList, "y = '\"\"\"' + \"\"\"z".toList]

theorem openQuote?_lines_mixed : ClosedOnLines .code (joinLines mixedLines) ∧
    (structure? (joinLines mixedLines)).map Prod.snd = some (some '"') ∧
    mixedLines.foldlM openQuote? none = some (some '"') := by
  have hclosed : ClosedOnLines .code (joinLines mixedLines) := by decide +kernel
  have hopen : (structure? (joinLines mixedLines)).map Prod.snd = some (some '"') := by
    decide +kernel
  exact ⟨hclosed, hopen, (openQuote?_lines hclosed).2.trans hopen⟩

-- A literal in simple quotes that goes over the end of a line hides quotes from the whole text only.
example : ["x = '".toList, "\"\"\"'".toList].foldl Body.openQuote? none = some '"' ∧
    (scan .code 0 (joinLines ["x = '".toList, "\"\"\"'".toList])).mode.tripled? = none := by
  decide +kernel

end Cookbook.Checked
