import Cookbook.Files.Tree
import Cookbook.Main
import Cookbook.Proofs.Rule.WellFormed
import Cookbook.Proofs.Except
import Cookbook.Proofs.Rule.Inversion
import Cookbook.Proofs.Rule.Lowering
import Cookbook.Proofs.Artifact.Soundness
import Cookbook.Proofs.Binding.Safety
import Cookbook.Proofs.Rule.Meaning
import Cookbook.Proofs.Rule.Preservation
import Cookbook.Proofs.Registration.Groups
import Cookbook.Proofs.Binding.ContextTypes
import Cookbook.Proofs.Sources.Builds
import Cookbook.Proofs.Text.Layout
import Cookbook.Proofs.Text.QuotedLiteral
import Cookbook.Proofs.Text.Filler
import Cookbook.Proofs.Rule.Written
import Cookbook.Proofs.Rule.Reading
import Cookbook.Proofs.Rule.RoundTrip
import Cookbook.Proofs.Registration.Rows
import Cookbook.Proofs.Registration.Values
import Cookbook.Proofs.Registration.Arranged
import Cookbook.Proofs.Registration.CallSite
import Cookbook.Proofs.Registration.RoundTrip
import Cookbook.Proofs.Binding.Accesses
import Cookbook.Proofs.Binding.LatestWrite
import Cookbook.Proofs.Binding.Dependence
import Cookbook.Proofs.Lint.TypeReports
import Cookbook.Proofs.Lint.UnboundReads
import Cookbook.Proofs.Artifact.NativeHeader
import Cookbook.Proofs.Text.Structural
import Cookbook.Proofs.Artifact.Blocks
import Cookbook.Proofs.Artifact.ErrorLines
import Cookbook.Proofs.Artifact.Surroundings
import Cookbook.Proofs.Artifact.DecoratedCall
import Cookbook.Proofs.Checked.Cuts
import Cookbook.Proofs.Checked.Structure
import Cookbook.Proofs.Checked.Values
import Cookbook.Proofs.Rule.Suffixes
import Cookbook.Proofs.Checked.Items
import Cookbook.Proofs.Checked.Calls
import Cookbook.Proofs.Checked.Rules
import Cookbook.Proofs.Checked.Registrations
import Cookbook.Proofs.Checked.Bodies
import Cookbook.Proofs.Checked.Compilation
import Cookbook.Proofs.Registry.Registrations
import Cookbook.Proofs.Artifact.MarkedHeader
import Cookbook.Proofs.Recipe.RoundTrip
import Cookbook.Proofs.Artifact.Rewrapping
import Cookbook.Proofs.Template.Judgements
import Cookbook.Proofs.Artifact.Relayout
import Cookbook.Proofs.Registration.MapEntries
import Cookbook.Proofs.Registration.Divisions
import Cookbook.Proofs.Registration.RulePositions
import Cookbook.Proofs.Artifact.PayloadLiterals
import Cookbook.Proofs.Template.Decoding
import Cookbook.Proofs.Binding.Reordering
import Cookbook.Proofs.Rule.PrimitiveArguments
import Cookbook.Proofs.Registration.WholeItems
import Cookbook.Proofs.Registration.Settings
import Cookbook.Proofs.Registration.KeywordOrder
import Cookbook.Proofs.Checked.QuoteTracking
import Cookbook.Proofs.Binding.Places
import Cookbook.Proofs.Binding.WalkOrder
import Cookbook.Proofs.Artifact.HeaderLines
import Cookbook.Proofs.Registration.TextBehind
import Cookbook.Proofs.Artifact.TrailingComments
