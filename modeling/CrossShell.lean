import CrossShell.Main
import CrossShell.Target.Probe
import CrossShell.Proofs.Chain.Precedence
import CrossShell.Proofs.Conversion.Rebuild
import CrossShell.Proofs.Stage.Redirections
import CrossShell.Proofs.Token.Coverage
import CrossShell.Proofs.Line.Segmentation
import CrossShell.Proofs.Line.Reread
import CrossShell.Proofs.Token.Crossing
import CrossShell.Proofs.Line.Composition
import CrossShell.Proofs.Rule.Registration
import CrossShell.Proofs.Token.Checked
import CrossShell.Proofs.Token.Partition
import CrossShell.Proofs.Lint.Agreement
import CrossShell.Proofs.Conversion.Report
import CrossShell.Proofs.Target.Choice
import CrossShell.Proofs.Special.Elevation
import CrossShell.Proofs.Find.Operators
import CrossShell.Proofs.Find.Actions
import CrossShell.Proofs.Special.Scripts
import CrossShell.Proofs.Special.Items
import CrossShell.Proofs.Special.Wrapping
import CrossShell.Proofs.Line.Literals
import CrossShell.Proofs.Chain.Idempotence
import CrossShell.Proofs.Stage.WordByWord
import CrossShell.Proofs.Stage.HereTexts
import CrossShell.Proofs.Conversion.Console
import CrossShell.Proofs.Line.Runs
import CrossShell.Proofs.Line.Merges
import CrossShell.Proofs.Special.Replacement
import CrossShell.Proofs.Token.Unquote
import CrossShell.Proofs.Special.Selections
import CrossShell.Proofs.Special.Counts
import CrossShell.Proofs.Special.Variables
import CrossShell.Proofs.Special.FieldLists
import CrossShell.Proofs.Special.SetExpansion
import CrossShell.Proofs.Special.CharClasses
import CrossShell.Proofs.Special.PatternRoles
import CrossShell.Proofs.Lint.SuggestedFlags
import CrossShell.Proofs.Special.Delimiters
import CrossShell.Proofs.Token.RedirectionGrammar
import CrossShell.Proofs.Token.GroupEnds
