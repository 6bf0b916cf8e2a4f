import MacroModules.CommandLine.Run
import MacroModules.Document.Outline
import MacroModules.Main
import MacroModules.Proofs.CommandLine.Ending
import MacroModules.Proofs.Config
import MacroModules.Proofs.Document.Outline
import MacroModules.Proofs.Expansion.Depth
import MacroModules.Proofs.Expansion.Exposure
import MacroModules.Proofs.Expansion.Growth
import MacroModules.Proofs.Expansion.Identifiers
import MacroModules.Proofs.Expansion.Join
import MacroModules.Proofs.Expansion.LineEnds
import MacroModules.Proofs.Expansion.Lines
import MacroModules.Proofs.Expansion.Order
import MacroModules.Proofs.Expansion.References
import MacroModules.Proofs.Expansion.Rename
import MacroModules.Proofs.Expansion.Safe
import MacroModules.Proofs.Expansion.Slots
import MacroModules.Proofs.Grammar.Bounds
import MacroModules.Proofs.Grammar.Carets
import MacroModules.Proofs.Path.Outputs
import MacroModules.Proofs.Token.Classes
import MacroModules.Proofs.Workspace
