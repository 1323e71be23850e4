import ContentTypes.CommandLine.Command
import ContentTypes.Main
import ContentTypes.Proofs.Schema.Form
import ContentTypes.Proofs.Schema.WellFormed
import ContentTypes.Proofs.Schema.RoundTrip
import ContentTypes.Proofs.Json.RoundTrip
import ContentTypes.Proofs.Files.FileTree
import ContentTypes.Proofs.Files.Write
import ContentTypes.Proofs.Schema.Artifact
import ContentTypes.Proofs.TypeScript.Grammar
import ContentTypes.Proofs.TypeScript.Expression
import ContentTypes.Proofs.Sorting
import ContentTypes.Proofs.TypeScript.Skeleton
import ContentTypes.Proofs.TypeScript.Balance
import ContentTypes.Proofs.TypeScript.Module
import ContentTypes.Proofs.Generation
import ContentTypes.Proofs.TypeScript.Reader
import ContentTypes.Proofs.TypeScript.Unambiguity
import ContentTypes.Proofs.Files.Change
import ContentTypes.Proofs.Files.History
import ContentTypes.Proofs.Schema.Grammar
import ContentTypes.Proofs.Schema.Requirement
import ContentTypes.Proofs.Sorting.Order
import ContentTypes.Proofs.TypeScript.Coverage
import ContentTypes.Proofs.TypeScript.KeyOrder
import ContentTypes.Proofs.Files.Again
import ContentTypes.Proofs.Files.Interleaving
import ContentTypes.Proofs.Generation.Changes
import ContentTypes.Proofs.CommandLine.Arguments
import ContentTypes.Proofs.CommandLine.Run
import ContentTypes.Proofs.Schema.Place
import ContentTypes.Proofs.Schema.FirstDefect
import ContentTypes.Proofs.Files.Modes
import ContentTypes.Proofs.Sorting.Renaming
import ContentTypes.Proofs.TypeScript.Totality
import ContentTypes.Proofs.KeyedList
import ContentTypes.Proofs.Schema.Edit
import ContentTypes.Proofs.TypeScript.Face
import ContentTypes.Proofs.TypeScript.Independence
import ContentTypes.Proofs.Value.Key
import ContentTypes.Proofs.Schema.Merge
import ContentTypes.Proofs.Files.Rooted
import ContentTypes.Proofs.Generation.WriteOnce
import ContentTypes.Proofs.TypeScript.Mention
import ContentTypes.Proofs.TypeScript.Closure
import ContentTypes.Proofs.TypeScript.StringLiteral
import ContentTypes.Proofs.TypeScript.Comments
import ContentTypes.Proofs.TypeScript.Blank
import ContentTypes.Proofs.TypeScript.Division
import ContentTypes.Proofs.Json.Number
import ContentTypes.Proofs.Schema.Within
import ContentTypes.Proofs.Schema.Alike
import ContentTypes.Proofs.Schema.Reload
import ContentTypes.Proofs.Generation.Reload
import ContentTypes.Proofs.Files.FilePath
import ContentTypes.Proofs.Files.Obstacle
import ContentTypes.Proofs.Generation.Faults
import ContentTypes.Proofs.CommandLine.Report
import ContentTypes.Proofs.Settings
import ContentTypes.Proofs.TypeScript.Composition
import ContentTypes.Proofs.TypeScript.Nesting
