import WireSchema.Arena
import WireSchema.Compiler
import WireSchema.CrossType
import WireSchema.Decimal.Binary64
import WireSchema.Decimal.Notation
import WireSchema.Decimal.Numeral
import WireSchema.Decimal.Shortest
import WireSchema.Declaration.Basic
import WireSchema.Declaration.Build
import WireSchema.Declaration.Canonical
import WireSchema.Declaration.Document
import WireSchema.Digest.Sha256
import WireSchema.Entries
import WireSchema.Fault
import WireSchema.Graph.Dependency
import WireSchema.Graph.Dot
import WireSchema.Graph.Recursion
import WireSchema.Json.Basic
import WireSchema.Json.Decoder
import WireSchema.Json.Fault
import WireSchema.Json.Reader
import WireSchema.Json.Scan
import WireSchema.Kind
import WireSchema.Layout.Enum
import WireSchema.Layout.Struct
import WireSchema.Layout.Union
import WireSchema.Main
import WireSchema.Proofs.Arena.FreeNames
import WireSchema.Proofs.Arena.Growth
import WireSchema.Proofs.Arena.Owners
import WireSchema.Proofs.Arena.WellFormed
import WireSchema.Proofs.Compiler.Blame
import WireSchema.Proofs.Compiler.Charges
import WireSchema.Proofs.Compiler.Conflicts
import WireSchema.Proofs.Compiler.Declarations
import WireSchema.Proofs.Compiler.Depth
import WireSchema.Proofs.Compiler.Guarded
import WireSchema.Proofs.Compiler.Lenient
import WireSchema.Proofs.Compiler.Meaning
import WireSchema.Proofs.Compiler.Outcome
import WireSchema.Proofs.Compiler.Rounds
import WireSchema.Proofs.Compiler.Sharing
import WireSchema.Proofs.Compiler.Tally
import WireSchema.Proofs.Decimal.Notation
import WireSchema.Proofs.Decimal.Shortest
import WireSchema.Proofs.Declaration.Canonical
import WireSchema.Proofs.Declaration.Contained
import WireSchema.Proofs.Declaration.Finite
import WireSchema.Proofs.Declaration.Linked
import WireSchema.Proofs.Declaration.Text
import WireSchema.Proofs.Declaration.Wire
import WireSchema.Proofs.Json.Compact
import WireSchema.Proofs.Layout.Redundancy
import WireSchema.Proofs.Layout.Tables
import WireSchema.Proofs.Resolution.Canonical
import WireSchema.Proofs.Resolution.Charges
import WireSchema.Proofs.Resolution.Content
import WireSchema.Proofs.Resolution.Depth
import WireSchema.Proofs.Resolution.Forms
import WireSchema.Proofs.Resolution.Guarded
import WireSchema.Proofs.Resolution.Intrinsic
import WireSchema.Proofs.Resolution.LocalFault
import WireSchema.Proofs.Resolution.Order
import WireSchema.Proofs.Resolution.Passes
import WireSchema.Proofs.Resolution.Places
import WireSchema.Proofs.Resolution.Positions
import WireSchema.Proofs.Resolution.Run
import WireSchema.Proofs.Resolution.Sound
import WireSchema.Proofs.Resolution.Tally
import WireSchema.Proofs.Resolution.Walk
import WireSchema.Resolution
import WireSchema.Settings
import WireSchema.Suggestion
import WireSchema.Text.Hidden
import WireSchema.Text.Quoted
import WireSchema.Text.Scan
import WireSchema.Tool.Arguments
import WireSchema.Tool.Config
import WireSchema.Tool.ConfigValue
import WireSchema.Tool.Disk
import WireSchema.Tool.FileFormat
import WireSchema.Tool.Help
import WireSchema.Tool.Ini
import WireSchema.Tool.Json5
import WireSchema.Tool.Ron
import WireSchema.Tool.Run
import WireSchema.Tool.Toml
import WireSchema.Tool.Yaml.Document
import WireSchema.Tool.Yaml.Scalar
import WireSchema.TypeSystem.Basic
import WireSchema.TypeSystem.Body
import WireSchema.TypeSystem.Language
import WireSchema.TypeSystem.Navigation
import WireSchema.Proofs.Compiler.Recorded
import WireSchema.Proofs.Compiler.Groups
import WireSchema.Proofs.Resolution.Names
import WireSchema.Proofs.Compiler.Linked
import WireSchema.Proofs.Declaration.Relabel
import WireSchema.Proofs.Resolution.Rearranged
import WireSchema.Proofs.Compiler.Reordered
import WireSchema.Proofs.Json.Reading
import WireSchema.Proofs.Json.Decoding
import WireSchema.Proofs.Declaration.Document
import WireSchema.Proofs.Graph.Exploration
import WireSchema.Proofs.Graph.Components
import WireSchema.Proofs.Graph.Recursion
import WireSchema.Proofs.Compiler.Owners
import WireSchema.Proofs.Resolution.Chains
import WireSchema.Proofs.Compiler.Anchored
import WireSchema.Proofs.Json.Refusal
import WireSchema.Proofs.Json.Gives
import WireSchema.Proofs.Json.Yields
import WireSchema.Proofs.Declaration.Nesting
import WireSchema.Proofs.Declaration.Accepted
import WireSchema.Proofs.Resolution.Unambiguous
import WireSchema.Proofs.Resolution.Lawful
import WireSchema.Proofs.Compiler.InlineUnions
import WireSchema.Proofs.Resolution.Repeated
import WireSchema.Proofs.Compiler.Repeated
import WireSchema.Proofs.Declaration.Respelling
import WireSchema.Proofs.Resolution.Injective
import WireSchema.Proofs.Graph.References
import WireSchema.Proofs.Graph.DotTokens
import WireSchema.Proofs.Graph.DotStatements
import WireSchema.Proofs.Graph.Drawing
import WireSchema.Proofs.Resolution.Recorded
import WireSchema.Proofs.Compiler.Redeclared
import WireSchema.Proofs.Declaration.Equality
import WireSchema.Proofs.Text.Prefix
import WireSchema.Proofs.Text.Words
import WireSchema.Proofs.Text.Quoted
import WireSchema.Proofs.TypeSystem.Clauses
import WireSchema.Proofs.TypeSystem.Language
import WireSchema.Proofs.Compiler.Shown
