import Companion.Class.Analysis
import Companion.Command.Failure
import Companion.Command.FileTree
import Companion.Command.Json
import Companion.Command.Options
import Companion.Command.Path
import Companion.Command.Program
import Companion.Diagnostic.Basic
import Companion.Diagnostic.Code
import Companion.Diagnostic.Report
import Companion.Field.Classification
import Companion.Field.Inherited
import Companion.Field.Shape
import Companion.Grammar.Declaration
import Companion.Grammar.Group
import Companion.Grammar.Parser
import Companion.Grammar.SourceFile
import Companion.Grammar.TypeRef
import Companion.Main
import Companion.Proofs.Class.Addition
import Companion.Proofs.Class.Ancestry
import Companion.Proofs.Class.Backing
import Companion.Proofs.Class.BackingNames
import Companion.Proofs.Class.Displacement
import Companion.Proofs.Class.HookChain
import Companion.Proofs.Class.Likeness
import Companion.Proofs.Class.Renaming
import Companion.Proofs.Diagnostic.Colors
import Companion.Proofs.Diagnostic.Order
import Companion.Proofs.Field.Deferred
import Companion.Proofs.Field.ElementNames
import Companion.Proofs.Field.Fates
import Companion.Proofs.Field.Outcome
import Companion.Proofs.Field.Serializable
import Companion.Proofs.Grammar.Afresh
import Companion.Proofs.Grammar.ArgumentScans
import Companion.Proofs.Grammar.Boundary
import Companion.Proofs.Grammar.BoundedReading
import Companion.Proofs.Grammar.Budgets
import Companion.Proofs.Grammar.Citations
import Companion.Proofs.Grammar.ClosedRuns
import Companion.Proofs.Grammar.DeclarationReading
import Companion.Proofs.Grammar.EmbeddedBody
import Companion.Proofs.Grammar.EmbeddedDeclarations
import Companion.Proofs.Grammar.Embedding
import Companion.Proofs.Grammar.Exact
import Companion.Proofs.Grammar.FileReading
import Companion.Proofs.Grammar.GenericInitializers
import Companion.Proofs.Grammar.Identifiers
import Companion.Proofs.Grammar.InitializerRuns
import Companion.Proofs.Grammar.ItemRecovery
import Companion.Proofs.Grammar.Laying
import Companion.Proofs.Grammar.Locality
import Companion.Proofs.Grammar.Loops
import Companion.Proofs.Grammar.MemberBraces
import Companion.Proofs.Grammar.MemberReading
import Companion.Proofs.Grammar.NamespaceForms
import Companion.Proofs.Grammar.OpaqueMembers
import Companion.Proofs.Grammar.Placeless
import Companion.Proofs.Grammar.Places
import Companion.Proofs.Grammar.Printing
import Companion.Proofs.Grammar.Progress
import Companion.Proofs.Grammar.Quiet
import Companion.Proofs.Grammar.ReadAlone
import Companion.Proofs.Grammar.Reading
import Companion.Proofs.Grammar.Recovery
import Companion.Proofs.Grammar.Relocation
import Companion.Proofs.Grammar.SpaceNames
import Companion.Proofs.Grammar.Spans
import Companion.Proofs.Grammar.Totality
import Companion.Proofs.Grammar.TypeParts
import Companion.Proofs.Grammar.TypeReading
import Companion.Proofs.Grammar.TypeSpans
import Companion.Proofs.Grammar.TypeSpelling
import Companion.Proofs.Grammar.WholeMembers
import Companion.Proofs.Grammar.WrittenTypes
import Companion.Proofs.Run.Accounts
import Companion.Proofs.Run.Arrival
import Companion.Proofs.Run.Candidates
import Companion.Proofs.Run.Displacement
import Companion.Proofs.Run.FileOrder
import Companion.Proofs.Run.HintNames
import Companion.Proofs.Run.NamespaceForms
import Companion.Proofs.Run.Pointing
import Companion.Proofs.Run.Registration
import Companion.Proofs.Run.ReportOrder
import Companion.Proofs.Run.Silence
import Companion.Proofs.Symbol.Addition
import Companion.Proofs.Symbol.Arguments
import Companion.Proofs.Symbol.DeclarationLists
import Companion.Proofs.Symbol.Declarations
import Companion.Proofs.Symbol.Displacement
import Companion.Proofs.Symbol.FileOrder
import Companion.Proofs.Symbol.FullNames
import Companion.Proofs.Symbol.KeptTexts
import Companion.Proofs.Symbol.Known
import Companion.Proofs.Symbol.Nesting
import Companion.Proofs.Symbol.Paths
import Companion.Proofs.Symbol.Placeless
import Companion.Proofs.Symbol.Redeclaration
import Companion.Proofs.Symbol.Relocation
import Companion.Proofs.Symbol.Renaming
import Companion.Proofs.Symbol.Sight
import Companion.Proofs.Symbol.Sites
import Companion.Proofs.Symbol.Structure
import Companion.Proofs.Symbol.Substitution
import Companion.Proofs.Symbol.Termination
import Companion.Proofs.Symbol.TypePaths
import Companion.Proofs.Symbol.WellFormed
import Companion.Proofs.Syntax.Outline
import Companion.Proofs.Text.Lines
import Companion.Proofs.Token.Delimiters
import Companion.Proofs.Token.Lexing
import Companion.Proofs.Token.LineBreaks
import Companion.Proofs.Token.Literals
import Companion.Proofs.Token.Located
import Companion.Proofs.Token.Spelling
import Companion.Proofs.Token.Tiling
import Companion.Proofs.Unit.Binding
import Companion.Proofs.Unit.Components
import Companion.Proofs.Unit.DeclaredNames
import Companion.Proofs.Unit.HelperNames
import Companion.Proofs.Unit.HookScopes
import Companion.Proofs.Unit.HookText
import Companion.Proofs.Unit.Members
import Companion.Proofs.Unit.Methods
import Companion.Proofs.Unit.Pieces
import Companion.Proofs.Unit.ReadBack
import Companion.Proofs.Unit.Rows
import Companion.Proofs.Unit.Texts
import Companion.Proofs.Unit.Tokens
import Companion.Run
import Companion.Settings
import Companion.Symbol.Compilation
import Companion.Symbol.Resolution
import Companion.Symbol.Table
import Companion.Symbol.Ty
import Companion.Syntax.Modifier
import Companion.Syntax.Predefined
import Companion.Syntax.Tree
import Companion.Syntax.TypeRef
import Companion.Text.Affix
import Companion.Text.Bytes
import Companion.Text.Classes
import Companion.Text.Lines
import Companion.Text.Span
import Companion.Token.Kind
import Companion.Token.Lexeme
import Companion.Token.Stream
import Companion.Unit.Layout
import Companion.Unit.Registry
import Companion.Unit.Text
