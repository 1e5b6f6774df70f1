import ShellAnalysis.Text.Blank
import ShellAnalysis.Text.Bytes
import ShellAnalysis.Text.CaseIgnorable
import ShellAnalysis.Text.Cased
import ShellAnalysis.Text.CodeRanges
import ShellAnalysis.Text.LineIndex
import ShellAnalysis.Text.LowerCase
import ShellAnalysis.Text.Span
import ShellAnalysis.Text.Utf8
import ShellAnalysis.Text.XidContinue
import ShellAnalysis.Token.Kind
import ShellAnalysis.Token.Lexer
import ShellAnalysis.Diagnostic.Basic
import ShellAnalysis.Diagnostic.Cause
import ShellAnalysis.Scanner.Basic
import ShellAnalysis.Scanner.Content
import ShellAnalysis.Scanner.Heredoc
import ShellAnalysis.Tree.Edit
import ShellAnalysis.Tree.Form
import ShellAnalysis.Tree.Node
import ShellAnalysis.Number.Binary64
import ShellAnalysis.Number.Digits
import ShellAnalysis.Parse.Basic
import ShellAnalysis.Parse.Command
import ShellAnalysis.Parse.Control
import ShellAnalysis.Parse.Definition
import ShellAnalysis.Parse.Expression
import ShellAnalysis.Parse.Grammar
import ShellAnalysis.Parse.Program
import ShellAnalysis.Parse.Statement
import ShellAnalysis.Parse.Word
import ShellAnalysis.Symbol.Basic
import ShellAnalysis.Symbol.Search
import ShellAnalysis.Symbol.Table
import ShellAnalysis.Workspace.Basic
import ShellAnalysis.Workspace.Disk
import ShellAnalysis.Workspace.Documents
import ShellAnalysis.Workspace.FileSystem
import ShellAnalysis.Workspace.FileTable
import ShellAnalysis.Workspace.Index
import ShellAnalysis.Workspace.Loading
import ShellAnalysis.Workspace.OrderedMap
import ShellAnalysis.Workspace.Path
import ShellAnalysis.Workspace.Queries
import ShellAnalysis.Workspace.Script
import ShellAnalysis.Workspace.SourceCommand
import ShellAnalysis.Workspace.SourcePath
import ShellAnalysis.Navigate.Definition
import ShellAnalysis.Navigate.Folding
import ShellAnalysis.Navigate.Identifier
import ShellAnalysis.Navigate.Links
import ShellAnalysis.Navigate.SymbolQuery
import ShellAnalysis.Proofs.Boundary
import ShellAnalysis.Proofs.Shape
import ShellAnalysis.Proofs.Tokens
import ShellAnalysis.Proofs.Scanning
import ShellAnalysis.Proofs.BlockArgument
import ShellAnalysis.Proofs.HeredocPlace
import ShellAnalysis.Proofs.Run
import ShellAnalysis.Proofs.Progress
import ShellAnalysis.Proofs.Steps
import ShellAnalysis.Proofs.Layout
import ShellAnalysis.Proofs.Levels
import ShellAnalysis.Proofs.Placement
import ShellAnalysis.Proofs.Words
import ShellAnalysis.Proofs.Expressions
import ShellAnalysis.Proofs.Commands
import ShellAnalysis.Proofs.Definitions
import ShellAnalysis.Proofs.Control
import ShellAnalysis.Proofs.Pipelines
import ShellAnalysis.Proofs.StatementLists
import ShellAnalysis.Proofs.OpenRows
import ShellAnalysis.Proofs.Outcome
import ShellAnalysis.Proofs.Parts
import ShellAnalysis.Proofs.Coverage
import ShellAnalysis.Proofs.Lockstep
import ShellAnalysis.Proofs.Budget
import ShellAnalysis.Proofs.Reachability
import ShellAnalysis.Proofs.Ownership
import ShellAnalysis.Proofs.Lexemes
import ShellAnalysis.Proofs.Printing
import ShellAnalysis.Proofs.Reading
import ShellAnalysis.Proofs.Precedence
import ShellAnalysis.Proofs.RoundTrip
import ShellAnalysis.Proofs.Lossless
import ShellAnalysis.Proofs.LineTokens
import ShellAnalysis.Proofs.Characters
import ShellAnalysis.Proofs.Built.Tree
import ShellAnalysis.Proofs.Built.Rules
import ShellAnalysis.Proofs.Built.Words
import ShellAnalysis.Proofs.Built.Expressions
import ShellAnalysis.Proofs.Built.Commands
import ShellAnalysis.Proofs.Built.Control
import ShellAnalysis.Proofs.Built.Statements
import ShellAnalysis.Proofs.Built.Parses
import ShellAnalysis.Proofs.Towers
import ShellAnalysis.Proofs.Encoding
import ShellAnalysis.Proofs.Resumption
import ShellAnalysis.Proofs.Loads
import ShellAnalysis.Proofs.Following
import ShellAnalysis.Proofs.Declarations
import ShellAnalysis.Proofs.HeredocLines
import ShellAnalysis.Proofs.Nesting
import ShellAnalysis.Proofs.Watching
import ShellAnalysis.Proofs.Accounts.Tree
import ShellAnalysis.Proofs.Accounts.Rules
import ShellAnalysis.Proofs.Accounts.Steps
import ShellAnalysis.Proofs.Accounts.Brackets
import ShellAnalysis.Proofs.Accounts.Words
import ShellAnalysis.Proofs.Accounts.Expressions
import ShellAnalysis.Proofs.Accounts.Commands
import ShellAnalysis.Proofs.Accounts.Control
import ShellAnalysis.Proofs.Accounts.Statements
import ShellAnalysis.Proofs.Accounts.Parses
import ShellAnalysis.Proofs.Truncation
import ShellAnalysis.Proofs.Outline
import ShellAnalysis.Proofs.ContentRuns
import ShellAnalysis.Proofs.HeredocStates
import ShellAnalysis.Proofs.NameSpans
import ShellAnalysis.Proofs.NearestFirst
import ShellAnalysis.Proofs.SearchOrder
import ShellAnalysis.Proofs.NamedSymbols
import ShellAnalysis.Proofs.DictKeys
import ShellAnalysis.Proofs.Frames
import ShellAnalysis.Proofs.Closing
import ShellAnalysis.Proofs.DocumentLinks
import ShellAnalysis.Proofs.IdentifierRuns
import ShellAnalysis.Proofs.DefinitionTargets
import ShellAnalysis.Proofs.ScriptDirectory
import ShellAnalysis.Proofs.UnknownVariables
import ShellAnalysis.Proofs.Positions
import ShellAnalysis.Proofs.TextLines
import ShellAnalysis.Proofs.OutermostFolds
