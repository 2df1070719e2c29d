import RepoAtlas.Analysis
import RepoAtlas.CallGraph.Facts
import RepoAtlas.CallGraph.Tool
import RepoAtlas.Catalog
import RepoAtlas.Component
import RepoAtlas.Component.OfFile
import RepoAtlas.Discovery
import RepoAtlas.Extraction
import RepoAtlas.FileTree
import RepoAtlas.Graph.Condensation
import RepoAtlas.Graph.Digraph
import RepoAtlas.Graph.Importance
import RepoAtlas.Json
import RepoAtlas.Log
import RepoAtlas.Module.Index
import RepoAtlas.Module.Naming
import RepoAtlas.Number.Decimal
import RepoAtlas.Origin
import RepoAtlas.Origin.Attempt
import RepoAtlas.Origin.Search
import RepoAtlas.Pass.CallSites
import RepoAtlas.Pass.Structure
import RepoAtlas.Path
import RepoAtlas.Path.Pattern
import RepoAtlas.Pool
import RepoAtlas.Proofs.Analysis
import RepoAtlas.Proofs.Analysis.Order
import RepoAtlas.Proofs.CallGraph.Tool
import RepoAtlas.Proofs.Catalog
import RepoAtlas.Proofs.Extraction
import RepoAtlas.Proofs.Extraction.Order
import RepoAtlas.Proofs.Graph.Condensation
import RepoAtlas.Proofs.Graph.Convergence
import RepoAtlas.Proofs.Graph.Importance
import RepoAtlas.Proofs.Graph.Order
import RepoAtlas.Proofs.Graph.Reach
import RepoAtlas.Proofs.Log
import RepoAtlas.Proofs.Module.Index
import RepoAtlas.Proofs.Origin
import RepoAtlas.Proofs.Origin.Catalogued
import RepoAtlas.Proofs.Origin.Completeness
import RepoAtlas.Proofs.Pass.CallSites
import RepoAtlas.Proofs.Pass.Structure
import RepoAtlas.Proofs.Path
import RepoAtlas.Proofs.Pool
import RepoAtlas.Proofs.Python.Names
import RepoAtlas.Proofs.Table
import RepoAtlas.Proofs.Text.Collation
import RepoAtlas.Proofs.Text.Segments
import RepoAtlas.Python.Block
import RepoAtlas.Python.Cache
import RepoAtlas.Python.Cursor
import RepoAtlas.Python.Expression
import RepoAtlas.Python.Lexer
import RepoAtlas.Python.Literal
import RepoAtlas.Python.Match
import RepoAtlas.Python.Outline
import RepoAtlas.Python.Signature
import RepoAtlas.Python.Simple
import RepoAtlas.Python.Source
import RepoAtlas.Python.Statement
import RepoAtlas.Python.Syntax
import RepoAtlas.Python.Token
import RepoAtlas.Reconcile.Lookup
import RepoAtlas.Reconcile.Overlap
import RepoAtlas.Reconcile.Strategy
import RepoAtlas.Table
import RepoAtlas.Text.Blank
import RepoAtlas.Text.Collation
import RepoAtlas.Text.Identifier
import RepoAtlas.Text.Segments
import RepoAtlas.Text.Units
import RepoAtlas.Text.Utf8
import RepoAtlas.Workspace
import RepoAtlas.Proofs.Graph.Cycles
import RepoAtlas.Proofs.Graph.Insertion
import RepoAtlas.Proofs.Analysis.History
import RepoAtlas.Proofs.Analysis.Schedule
import RepoAtlas.Proofs.Graph.Equivariance
import RepoAtlas.Proofs.Origin.Rebinding
import RepoAtlas.Proofs.Reconcile.Foreign
import RepoAtlas.Proofs.Text.Separators
import RepoAtlas.Proofs.Reconcile.Spelling
import RepoAtlas.Proofs.Text.Units
import RepoAtlas.Proofs.Extraction.Isolation
import RepoAtlas.Proofs.Reconcile.Best
import RepoAtlas.Proofs.Pass.Relocation
import RepoAtlas.Proofs.Python.Cache
import RepoAtlas.Proofs.Reconcile.Keys
import RepoAtlas.Proofs.Python.Steady
import RepoAtlas.Proofs.Python.Lexemes
import RepoAtlas.Proofs.Python.Spans
import RepoAtlas.Proofs.Component.Positions
import RepoAtlas.Proofs.Python.Pieces
import RepoAtlas.Proofs.Python.Written
import RepoAtlas.Proofs.Python.Imports
import RepoAtlas.Proofs.Python.Spelling
import RepoAtlas.Proofs.Python.Layout
import RepoAtlas.Proofs.Python.Facing
import RepoAtlas.Proofs.Python.Headers
import RepoAtlas.Proofs.Text.Blank
import RepoAtlas.Proofs.Reconcile.Overlap
import RepoAtlas.Proofs.Python.Definitions
import RepoAtlas.Proofs.Python.Files
import RepoAtlas.Proofs.Python.Phrases
import RepoAtlas.Proofs.Python.Operands
import RepoAtlas.Proofs.Python.TypeParameters
import RepoAtlas.Proofs.Python.Bare
import RepoAtlas.Proofs.Component.Signatures
import RepoAtlas.Proofs.Component.Comments
import RepoAtlas.Proofs.Python.Quotes
import RepoAtlas.Proofs.Python.Literals
import RepoAtlas.Proofs.Python.Decoding
import RepoAtlas.Proofs.Text.Collapse
import RepoAtlas.Proofs.Origin.Depth
import RepoAtlas.Proofs.Reconcile.Folding
import RepoAtlas.Proofs.Json.Tokens
import RepoAtlas.Proofs.Json.Values
import RepoAtlas.Proofs.CallGraph.Facts
import RepoAtlas.Proofs.Text.Stretches
import RepoAtlas.Proofs.Path.Relative
