import ShaderGen.Annotation
import ShaderGen.Category
import ShaderGen.CommandLine.Command
import ShaderGen.CommandLine.FileNode
import ShaderGen.CommandLine.FileTree
import ShaderGen.CommandLine.Files
import ShaderGen.CommandLine.Generate
import ShaderGen.CommandLine.Options
import ShaderGen.Config.Basic
import ShaderGen.Config.Decode
import ShaderGen.Config.Validity
import ShaderGen.Decimal.Binary
import ShaderGen.Decimal.Format
import ShaderGen.Decimal.Reader
import ShaderGen.Decimal.Shortest
import ShaderGen.Entity
import ShaderGen.ExtendedOp
import ShaderGen.Fault
import ShaderGen.Generator.Basic
import ShaderGen.Generator.Block
import ShaderGen.Generator.Constants
import ShaderGen.Generator.Dispatch
import ShaderGen.Generator.Nesting
import ShaderGen.Generator.Operands
import ShaderGen.Generator.Program
import ShaderGen.Generator.Types
import ShaderGen.Generator.Variables
import ShaderGen.Generator.Weighting
import ShaderGen.Instr
import ShaderGen.Json.Basic
import ShaderGen.Json.Number
import ShaderGen.Json.Printer
import ShaderGen.Json.Reader
import ShaderGen.Layout
import ShaderGen.Listing.Basic
import ShaderGen.Listing.Reader
import ShaderGen.Literal
import ShaderGen.Main
import ShaderGen.Module
import ShaderGen.Opcode
import ShaderGen.Predicate
import ShaderGen.Proofs.Accesses
import ShaderGen.Proofs.Accounting
import ShaderGen.Proofs.Answers
import ShaderGen.Proofs.Arguments
import ShaderGen.Proofs.Arrays
import ShaderGen.Proofs.Atomicity
import ShaderGen.Proofs.Binding
import ShaderGen.Proofs.BlockDiscipline
import ShaderGen.Proofs.Blocks
import ShaderGen.Proofs.Books
import ShaderGen.Proofs.Bounding
import ShaderGen.Proofs.Budget
import ShaderGen.Proofs.BufferLayout
import ShaderGen.Proofs.Buffering
import ShaderGen.Proofs.Calm
import ShaderGen.Proofs.CalmEntries
import ShaderGen.Proofs.CalmStatements
import ShaderGen.Proofs.Canonical
import ShaderGen.Proofs.Composites
import ShaderGen.Proofs.Conservation
import ShaderGen.Proofs.Constants
import ShaderGen.Proofs.Contracts
import ShaderGen.Proofs.Conversions
import ShaderGen.Proofs.DecimalTexts
import ShaderGen.Proofs.Decorations
import ShaderGen.Proofs.Depth
import ShaderGen.Proofs.Dispatch
import ShaderGen.Proofs.Distinctness
import ShaderGen.Proofs.Dominance
import ShaderGen.Proofs.Elementwise
import ShaderGen.Proofs.Emission
import ShaderGen.Proofs.EmissionErrors
import ShaderGen.Proofs.Endless
import ShaderGen.Proofs.Entries
import ShaderGen.Proofs.Exclusions
import ShaderGen.Proofs.Extended
import ShaderGen.Proofs.Fertility
import ShaderGen.Proofs.FileTrees
import ShaderGen.Proofs.Filling
import ShaderGen.Proofs.FloatWords
import ShaderGen.Proofs.Freshness
import ShaderGen.Proofs.Functions
import ShaderGen.Proofs.Grammar
import ShaderGen.Proofs.Imports
import ShaderGen.Proofs.IndexRange
import ShaderGen.Proofs.Interning
import ShaderGen.Proofs.Inventory
import ShaderGen.Proofs.LeastLayout
import ShaderGen.Proofs.Linear
import ShaderGen.Proofs.Literals
import ShaderGen.Proofs.Memory
import ShaderGen.Proofs.Mentions
import ShaderGen.Proofs.Numerals
import ShaderGen.Proofs.Operands
import ShaderGen.Proofs.Outcomes
import ShaderGen.Proofs.Pinning
import ShaderGen.Proofs.Placement
import ShaderGen.Proofs.Plain
import ShaderGen.Proofs.Plans
import ShaderGen.Proofs.Production
import ShaderGen.Proofs.Progress
import ShaderGen.Proofs.ProgressBlocks
import ShaderGen.Proofs.ProgressDraws
import ShaderGen.Proofs.ProgressTables
import ShaderGen.Proofs.Queries
import ShaderGen.Proofs.Reading
import ShaderGen.Proofs.Relations
import ShaderGen.Proofs.Retries
import ShaderGen.Proofs.Rounding
import ShaderGen.Proofs.Routines
import ShaderGen.Proofs.Runs
import ShaderGen.Proofs.Scopes
import ShaderGen.Proofs.Search
import ShaderGen.Proofs.Searching
import ShaderGen.Proofs.SelectionDepth
import ShaderGen.Proofs.Serials
import ShaderGen.Proofs.Session
import ShaderGen.Proofs.Shapes
import ShaderGen.Proofs.ShortestDecimals
import ShaderGen.Proofs.Simulation
import ShaderGen.Proofs.Sparing
import ShaderGen.Proofs.Step
import ShaderGen.Proofs.Stock
import ShaderGen.Proofs.Stops
import ShaderGen.Proofs.Streams
import ShaderGen.Proofs.Structure
import ShaderGen.Proofs.Supplies
import ShaderGen.Proofs.Termination
import ShaderGen.Proofs.TypeSoundness
import ShaderGen.Proofs.Types
import ShaderGen.Proofs.Typing
import ShaderGen.Proofs.Undisturbed
import ShaderGen.Proofs.Variables
import ShaderGen.Proofs.Visibility
import ShaderGen.Proofs.Weighting
import ShaderGen.Proofs.WellFormed
import ShaderGen.Proofs.Widths
import ShaderGen.Proofs.Withholding
import ShaderGen.Proofs.Written
import ShaderGen.Random.Certain
import ShaderGen.Random.Draw
import ShaderGen.Random.KeyStream
import ShaderGen.Random.Script
import ShaderGen.Random.Source
import ShaderGen.Scope
import ShaderGen.Shader.Basic
import ShaderGen.Shader.Buffers
import ShaderGen.Shader.DynamicIndex
import ShaderGen.Shader.Emission
import ShaderGen.Shader.Stats
import ShaderGen.Statement.Composite
import ShaderGen.Statement.Conversion
import ShaderGen.Statement.Elementwise
import ShaderGen.Statement.Extended
import ShaderGen.Statement.Linear
import ShaderGen.Statement.Memory
import ShaderGen.Statement.Recipe
import ShaderGen.Table
import ShaderGen.Text.Blank
import ShaderGen.Text.Digits
import ShaderGen.Weights.Shape
import ShaderGen.Weights.Table
