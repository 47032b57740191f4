import ClassSketch.Class.Access
import ClassSketch.Class.Ancestry
import ClassSketch.Class.Codec
import ClassSketch.Class.Constant
import ClassSketch.Class.Decl
import ClassSketch.Class.Library
import ClassSketch.Class.Metadata
import ClassSketch.Class.Modifier
import ClassSketch.Command.Arguments
import ClassSketch.Command.FileTree
import ClassSketch.Command.Path
import ClassSketch.Command.Run
import ClassSketch.Decimal.Float
import ClassSketch.Decimal.Notation
import ClassSketch.Decimal.Shortest
import ClassSketch.Failure
import ClassSketch.Json.Decode
import ClassSketch.Json.Reader
import ClassSketch.Json.Value
import ClassSketch.Json.Writer
import ClassSketch.Lines.LineMap
import ClassSketch.Lines.Trace
import ClassSketch.Main
import ClassSketch.Nesting.Anonymity
import ClassSketch.Nesting.Census
import ClassSketch.Nesting.Claim
import ClassSketch.Nesting.Forest
import ClassSketch.Nesting.Growth
import ClassSketch.Nesting.Lambda
import ClassSketch.Nesting.Node
import ClassSketch.Nesting.Outline
import ClassSketch.Nesting.Preparation
import ClassSketch.Options
import ClassSketch.Renaming
import ClassSketch.Render.Prepared
import ClassSketch.Render.Renderer
import ClassSketch.Render.Scripted
import ClassSketch.Scope
import ClassSketch.Session
import ClassSketch.Sketch.Class
import ClassSketch.Sketch.Draft
import ClassSketch.Sketch.Field
import ClassSketch.Sketch.File
import ClassSketch.Sketch.Header
import ClassSketch.Sketch.Imports
import ClassSketch.Sketch.Lambda
import ClassSketch.Sketch.Method
import ClassSketch.Sketch.MethodShape
import ClassSketch.Sketch.Module
import ClassSketch.Sketch.Workshop
import ClassSketch.Table
import ClassSketch.Text.Buffer
import ClassSketch.Text.Letter
import ClassSketch.Text.Lines
import ClassSketch.Text.Printable
import ClassSketch.Text.Quoted
import ClassSketch.Text.Range
import ClassSketch.Tree
import ClassSketch.Type.Basic
import ClassSketch.Type.Name
import ClassSketch.Type.Signature
import ClassSketch.Warning
import ClassSketch.Proofs.Numbering
import ClassSketch.Proofs.LinkedTree
import ClassSketch.Proofs.ClaimRuns
import ClassSketch.Proofs.OwnWord
import ClassSketch.Proofs.Grafting
import ClassSketch.Proofs.Walks
import ClassSketch.Proofs.Partition
import ClassSketch.Proofs.Transients
import ClassSketch.Proofs.Survey
import ClassSketch.Proofs.Reachability
import ClassSketch.Proofs.Positions
import ClassSketch.Proofs.LoadOrder
import ClassSketch.Proofs.Alphabet
import ClassSketch.Proofs.Wording
import ClassSketch.Proofs.DeclTexts
import ClassSketch.Proofs.Sketching
import ClassSketch.Proofs.Heads
import ClassSketch.Proofs.Visits
import ClassSketch.Proofs.Pooling
import ClassSketch.Proofs.Bodies
import ClassSketch.Proofs.LineCount
import ClassSketch.Proofs.Files
import ClassSketch.Proofs.Isolation
import ClassSketch.Proofs.Provenance
import ClassSketch.Proofs.Tables
import ClassSketch.Proofs.LinePositions
import ClassSketch.Proofs.Offsets
import ClassSketch.Proofs.Grammar
import ClassSketch.Proofs.Parsing
import ClassSketch.Proofs.Routes
import ClassSketch.Proofs.Ancestors
import ClassSketch.Proofs.Histories
import ClassSketch.Proofs.Corrections
import ClassSketch.Proofs.LibraryCalls
import ClassSketch.Proofs.ShortNames
import ClassSketch.Proofs.Spelling
import ClassSketch.Proofs.WrittenSignatures
import ClassSketch.Proofs.StoredClasses
import ClassSketch.Proofs.OutputFolder
import ClassSketch.Proofs.RenamedMembers
import ClassSketch.Proofs.NodeNumbers
import ClassSketch.Proofs.Arena
import ClassSketch.Proofs.Splitting
import ClassSketch.Proofs.Slices
import ClassSketch.Proofs.ParameterMasks
import ClassSketch.Proofs.StepLimits
import ClassSketch.Proofs.GuardedRuns
import ClassSketch.Proofs.GuardedFiles
import ClassSketch.Proofs.Braces
import ClassSketch.Proofs.HiddenMethods
import ClassSketch.Proofs.MappedLines
import ClassSketch.Proofs.ReachedClasses
import ClassSketch.Proofs.WrittenMethods
import ClassSketch.Proofs.KnownAncestries
import ClassSketch.Proofs.SharedCaches
import ClassSketch.Proofs.TypeVariables
import ClassSketch.Proofs.FirstNames
import ClassSketch.Proofs.ShiftedLines
import ClassSketch.Proofs.NestingDepth
import ClassSketch.Proofs.AnonymousUses
import ClassSketch.Proofs.GrownTrees
import ClassSketch.Proofs.PreparationOrder
import ClassSketch.Proofs.RenamedForests
import ClassSketch.Proofs.SiblingNames
import ClassSketch.Proofs.ComposedSubstitutions
import ClassSketch.Proofs.Erasure
import ClassSketch.Proofs.NestingGraph
import ClassSketch.Proofs.Preorder
import ClassSketch.Proofs.DefaultConstructors
import ClassSketch.Proofs.EnumConstants
import ClassSketch.Proofs.LeadingDollars
import ClassSketch.Proofs.Literals
import ClassSketch.Proofs.ModifierSteps
import ClassSketch.Proofs.WordVisibility
import ClassSketch.Proofs.TraceRuns
import ClassSketch.Proofs.NearestEntries
import ClassSketch.Proofs.ParentChains
import ClassSketch.Proofs.CurrentClass
