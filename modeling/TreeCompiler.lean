import TreeCompiler.Code.Document
import TreeCompiler.Code.Listing
import TreeCompiler.Diagnostic.Board
import TreeCompiler.Proofs.CompleteUnits
import TreeCompiler.Proofs.DecidedNames
import TreeCompiler.Proofs.DroppedCode
import TreeCompiler.Proofs.EmittedUnits
import TreeCompiler.Proofs.EscapedText
import TreeCompiler.Proofs.ExpressionConstants
import TreeCompiler.Proofs.FiniteTypes
import TreeCompiler.Proofs.FittingOrder
import TreeCompiler.Proofs.LastingTypes
import TreeCompiler.Proofs.Messages
import TreeCompiler.Proofs.PlacedLabels
import TreeCompiler.Proofs.ScopeWalks
import TreeCompiler.Proofs.Shapes
import TreeCompiler.Proofs.SweepBounds
import TreeCompiler.Proofs.TracelessSpeculation
import TreeCompiler.Proofs.VisibleLocals
import TreeCompiler.Proofs.WholeTrees
import TreeCompiler.Tree.Builder
import TreeCompiler.Tree.Document
import TreeCompiler.Tree.Outline
