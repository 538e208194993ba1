import RelayLogic.Console.Outcome
import RelayLogic.Main
import RelayLogic.Proofs.Evaluation
import RelayLogic.Proofs.Draft
import RelayLogic.Proofs.ExpressionGrammar
import RelayLogic.Proofs.Resolution
import RelayLogic.Proofs.ProgramGrammar
import RelayLogic.Proofs.Execution
import RelayLogic.Proofs.Safety
import RelayLogic.Proofs.Sequence
import RelayLogic.Proofs.Expansion
import RelayLogic.Proofs.Cycle
import RelayLogic.Proofs.Solution
import RelayLogic.Proofs.ResolvedTree
import RelayLogic.Proofs.TruthTable
import RelayLogic.Proofs.TableRoom
import RelayLogic.Proofs.TableMeaning
import RelayLogic.Proofs.Image
import RelayLogic.Proofs.SharedVisits
import RelayLogic.Proofs.Formula
import RelayLogic.Proofs.FormulaText
import RelayLogic.Proofs.Inversion
import RelayLogic.Proofs.Settling
import RelayLogic.Proofs.ListingCode
import RelayLogic.Proofs.TreeListing
import RelayLogic.Proofs.Accumulator
import RelayLogic.Proofs.VisitCounts
import RelayLogic.Proofs.DeclaredNumbers
import RelayLogic.Proofs.CopyBound
import RelayLogic.Proofs.ResolvedNumbers
import RelayLogic.Proofs.DisplayedText
import RelayLogic.Proofs.EquationOrder
import RelayLogic.Proofs.StackDepth
import RelayLogic.Proofs.CallHistory
import RelayLogic.Proofs.ListingText
import RelayLogic.Proofs.Footprint
import RelayLogic.Proofs.StackRoom
import RelayLogic.Proofs.ImageWriting
import RelayLogic.Proofs.FirstDefect
import RelayLogic.Proofs.MalformedImage
import RelayLogic.Proofs.QuotedLine
import RelayLogic.Proofs.TableCoverage
import RelayLogic.Proofs.MarkedColumns
import RelayLogic.Proofs.ErrorPlaces
import RelayLogic.Proofs.OutputFormats
import RelayLogic.Proofs.StackHistory
import RelayLogic.Proofs.SymbolHistory
