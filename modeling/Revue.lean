import Revue.Proofs.ScannerRuns
import Revue.Main
import Revue.Syntax.Outline
import Revue.Proofs.LexicalGrammar
import Revue.Proofs.LineRuns
import Revue.Proofs.Sheets
import Revue.Proofs.Reindentation
import Revue.Proofs.Weaving
import Revue.Proofs.WellFormedText
import Revue.Proofs.GeneratedText
import Revue.Proofs.Tables
import Revue.Proofs.PreservedFragments
import Revue.Proofs.EditOrder
import Revue.Proofs.LaidTrees
import Revue.Proofs.SiteSpec
import Revue.Proofs.SiteOrder
import Revue.Proofs.SiteExactness
import Revue.Proofs.FieldAssignments
import Revue.Proofs.ClassSteps
import Revue.Proofs.ItemSteps
import Revue.Proofs.ContractLedger
import Revue.Proofs.PropContracts
import Revue.Proofs.ItemTraces
import Revue.Proofs.LiteralTexts
import Revue.Proofs.TokenTexts
import Revue.Proofs.LexerRuns
import Revue.Proofs.LiteralAgreement
import Revue.Proofs.BindRemoval
import Revue.Proofs.RepairRuns
import Revue.Proofs.PrimaryComponent
import Revue.Proofs.ItemShapes
import Revue.Proofs.SourceSlices
import Revue.Proofs.ModelSlices
import Revue.Proofs.AnalysisSlices
import Revue.Proofs.FlaggedProps
import Revue.Proofs.Overwriting
import Revue.Proofs.AsciiBytes
import Revue.Proofs.ByteErasure
import Revue.Proofs.LineStructure
import Revue.Proofs.PragmaErasure
import Revue.Proofs.ItemNotes
import Revue.Proofs.SharedText
import Revue.Proofs.ExportForms
import Revue.Proofs.DeclaredProps
import Revue.Proofs.CommandRuns
import Revue.Proofs.Scopes
import Revue.Proofs.PropsScope
import Revue.Proofs.CreatedStatements
import Revue.Proofs.ConstructorStatements
import Revue.Proofs.ObjectEntries
import Revue.Proofs.CallParens
import Revue.Proofs.MovedCode
import Revue.Proofs.ArrowFields
import Revue.Proofs.ClassNotes
import Revue.Proofs.StateUpdaters
import Revue.Proofs.NestedClasses
import Revue.Proofs.AccessPaths
import Revue.Proofs.TokenPattern
import Revue.Proofs.TypedSignatures
import Revue.Proofs.OneClass
import Revue.Proofs.GreedyEdits
import Revue.Proofs.EditSequences
import Revue.Proofs.WrappedText
import Revue.Proofs.ShortestTokens
import Revue.Proofs.RepairFrame
import Revue.Proofs.OptionKeys
import Revue.Proofs.MembersOfThis
import Revue.Proofs.WordTokens
import Revue.Proofs.FieldKeys
import Revue.Proofs.LinePositions
import Revue.Proofs.QuotedLiterals
import Revue.Proofs.WholeWords
import Revue.Proofs.BaseMargin
import Revue.Proofs.ListedProps
import Revue.Proofs.ValidatorShapes
import Revue.Proofs.DefaultFactories
import Revue.Proofs.TextSeams
import Revue.Proofs.NestedIndents
import Revue.Proofs.ValidSlices
import Revue.Proofs.HeadComments
