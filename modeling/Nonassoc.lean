import Nonassoc.Coordinates
import Nonassoc.Main
import Nonassoc.Token.Pool
import Nonassoc.Capacity
import Nonassoc.Total
import Nonassoc.Proofs.Walk
import Nonassoc.Proofs.SlotTables
import Nonassoc.Proofs.Elements
import Nonassoc.Proofs.Identities
import Nonassoc.Proofs.Symmetrization
import Nonassoc.Proofs.Completions
import Nonassoc.Proofs.Runs
import Nonassoc.Proofs.Soundness
import Nonassoc.Proofs.Faithfulness
import Nonassoc.Proofs.Histories
import Nonassoc.Proofs.Homogeneity
import Nonassoc.Proofs.Lookups
import Nonassoc.Proofs.Cancellation
import Nonassoc.Proofs.Grammar
import Nonassoc.Proofs.Parsing
import Nonassoc.Proofs.FreeAlgebra
import Nonassoc.Proofs.FreeRuns
import Nonassoc.Proofs.Pairs
import Nonassoc.Proofs.Merging
import Nonassoc.Proofs.LikeWords
import Nonassoc.Proofs.Meaning
import Nonassoc.Proofs.Positions
import Nonassoc.Proofs.WrittenForm
import Nonassoc.Proofs.Blocks
import Nonassoc.Proofs.Monomials
import Nonassoc.Proofs.NameOrder
import Nonassoc.Proofs.Scaling
import Nonassoc.Proofs.Batches
import Nonassoc.Proofs.Renaming
import Nonassoc.Proofs.Successions
import Nonassoc.Proofs.Interleavings
import Nonassoc.Proofs.Lines
import Nonassoc.Proofs.Workers
import Nonassoc.Proofs.Responses
import Nonassoc.Proofs.Checked.Programs
import Nonassoc.Proofs.Checked.Splits
import Nonassoc.Proofs.Checked.Partitions
import Nonassoc.Proofs.Checked.Substitutions
import Nonassoc.Proofs.Charges
import Nonassoc.Proofs.Checked.Runs
import Nonassoc.Proofs.SearchOrder
import Nonassoc.Proofs.Accounts
import Nonassoc.Proofs.MatchingOrder
import Nonassoc.Proofs.SubstitutionOrder
import Nonassoc.Proofs.Interruptions
import Nonassoc.Proofs.SlotSymmetry
import Nonassoc.Proofs.Occurrences
import Nonassoc.Proofs.SafeParsing
import Nonassoc.Proofs.NameArithmetic
import Nonassoc.Proofs.SharedTokens
import Nonassoc.Proofs.MultidegreeText
import Nonassoc.Proofs.MonomialCounts
import Nonassoc.Proofs.FreeCounts
