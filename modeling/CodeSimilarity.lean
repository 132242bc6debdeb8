import CodeSimilarity.FileTree
import CodeSimilarity.Main
import CodeSimilarity.Request
import CodeSimilarity.Proofs.AddedComments
import CodeSimilarity.Proofs.Coverage
import CodeSimilarity.Proofs.NormalForm
import CodeSimilarity.Proofs.Relayout
import CodeSimilarity.Proofs.Scanner
import CodeSimilarity.Proofs.Doubles
import CodeSimilarity.Proofs.Rounding
import CodeSimilarity.Proofs.Jaccard
import CodeSimilarity.Proofs.Appending
import CodeSimilarity.Proofs.Ranking
import CodeSimilarity.Proofs.WorkerPool
import CodeSimilarity.Proofs.Remerging
import CodeSimilarity.Proofs.Counts
import CodeSimilarity.Proofs.Outcomes
import CodeSimilarity.Proofs.FingerprintScan
import CodeSimilarity.Proofs.Quotations
import CodeSimilarity.Proofs.LineFingerprints
import CodeSimilarity.Proofs.OperatorClasses
import CodeSimilarity.Proofs.SubstitutionPasses
import CodeSimilarity.Proofs.WindowPartition
import CodeSimilarity.Proofs.DigestPolynomial
import CodeSimilarity.Proofs.ClosedComments
import CodeSimilarity.Proofs.JoinedWords
import CodeSimilarity.Proofs.IllFormedPatterns
import CodeSimilarity.Proofs.LeadingInteger
import CodeSimilarity.Proofs.LegalSettings
import CodeSimilarity.Proofs.PlaceholderTable
import CodeSimilarity.Proofs.Numerals
import CodeSimilarity.Proofs.DigestNumerals
import CodeSimilarity.Proofs.DigestTables
import CodeSimilarity.Proofs.Requests
import CodeSimilarity.Proofs.FileTrees
import CodeSimilarity.Proofs.PrintedJson
