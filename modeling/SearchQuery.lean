import SearchQuery.CommandLine.FileTree
import SearchQuery.Main
import SearchQuery.Expr.Split
import SearchQuery.Proofs.Grammar.Scanner
import SearchQuery.Proofs.Spelling.Respell
import SearchQuery.Proofs.Spelling.Plain
import SearchQuery.Proofs.Grammar.Pieces
import SearchQuery.Proofs.Query.WellFormed
import SearchQuery.Proofs.Query.Pieces
import SearchQuery.Proofs.Grammar.Marks
import SearchQuery.Proofs.KeyMarks.Erase
import SearchQuery.Proofs.Query.Unused
import SearchQuery.Proofs.Grammar.Machine
import SearchQuery.Proofs.Directive.Append
import SearchQuery.Proofs.Grammar.Endings
import SearchQuery.Proofs.Grammar.Explicit
import SearchQuery.Proofs.Query.Endings
import SearchQuery.Proofs.Query.Orderings
import SearchQuery.Proofs.Grammar.Enclosed
import SearchQuery.Proofs.Expr.Ways
import SearchQuery.Proofs.Grammar.Alternatives
import SearchQuery.Proofs.Query.Ways
import SearchQuery.Proofs.Query.Allowed
import SearchQuery.Proofs.CommandLine.OneQuery
import SearchQuery.Proofs.Report.ReadBack
import SearchQuery.Proofs.Query.Separators
import SearchQuery.Proofs.Token.Offsets
import SearchQuery.Proofs.Grammar.Conjunctions
import SearchQuery.Proofs.CommandLine.Mentions
import SearchQuery.Proofs.CommandLine.Summary
import SearchQuery.Proofs.Directive.Parts
import SearchQuery.Proofs.Grammar.Quoting
import SearchQuery.Proofs.Expr.Walk
import SearchQuery.Proofs.Expr.Split
import SearchQuery.Proofs.Grammar.Descent
import SearchQuery.Proofs.Token.Content
