import IntLang.Main
import IntLang.Proofs.CommandLine.Arguments
import IntLang.Proofs.CommandLine.Verbose
import IntLang.Proofs.Eval.DeadCode
import IntLang.Proofs.Eval.Exact
import IntLang.Proofs.Expr.Reading
import IntLang.Proofs.Grammar.Lines
import IntLang.Proofs.Grammar.Powers
import IntLang.Proofs.Grammar.Progress
import IntLang.Proofs.Grammar.Requests
import IntLang.Proofs.Grammar.Spans
import IntLang.Proofs.Semantics.Refinement
import IntLang.Proofs.Session.Growth
import IntLang.Proofs.Session.Isolation
import IntLang.Proofs.Session.Layout
import IntLang.Proofs.Session.Nesting
import IntLang.Proofs.Session.OneExpression
import IntLang.Proofs.Session.Reports
import IntLang.Proofs.Source.Search
import IntLang.Proofs.StackCode.Evaluation
import IntLang.Proofs.StackCode.Listing
import IntLang.Proofs.Token.OnePass
import IntLang.Proofs.Token.Standstill
import IntLang.Token.Lexer
import IntLang.Proofs.Loop.Basic
import IntLang.Proofs.Token.Passes
