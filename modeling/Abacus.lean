import Abacus.Binary64
import Abacus.Binary64.Safe
import Abacus.Decimal
import Abacus.Decimal.Shortest
import Abacus.Decimal.Fixed
import Abacus.Decimal.Read
import Abacus.Text.Blank
import Abacus.Text.Lines
import Abacus.Text.Word
import Abacus.Text.Scan
import Abacus.Text.Cut
import Abacus.Error
import Abacus.Syntax.Token
import Abacus.Syntax.Expr
import Abacus.Syntax.Parse
import Abacus.Syntax.Check
import Abacus.Syntax.Instruction
import Abacus.Numeral.Base
import Abacus.Numeral.Value
import Abacus.Numeral.Literal
import Abacus.Numeral.Write
import Abacus.Fraction.Factor
import Abacus.Fraction.Approximate
import Abacus.Session.Environment
import Abacus.Session.Rewrite
import Abacus.Session.Outcome
import Abacus.Session.Evaluator
import Abacus.Script
import Abacus.Invocation
import Abacus.Main
import Abacus.Proofs.Grammar
import Abacus.Proofs.Environment
import Abacus.Proofs.Waiting
import Abacus.Proofs.Line
import Abacus.Proofs.Resolution
import Abacus.Proofs.Block
import Abacus.Proofs.Session
import Abacus.Proofs.Echo
import Abacus.Proofs.Fixpoint
import Abacus.Proofs.Binding
import Abacus.Proofs.Factor
import Abacus.Proofs.Fraction
import Abacus.Proofs.Binary64.Parts
import Abacus.Proofs.Binary64.Rounding
import Abacus.Proofs.Binary64.Arithmetic
import Abacus.Proofs.Binary64.Nearest
import Abacus.Proofs.Binary64.Order
import Abacus.Proofs.Binary64.HalfAway
import Abacus.Proofs.Binary64.Value
import Abacus.Proofs.Approximation.Search
import Abacus.Proofs.Approximation.LowestTerms
import Abacus.Proofs.Numeral
import Abacus.Proofs.Canonical
import Abacus.Proofs.Repeating
import Abacus.Proofs.TokenPattern
import Abacus.Proofs.LongestMatch
import Abacus.Proofs.LeadingZero
import Abacus.Proofs.ScriptBlocks
import Abacus.Proofs.FixedPlaces
import Abacus.Proofs.NameExpansion
