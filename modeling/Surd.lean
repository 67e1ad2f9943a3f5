import Surd.Main
import Surd.Sketch
import Surd.Radical.FactorList
import Surd.Proofs.Phrase.Runs
import Surd.Proofs.Evaluation.Exact
import Surd.Proofs.Phrase.Acceptance
import Surd.Proofs.Double.Finite
import Surd.Proofs.Radical.Independence
import Surd.Proofs.Radical.Squarefree
import Surd.Proofs.Radical.Decomposition
import Surd.Proofs.Number.Finite
import Surd.Proofs.Radical.Canonical
import Surd.Proofs.Radical.Unique
import Surd.Proofs.Radical.Finite
import Surd.Proofs.Evaluation.Finite
import Surd.Proofs.Evaluation.DecimalSide
import Surd.Proofs.Decimal.Shortest
import Surd.Proofs.Decimal.Places
import Surd.Proofs.Decimal.Digits
import Surd.Proofs.Json.Number
import Surd.Proofs.Entries
import Surd.Proofs.Json.RoundTrip
import Surd.Proofs.Settings.File
import Surd.Proofs.Settings.Valid
import Surd.Proofs.Radical.Recognition
import Surd.Proofs.Tree.Numerals
import Surd.Proofs.Evaluation.FiniteValue
import Surd.Proofs.Session.Turn
import Surd.Proofs.Session.Saved
import Surd.Proofs.Session.Sound
import Surd.Proofs.Session.Frame
import Surd.Proofs.Session.History
import Surd.Proofs.Session.Trace
import Surd.Proofs.Radical.Ring
import Surd.Proofs.Radical.Power
import Surd.Proofs.Tree.Names
import Surd.Proofs.Evaluation.Names
import Surd.Proofs.Number.Shown
import Surd.Proofs.Store.Words
import Surd.Proofs.Token.Lexed
import Surd.Proofs.Token.Move
import Surd.Proofs.Store.Expansion
import Surd.Proofs.Token.Bare
import Surd.Proofs.Settings.Loading
import Surd.Proofs.Tree.Assembled
import Surd.Proofs.Tree.Operands
import Surd.Proofs.Tree.Expansion
import Surd.Proofs.Store.Substitution
import Surd.Proofs.Token.Tiling
import Surd.Proofs.Token.Spacing
import Surd.Proofs.Tree.Composition
import Surd.Proofs.Radical.Growth
import Surd.Proofs.Parsed
import Surd.Proofs.Store.Simultaneous
import Surd.Proofs.Decimal.Fixed
import Surd.Proofs.Double.Error
import Surd.Proofs.Fraction
import Surd.Proofs.Radical.NormalForm
import Surd.Proofs.Radical.Rationalised
import Surd.Proofs.Radical.Printed
import Surd.Proofs.Settings.Update
import Surd.Proofs.Settings.Usable
import Surd.Proofs.Number.Quotient
import Surd.Proofs.Radical.Division
import Surd.Proofs.Double.Text
import Surd.Proofs.Tree.PostOrder
import Surd.Proofs.Store.Calls
import Surd.Proofs.Store.Naming
import Surd.Proofs.CommandLine
import Surd.Proofs.Token.Nesting
import Surd.Proofs.Token.Placement
import Surd.Proofs.Token.Conservation
import Surd.Proofs.Radical.TrialDivision
import Surd.Proofs.Radical.FactorList
import Surd.Proofs.Radical.Limit
import Surd.Proofs.Json.Beginning
