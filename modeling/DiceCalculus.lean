import DiceCalculus.Interpreter
import DiceCalculus.Roller
import DiceCalculus.Proofs.Law.Integral
import DiceCalculus.Proofs.Agreement
import DiceCalculus.Proofs.Separability
import DiceCalculus.Proofs.Coverage.Forms
import DiceCalculus.Proofs.Coverage
import DiceCalculus.Proofs.FrameEffect
import DiceCalculus.Proofs.Certainty
import DiceCalculus.Proofs.LimitEffect
import DiceCalculus.Proofs.BoundVariable
import DiceCalculus.Proofs.LexicalScope
import DiceCalculus.Proofs.Queries
import DiceCalculus.Proofs.Consistency
import DiceCalculus.Proofs.Totality
import DiceCalculus.Proofs.FailedRequests
import DiceCalculus.Proofs.OutcomeLimit
import DiceCalculus.Proofs.AbsentDice
import DiceCalculus.Proofs.WrittenForm
import DiceCalculus.Proofs.DiceSums
import DiceCalculus.Proofs.DiceMarginals
import DiceCalculus.Proofs.Dispatch
import DiceCalculus.Proofs.RollBudget
import DiceCalculus.Proofs.Maxima
import DiceCalculus.Proofs.Outputs
import DiceCalculus.Proofs.Representation
import DiceCalculus.Proofs.Operations
import DiceCalculus.Proofs.Arguments
import DiceCalculus.Proofs.TopLevel
import DiceCalculus.Proofs.DiceOperands
import DiceCalculus.Proofs.Aliases
import DiceCalculus.Proofs.Order
import DiceCalculus.Proofs.FairFaces
import DiceCalculus.Proofs.IntegerCasts
import DiceCalculus.Proofs.FaceSums
