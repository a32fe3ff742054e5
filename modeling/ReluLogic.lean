import ReluLogic.Json.Formula
import ReluLogic.Json.Network
import ReluLogic.LinearProgram.Simplex
import ReluLogic.Formula.Renaming
import ReluLogic.Text.RegionDump
import ReluLogic.Proofs.LinearProgram.TwoPhase
import ReluLogic.Proofs.Translation.EndToEnd
import ReluLogic.Proofs.Decomposition.Threads
import ReluLogic.Proofs.Encoding.Conservativity
import ReluLogic.Proofs.Decomposition.Consistency
import ReluLogic.Proofs.Decomposition.Coefficients
import ReluLogic.Proofs.Translation.History
import ReluLogic.Proofs.Translation.Outputs
import ReluLogic.Proofs.Text.Numeral
import ReluLogic.Proofs.Text.Real
import ReluLogic.Proofs.Text.RegionDump
import ReluLogic.Proofs.Text.RoundTrip
import ReluLogic.Proofs.Decomposition.Separation
import ReluLogic.Proofs.Encoding.Scoping
import ReluLogic.Proofs.Translation.Redump
import ReluLogic.Proofs.Decomposition.Requests
import ReluLogic.Proofs.LinearProgram.Slack
import ReluLogic.Proofs.Encoding.Refusal
import ReluLogic.Proofs.Lattice.Check
import ReluLogic.Proofs.Lattice.MaxMin
import ReluLogic.Proofs.Encoding.Multiple
import ReluLogic.Proofs.Encoding.UnitFractions
import ReluLogic.Proofs.Formula.Renaming
import ReluLogic.Proofs.Decomposition.Gathering
import ReluLogic.Proofs.Text.ErrorLines
import ReluLogic.Proofs.Encoding.Budget
import ReluLogic.Proofs.Lattice.Obstacles
import ReluLogic.Proofs.Translation.Accepted
import ReluLogic.Proofs.Formula.Text
import ReluLogic.Proofs.Millionths
import ReluLogic.Proofs.LinearProgram.Stages
