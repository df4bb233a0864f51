import SplitTally.CommandLine.Folder
import SplitTally.Main
import SplitTally.Placement
import SplitTally.Placement.Checked
import SplitTally.Proofs.AcceptedBundles
import SplitTally.Proofs.Addressed
import SplitTally.Proofs.Admission
import SplitTally.Proofs.Assignments
import SplitTally.Proofs.Base64Text
import SplitTally.Proofs.BitVectors
import SplitTally.Proofs.Capacity
import SplitTally.Proofs.ClientOutcome
import SplitTally.Proofs.CoordinateField
import SplitTally.Proofs.CountedItems
import SplitTally.Proofs.Delivery
import SplitTally.Proofs.DiscreteTransform
import SplitTally.Proofs.Draws
import SplitTally.Proofs.Envelopes
import SplitTally.Proofs.EvaluationPoints
import SplitTally.Proofs.ExactArithmetic
import SplitTally.Proofs.ExactTotals
import SplitTally.Proofs.FourierTransform
import SplitTally.Proofs.HexText
import SplitTally.Proofs.Hiding
import SplitTally.Proofs.InPlace
import SplitTally.Proofs.Indistinguishable
import SplitTally.Proofs.Interpolants
import SplitTally.Proofs.JsonText
import SplitTally.Proofs.KeyTexts
import SplitTally.Proofs.Ladder
import SplitTally.Proofs.ListedRoots
import SplitTally.Proofs.MessageValues
import SplitTally.Proofs.Placements
import SplitTally.Proofs.ProofContents
import SplitTally.Proofs.RandomShares
import SplitTally.Proofs.ResidueField
import SplitTally.Proofs.Reuse
import SplitTally.Proofs.RootsOfUnity
import SplitTally.Proofs.RoundTrip
import SplitTally.Proofs.RunningTotal
import SplitTally.Proofs.SchemaText
import SplitTally.Proofs.SealedTexts
import SplitTally.Proofs.SharePolynomials
import SplitTally.Proofs.Sharing
import SplitTally.Proofs.SlotSums
import SplitTally.Proofs.Slots
import SplitTally.Proofs.Streams
import SplitTally.Proofs.Tiling
import SplitTally.Proofs.Truncation
import SplitTally.Proofs.Validity
import SplitTally.Proofs.Verdicts
import SplitTally.Proofs.WeightedSums
import SplitTally.Proofs.WireFormat
import SplitTally.Schema.Survey
import SplitTally.Scribe
import SplitTally.Scribe.Setup
import SplitTally.Teller
import SplitTally.Transform.Checked
import SplitTally.Wire.Counted
import SplitTally.Wire.Stream
