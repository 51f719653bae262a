import VectorSine.Main
import VectorSine.Session
import VectorSine.Proofs.Binary32.RealRounding
import VectorSine.Proofs.Binary32.RealValue
import VectorSine.Proofs.Binary32.Special
import VectorSine.Proofs.Binary32.Conversion
import VectorSine.Proofs.Execution.Contents
import VectorSine.Proofs.Execution.Refusal
import VectorSine.Proofs.Execution.Results
import VectorSine.Proofs.Engine.Resolution
import VectorSine.Proofs.Execution.Accesses
import VectorSine.Proofs.Pipeline.Octant
import VectorSine.Proofs.Pipeline.Overflow
import VectorSine.Proofs.Packed.Agreement
import VectorSine.Proofs.Pipeline.HalfAngle
import VectorSine.Proofs.Pipeline.Reduction
import VectorSine.Proofs.Pipeline.Quadrant
import VectorSine.Proofs.Sine.Rounded
import VectorSine.Proofs.Accuracy
import VectorSine.Proofs.Execution.Blocks
import VectorSine.Proofs.Engine.Calls
import VectorSine.Proofs.Execution.Alone
import VectorSine.Proofs.Session.OneShot
import VectorSine.Proofs.Binary32.Opposite
import VectorSine.Proofs.Pipeline.Doubling
import VectorSine.Proofs.Pipeline.Magnitude
import VectorSine.Proofs.Pipeline.Sign
import VectorSine.Proofs.Pipeline.LargeAngle
import VectorSine.Proofs.NotANumber
import VectorSine.Proofs.Pipeline.Correction
import VectorSine.Proofs.Pipeline.ReducedAngle
