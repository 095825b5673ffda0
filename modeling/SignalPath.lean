import SignalPath.Number.Whole
import SignalPath.Rate.Basic
import SignalPath.Rate.Phase
import SignalPath.Rate.Limiter
import SignalPath.Rate.Converter
import SignalPath.Rate.Linear
import SignalPath.Curve.Spline
import SignalPath.Number.Decimal
import SignalPath.Chip.Integrator
import SignalPath.Chip.Model
import SignalPath.Chip.Cascade
import SignalPath.Lowpass.Bessel
import SignalPath.Lowpass.Spec
import SignalPath.Lowpass.Bank
import SignalPath.Lowpass.Convolution
import SignalPath.Lowpass.Catalogue
import SignalPath.Rate.History
import SignalPath.Rate.Polyphase
import SignalPath.Rate.TwoStage
import SignalPath.Path
import SignalPath.Proofs.Number.Rounding
import SignalPath.Proofs.Number.Unpacked
import SignalPath.Proofs.Number.Operations
import SignalPath.Proofs.Number.Packing
import SignalPath.Proofs.Number.Binary64
import SignalPath.Proofs.Number.Binary32
import SignalPath.Proofs.Rate.Schedule
import SignalPath.Proofs.Rate.Window
import SignalPath.Proofs.Rate.Answers
import SignalPath.Proofs.Rate.Filtering
import SignalPath.Proofs.Chip.Current
import SignalPath.Proofs.Chip.Run
import SignalPath.Proofs.Chip.Envelope
import SignalPath.Proofs.Chip.Settings
import SignalPath.Proofs.Chip.Feedback
import SignalPath.Proofs.Number.Bounds
import SignalPath.Proofs.Rate.Planning
import SignalPath.Proofs.Rate.Acceptance
import SignalPath.Proofs.Number.WholePart
import SignalPath.Proofs.Rate.Register
import SignalPath.Proofs.Lowpass.Crossings
import SignalPath.Proofs.Lowpass.Dimensions
import SignalPath.Proofs.Lowpass.Entries
import SignalPath.Proofs.Rate.Safety
import SignalPath.Proofs.Curve.Rise
import SignalPath.Proofs.Chip.ReverseTable
import SignalPath.Proofs.Chip.Stage
import SignalPath.Proofs.Chip.Cascade
import SignalPath.Proofs.Chip.Settling
import SignalPath.Proofs.Rate.Composition
import SignalPath.Proofs.Chip.Faults
import SignalPath.Proofs.Lowpass.Sharing
import SignalPath.Proofs.Chip.Law
import SignalPath.Proofs.Chip.Inversion
import SignalPath.Proofs.Curve.Pieces
import SignalPath.Proofs.Curve.Monotone
import SignalPath.Proofs.Lowpass.Overflow
import SignalPath.Proofs.Lowpass.Continuation
import SignalPath.Proofs.Rate.Interpolation
import SignalPath.Proofs.Curve.Smooth
import SignalPath.Proofs.Rate.Limiting
import SignalPath.Proofs.Rate.Symmetry
import SignalPath.Proofs.Lowpass.Mirror
import SignalPath.Proofs.Lowpass.Series
import SignalPath.Proofs.Lowpass.Growth
import SignalPath.Proofs.Lowpass.Narrowing
import SignalPath.Proofs.Lowpass.DotProduct
import SignalPath.Proofs.Path
