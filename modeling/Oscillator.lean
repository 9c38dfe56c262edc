import Oscillator.Plot
import Oscillator.Proofs.Caveats
import Oscillator.Proofs.Decimal.Digits
import Oscillator.Proofs.Decimal.Positional
import Oscillator.Proofs.Decimal.ReadBack
import Oscillator.Proofs.Decimal.Shortest
import Oscillator.Proofs.Double.Bits
import Oscillator.Proofs.Double.Grid
import Oscillator.Proofs.Double.Interval
import Oscillator.Proofs.Double.Nearest
import Oscillator.Proofs.Double.Negation
import Oscillator.Proofs.Double.Operations
import Oscillator.Proofs.Double.Packing
import Oscillator.Proofs.Double.Product
import Oscillator.Proofs.Double.Rounding
import Oscillator.Proofs.Double.Value
import Oscillator.Proofs.Exact.Complex
import Oscillator.Proofs.Expansion.Affine
import Oscillator.Proofs.Expansion.Degree
import Oscillator.Proofs.Expansion.Denominator
import Oscillator.Proofs.Expansion.Frequency
import Oscillator.Proofs.Expansion.Leniency
import Oscillator.Proofs.Expansion.Linear
import Oscillator.Proofs.Expansion.Meaning
import Oscillator.Proofs.Expansion.Merging
import Oscillator.Proofs.Expansion.Negation
import Oscillator.Proofs.Expansion.Proper
import Oscillator.Proofs.Expansion.Replacement
import Oscillator.Proofs.Expansion.Steps
import Oscillator.Proofs.Expansion.Substitution
import Oscillator.Proofs.Expansion.Symbols
import Oscillator.Proofs.Expansion.Terms
import Oscillator.Proofs.Expansion.Tower
import Oscillator.Proofs.Expansion.Value
import Oscillator.Proofs.Expansion.Words
import Oscillator.Proofs.Motion.Agreement
import Oscillator.Proofs.Motion.Bounded
import Oscillator.Proofs.Motion.Constants
import Oscillator.Proofs.Motion.Equation
import Oscillator.Proofs.Motion.Reported
import Oscillator.Proofs.Motion.Roots
import Oscillator.Proofs.Motion.Scaling
import Oscillator.Proofs.Motion.Spring
import Oscillator.Proofs.Motion.Start
import Oscillator.Proofs.Outcome
import Oscillator.Proofs.Parameters
import Oscillator.Proofs.Parsing.Blanks
import Oscillator.Proofs.Parsing.Conservation
import Oscillator.Proofs.Parsing.Constants
import Oscillator.Proofs.Parsing.Descent
import Oscillator.Proofs.Parsing.Endings
import Oscillator.Proofs.Parsing.Kinds
import Oscillator.Proofs.Parsing.LeadingMinus
import Oscillator.Proofs.Parsing.Pieces
import Oscillator.Proofs.Parsing.Placeholders
import Oscillator.Proofs.Parsing.Plain
import Oscillator.Proofs.Parsing.Printing
import Oscillator.Proofs.Parsing.Roundtrip
import Oscillator.Proofs.Parsing.Rules
import Oscillator.Proofs.Parsing.Scanning
import Oscillator.Proofs.Parsing.Termination
import Oscillator.Proofs.Playback.Cadence
import Oscillator.Proofs.Playback.Reached
import Oscillator.Proofs.Playback.Run
import Oscillator.Proofs.Playback.Time
import Oscillator.Proofs.Playback.Window
import Oscillator.Proofs.Prepared
import Oscillator.Proofs.Reading.ExponentNotation
import Oscillator.Proofs.Reading.Gathering
import Oscillator.Proofs.Reading.LikeTerms
import Oscillator.Proofs.Reading.Literal
import Oscillator.Proofs.Reading.NumberField
import Oscillator.Proofs.Reading.Opposite
import Oscillator.Proofs.Reading.Placeholder
import Oscillator.Proofs.Reading.Template
import Oscillator.Proofs.Reading.Unreported
import Oscillator.Proofs.Reading.Waveless
import Oscillator.Proofs.Sampling.Covering
import Oscillator.Proofs.Sampling.Differences
import Oscillator.Proofs.Sampling.Growth
import Oscillator.Proofs.Sampling.Reading
import Oscillator.Proofs.Sampling.Window
import Oscillator.Record.Reader
import Oscillator.Record.Response
import Oscillator.Record.Settings
