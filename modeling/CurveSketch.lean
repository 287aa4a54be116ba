import CurveSketch.Journal
import CurveSketch.Main
import CurveSketch.Session
import CurveSketch.Proofs.Calculator
import CurveSketch.Proofs.Arranging
import CurveSketch.Proofs.Meaning
import CurveSketch.Proofs.Negation
import CurveSketch.Proofs.Segmentation
import CurveSketch.Proofs.Counter
import CurveSketch.Proofs.Blocks
import CurveSketch.Proofs.Nesting
import CurveSketch.Proofs.Sentinel
import CurveSketch.Proofs.Barriers
import CurveSketch.Proofs.Groups
import CurveSketch.Proofs.Loose
import CurveSketch.Proofs.Acceptance
import CurveSketch.Proofs.Substitution
import CurveSketch.Proofs.Commas
import CurveSketch.Proofs.LeadingMinus
import CurveSketch.Proofs.Conservation
import CurveSketch.Proofs.Places
import CurveSketch.Proofs.OpenCalls
import CurveSketch.Proofs.Coarsening
import CurveSketch.Proofs.Lexicon
import CurveSketch.Proofs.Sampling
import CurveSketch.Proofs.SampleLimit
import CurveSketch.Proofs.Abscissas
import CurveSketch.Proofs.Spacing
import CurveSketch.Proofs.Binary64.HalfUp
