import Script.Main
import Script.Proofs.Soundness
import Script.Proofs.Completeness
import Script.Proofs.Spelling
import Script.Proofs.Printing
import Script.Proofs.RoundTrip
import Script.Proofs.Scopes
import Script.Proofs.Results
import Script.Proofs.Coupling
import Script.Proofs.Discarding
import Script.Proofs.Numerals
import Script.Proofs.Proper
import Script.Proofs.Progress
import Script.Proofs.JsonText
import Script.Proofs.JsonTrees
import Script.Proofs.Files
import Script.Proofs.SavedTrees
import Script.Proofs.Acceptance
import Script.Proofs.Segmentation
import Script.Proofs.Layout
import Script.Proofs.Constancy
import Script.Proofs.Concatenation
import Script.Proofs.Course
import Script.Proofs.Moments
import Script.Proofs.Discipline
import Script.Proofs.Closures
import Script.Proofs.Recasting
import Script.Proofs.Diagnostics
import Script.Proofs.Renaming
import Script.Proofs.Names
import Script.Proofs.Rounding
import Script.Proofs.NumberTexts
import Script.Proofs.Lexical
import Script.Proofs.Canonical
import Script.Proofs.Frames
import Script.Proofs.Nearest
import Script.Proofs.Shortest
import Script.Proofs.NumberShapes
import Script.Proofs.Advancing
import Script.Proofs.Determinacy
import Script.Proofs.Depths
import Script.Proofs.Likeness
import Script.Proofs.Ties
import Script.Proofs.Simulation
import Script.Proofs.Sights
import Script.Proofs.ForLoops
import Script.Proofs.Returns
import Script.Proofs.Cuts
import Script.Proofs.CodePoints
import Script.Proofs.OperatorTable
import Script.Proofs.NearestEven
import Script.Proofs.Slices
import Script.Proofs.Prefixes
import Script.Proofs.Coercions
import Script.Proofs.Loading
import Script.Proofs.WholeNumbers
import Script.Proofs.Ensuring
import Script.Proofs.SourceTexts
import Script.Proofs.CountingLoops
import Script.Proofs.Counters
import Script.Proofs.Containers
import Script.Proofs.Turns
import Script.Proofs.Truth
