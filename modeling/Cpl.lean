import Cpl.Command.Folder
import Cpl.Main
import Cpl.Proofs.Growth
import Cpl.Proofs.Meaning
import Cpl.Proofs.Names
import Cpl.Proofs.Simulation.Placement
import Cpl.Proofs.Simulation.Expression
import Cpl.Proofs.Simulation.Statement
import Cpl.Proofs.Resolution
import Cpl.Proofs.Declared
import Cpl.Proofs.Allocation
import Cpl.Proofs.Flow
import Cpl.Proofs.Preservation
import Cpl.Proofs.Supply
import Cpl.Proofs.Typed
import Cpl.Proofs.Jumps
import Cpl.Proofs.StaticRules
import Cpl.Proofs.Acceptance
import Cpl.Proofs.Grammar.Passing
import Cpl.Proofs.Grammar.Soundness
import Cpl.Proofs.Grammar.Completeness
import Cpl.Proofs.Grammar.Locality
import Cpl.Proofs.Grammar.Misfit
import Cpl.Proofs.Grammar.Derivation
import Cpl.Proofs.Places
import Cpl.Proofs.TwoRuns.Renaming
import Cpl.Proofs.TwoRuns.Relevance
import Cpl.Proofs.TwoRuns.IdleCasts
import Cpl.Proofs.Blame
import Cpl.Proofs.Printed
import Cpl.Proofs.Obstacle
import Cpl.Proofs.OpenComment
import Cpl.Proofs.Tiling
import Cpl.Proofs.Nesting
import Cpl.Proofs.Crossing
import Cpl.Proofs.Delivery
import Cpl.Proofs.Writes
import Cpl.Proofs.Switch
import Cpl.Proofs.LineNumbers
import Cpl.Proofs.Lines
import Cpl.Proofs.Caret
import Cpl.Proofs.Grammar.Procedures
import Cpl.Proofs.Grammar.Progress
