import PL0.Main
import PL0.Proofs.Jumps.Targets
import PL0.Proofs.Semantics.Simulation
import PL0.Proofs.Generator.Reachability
import PL0.Proofs.Generator.Nesting
import PL0.Proofs.Regions
import PL0.Proofs.Sites
import PL0.Proofs.Stack.Depth
import PL0.Proofs.Confinement
import PL0.Proofs.Stack.Discipline
import PL0.Proofs.Generator.Lockstep
import PL0.Proofs.Modularity
import PL0.Proofs.Generator.Reading
import PL0.Proofs.Locality
import PL0.Proofs.EarliestError
import PL0.Proofs.Threshold
import PL0.Proofs.Lexing.Grammar
import PL0.Proofs.Lexing.Recognition
import PL0.Proofs.LexemeList.Encoding
import PL0.Proofs.FrontEnds
import PL0.Proofs.Generator.Frame
import PL0.Proofs.Renaming
import PL0.Proofs.LexemeList.RoundTrip
import PL0.Proofs.Addresses
import PL0.Proofs.ControlFlow
import PL0.Proofs.Files
import PL0.Proofs.Runs
import PL0.Proofs.Visibility
import PL0.Proofs.BufferRuns
import PL0.Proofs.Semantics.Calculation
import PL0.Proofs.Exactness
import PL0.Proofs.Lexing.Progress
import PL0.Proofs.LexemeList.Composition
import PL0.Proofs.Rendering.Programs
import PL0.Proofs.Log.Replay
import PL0.Proofs.Log.Messages
import PL0.Proofs.Generator.Safety
