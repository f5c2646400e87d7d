import TapeMachine.Trace
import TapeMachine.Program.Listing
import TapeMachine.Program.Census
import TapeMachine.Directory
import TapeMachine.Main
import TapeMachine.Proofs.Interpreter
import TapeMachine.Proofs.Lockstep
import TapeMachine.Proofs.Nesting
import TapeMachine.Proofs.Matching
import TapeMachine.Proofs.Movement
import TapeMachine.Proofs.Tracking
import TapeMachine.Proofs.Cacheless
import TapeMachine.Proofs.TopLevel
import TapeMachine.Proofs.Concatenation
import TapeMachine.Proofs.Sequence
import TapeMachine.Proofs.Padding
import TapeMachine.Proofs.Growing
import TapeMachine.Proofs.Recording
import TapeMachine.Proofs.Relocation
import TapeMachine.Proofs.Cleaning
import TapeMachine.Proofs.Action
import TapeMachine.Proofs.Tracing
import TapeMachine.Proofs.Replay
import TapeMachine.Proofs.Consumption
import TapeMachine.Proofs.Unread
import TapeMachine.Proofs.EndOfInput
import TapeMachine.Proofs.Faults
import TapeMachine.Proofs.Truncation
import TapeMachine.Proofs.Circular
import TapeMachine.Proofs.Policies
import TapeMachine.Proofs.Addressing
import TapeMachine.Proofs.Safety
import TapeMachine.Proofs.Accounting
import TapeMachine.Proofs.TapeHistory
import TapeMachine.Proofs.Guards
import TapeMachine.Proofs.Repetition
import TapeMachine.Proofs.Lookups
import TapeMachine.Proofs.Retry
import TapeMachine.Proofs.Command
import TapeMachine.Proofs.BracketWords
import TapeMachine.Proofs.Doubling
import TapeMachine.Proofs.Search
import TapeMachine.Proofs.Queries
import TapeMachine.Proofs.Depth
import TapeMachine.Proofs.Passage
import TapeMachine.Proofs.Transfer
import TapeMachine.Proofs.Copying
import TapeMachine.Proofs.Listing
import TapeMachine.Proofs.Statistics
import TapeMachine.Proofs.Directory
import TapeMachine.Proofs.Histogram
