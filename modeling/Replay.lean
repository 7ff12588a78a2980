import Replay.Main
import Replay.Proofs.Acceptance
import Replay.Proofs.Arena.Branches
import Replay.Proofs.Arena.Chains
import Replay.Proofs.Arena.Generations
import Replay.Proofs.Balance
import Replay.Proofs.Capacity
import Replay.Proofs.Climbing
import Replay.Proofs.Comments
import Replay.Proofs.Escapes
import Replay.Proofs.Iteration
import Replay.Proofs.Jumps
import Replay.Proofs.Lexical
import Replay.Proofs.Locations
import Replay.Proofs.Output
import Replay.Proofs.Parity
import Replay.Proofs.Rendering
import Replay.Proofs.Skipping
import Replay.Proofs.Stream
import Replay.Proofs.TreeWalk
import Replay.Proofs.Extent
import Replay.Proofs.Arena.Environment
import Replay.Proofs.Pieces
import Replay.Proofs.Walk.Environment
import Replay.Proofs.Counting
import Replay.Proofs.Integers
import Replay.Proofs.Numerals
import Replay.Proofs.Spans
import Replay.Proofs.Tables
