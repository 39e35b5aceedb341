import Lockstep.Bytes.Tape
import Lockstep.Proofs.Barrier.Agreement
import Lockstep.Session
import Lockstep.Proofs.Session.Delivery
import Lockstep.Settings
import Lockstep.Frame.Stream
import Lockstep.Frame.Buffered
import Lockstep.Proofs.Frame.Pieces
import Lockstep.Proofs.Frame.Buffered
import Lockstep.Proofs.Frame.Chunks
import Lockstep.Barrier.Act
import Lockstep.Proofs.Barrier.Runs
import Lockstep.Proofs.Barrier.Record
import Lockstep.Proofs.Barrier.Safety
import Lockstep.Proofs.Queue.Integrity
import Lockstep.Proofs.Queue.Snapshot
import Lockstep.Proofs.Queue.Truncation
import Lockstep.Proofs.Barrier.Timing
import Lockstep.Proofs.Registry.Growth
import Lockstep.Proofs.Registry.Rollback
import Lockstep.Proofs.Queue.Transport
import Lockstep.Proofs.Bytes.Cursors
import Lockstep.Proofs.Bytes.Fifo
import Lockstep.Proofs.Registry.Namespaces
import Lockstep.Proofs.Registry.Retrieval
import Lockstep.Proofs.Queue.Order
import Lockstep.Proofs.Queue.Standing
import Lockstep.Proofs.Registry.Separators
import Lockstep.Proofs.Registry.Reapply
import Lockstep.Proofs.Registry.Wrapping
import Lockstep.Proofs.Queue.Collision
import Lockstep.Proofs.Registry.Inference
import Lockstep.Markup.Bytewise
import Lockstep.Proofs.Markup.Places
import Lockstep.Proofs.Markup.Bytewise
import Lockstep.Proofs.Markup.Descent
import Lockstep.Proofs.Markup.Spans
import Lockstep.Proofs.Queue.Bytewise
import Lockstep.Proofs.Markup.Locality
import Lockstep.Proofs.Registry.Assigning
import Lockstep.Proofs.Value.Container
import Lockstep.Proofs.Markup.Escaping
