import Protofish4.Link.Exact
import Protofish4.Tokio.Fleet
import Protofish4.Tokio.Playback
import Protofish4.Tokio.Backpressure
import Protofish4.Xfer.Recall
import Protofish4.Tokio.Lifetime
import Protofish4.Link.Sizing
import Protofish4.Xfer.Nacks
import Protofish4.Xfer.Playback
import Protofish4.Xfer.Stall
import Protofish4.Link.Retain
import Protofish4.Link.Window
import Protofish4.Link.Brake
import Protofish4.Replay
import Protofish4.Tokio.ControlReplay
import Protofish4.Tokio.Nonces
import Protofish4.Xfer.Commit
import Protofish4.Xfer.Memory
import Protofish4.Wire
import Protofish4.Tokio.Forgery
import Protofish4.Tokio.Waiting
import Protofish4.Tokio.Attention
import Protofish4.Tokio.SlowConsumer
import Protofish4.Xfer.Silence
import Protofish4.Xfer.Budget
import Protofish4.Xfer.Completeness
import Protofish4.Tokio.Occupancy
import Protofish4.Tokio.Supply
import Protofish4.Tokio.Slots
import Protofish4.Link.Finalize
import Protofish4.Link.Recovery
import Protofish4.Link.Traffic
import Protofish4.Link.Modes
import Protofish4.Xfer.Arrivals
import Protofish4.Xfer.Representation
import Protofish4.Xfer.Acks
import Protofish4.Xfer.Numbers
import Protofish4.Xfer.Keepalive
