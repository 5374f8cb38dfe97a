import Communicator.Lib.Lts
import Communicator.Lib.Stuffing
import Communicator.Lib.Scan
import Communicator.Lib.Chain
import Communicator.Lib.Updates
import Communicator.Lib.Quoted
import Communicator.Lib.ShiftRegister
import Communicator.Lib.Simulation
import Communicator.Lib.Tagged
import Communicator.Lib.WireFormat
import Communicator.Lib.Calendar
import Communicator.Memory
import Communicator.Crc
import Communicator.TransportMessages
import Communicator.Message
import Communicator.Outcome
import Communicator.InfoPackage
import Communicator.Backend
import Communicator.Protocol
import Communicator.Receive
import Communicator.Client
import Communicator.Worker
import Communicator.Device
import Communicator.Server
import Communicator.Counters
import Communicator.Oracle
import Communicator.Network
import Communicator.Protobuf
import Communicator.RecReg
import Communicator.Database
import Communicator.System
import Communicator.Threads
import Communicator.Proofs.Storage
import Communicator.Proofs.Delivery
import Communicator.Proofs.Framing
import Communicator.Proofs.Reception
import Communicator.Proofs.Frames
import Communicator.Proofs.FrameBounds
import Communicator.Proofs.AllOrNothing
import Communicator.Proofs.Kinds
import Communicator.Proofs.Identities
import Communicator.Proofs.Unidentified
import Communicator.Proofs.Deletions
import Communicator.Proofs.Positions
import Communicator.Proofs.Download
import Communicator.Proofs.LastNumber
import Communicator.Proofs.Batches
import Communicator.Proofs.Stopping
import Communicator.Proofs.Saves
import Communicator.Proofs.Crash
import Communicator.Proofs.StoredText
import Communicator.Proofs.Checksum
import Communicator.Proofs.Bursts
import Communicator.Proofs.Transparency
import Communicator.Proofs.Lifetimes
import Communicator.Proofs.Interference
import Communicator.Proofs.Grammar
import Communicator.Proofs.Numbering
import Communicator.Proofs.Undecodable
import Communicator.Proofs.Redelivery
import Communicator.Proofs.Noise
import Communicator.Proofs.Leftover
import Communicator.Proofs.Exchange
import Communicator.Proofs.Transit
import Communicator.Proofs.Acknowledgement
import Communicator.Proofs.Resume
import Communicator.Proofs.Fields
import Communicator.Proofs.Layouts
import Communicator.Proofs.RoundTrip
import Communicator.Proofs.Runtime
import Communicator.Proofs.Records
import Communicator.Proofs.Transactions
import Communicator.Proofs.FrameSteps
import Communicator.Proofs.Turns
import Communicator.Proofs.Reads
import Communicator.Proofs.Interleaving
import Communicator.Proofs.Streams
import Communicator.Proofs.Refinement
import Communicator.Proofs.EndToEnd
import Communicator.Proofs.Arrival
import Communicator.Proofs.Progress
import Communicator.Proofs.Times
import Communicator.Proofs.Rows
