import KcpGo.Core.LTS
import KcpGo.Core.Serial
import KcpGo.Core.BinHeap
import KcpGo.Core.Bytes
import KcpGo.Core.GoRun
import KcpGo.Core.GoState
import KcpGo.Core.Ledger
import KcpGo.Core.GoLoop
import KcpGo.Core.HeadQueue
import KcpGo.Core.SliceQueue
import KcpGo.Core.Claim
import KcpGo.Core.Link
import KcpGo.Core.Slice
import KcpGo.Core.Epoch
import KcpGo.Core.Erasure
import KcpGo.Core.Feedback
import KcpGo.Core.Cells
import KcpGo.Core.InOrder
import KcpGo.Core.Ring
import KcpGo.Core.Table
import KcpGo.Core.Estimator
import KcpGo.Core.Histories
import KcpGo.L1Encoding.Segment
import KcpGo.L1Encoding.FecPacket
import KcpGo.L1Encoding.Crypt
import KcpGo.L1Encoding.CryptMem
import KcpGo.L2Machine.SegHeap
import KcpGo.L2Machine.State
import KcpGo.L2Machine.Recv
import KcpGo.L2Machine.Ack
import KcpGo.L2Machine.Flush
import KcpGo.L2Machine.Input
import KcpGo.L2Machine.FlushSpec
import KcpGo.L2Machine.FlushOrder
import KcpGo.L2Machine.InputSpec
import KcpGo.L2Machine.StepSpec
import KcpGo.L2Machine.Timers
import KcpGo.L2Machine.TimedHeap
import KcpGo.L2Machine.Resend
import KcpGo.L2Machine.Room
import KcpGo.L2Machine.Queues
import KcpGo.L2Machine.QueueSlices
import KcpGo.L2Machine.RingBuffer
import KcpGo.L2Machine.RingBufferSpec
import KcpGo.L2Machine.AutoTune
import KcpGo.L2Machine.FecEncoder
import KcpGo.L2Machine.FecDecoder
import KcpGo.L2Machine.FecDecoderSpec
import KcpGo.L2Machine.FecRecover
import KcpGo.L2Machine.FecEncoderSpec
import KcpGo.L2Machine.FecTune
import KcpGo.L2Machine.FecSizes
import KcpGo.L2Machine.Buffers
import KcpGo.L2Machine.BuffersSpec
import KcpGo.L2Machine.BuffersInput
import KcpGo.L2Machine.FecBuffers
import KcpGo.L2Machine.FecBuffersSpec
import KcpGo.L3Protocol.SendWindow
import KcpGo.L3Protocol.Rto
import KcpGo.L3Protocol.Recovery
import KcpGo.L3Protocol.Retransmissions
import KcpGo.L3Protocol.Receiver
import KcpGo.L3Protocol.Shift
import KcpGo.L3Protocol.ShiftRun
import KcpGo.L3Protocol.System
import KcpGo.L3Protocol.TxRefine
import KcpGo.L3Protocol.RxRefine
import KcpGo.L3Protocol.Endpoint
import KcpGo.L3Protocol.Refine
import KcpGo.L3Protocol.AckSound
import KcpGo.L3Protocol.FlowControl
import KcpGo.L3Protocol.Framing
import KcpGo.L3Protocol.Delivery
import KcpGo.L3Protocol.Deadlock
import KcpGo.L3Protocol.FecMemory
import KcpGo.L3Protocol.FecLink
import KcpGo.L3Protocol.FecIds
import KcpGo.L3Protocol.FecChannel
import KcpGo.L3Protocol.FecDelivery
import KcpGo.L3Protocol.FecWrap
import KcpGo.L3Protocol.FecRetention
import KcpGo.L3Protocol.FecTuning
import KcpGo.L3Protocol.Packets
import KcpGo.L3Protocol.Progress
import KcpGo.L3Protocol.Limits
import KcpGo.L3Protocol.NextUpdate
import KcpGo.L3Protocol.Announcing
import KcpGo.L3Protocol.Sending
import KcpGo.L3Protocol.FullQueue
import KcpGo.L3Protocol.Packetising
import KcpGo.L3Protocol.Reassembly
import KcpGo.L3Protocol.Receiving
import KcpGo.L4Session.Session
import KcpGo.L4Session.SessionSpec
import KcpGo.L4Session.SessionFrame
import KcpGo.L4Session.Listener
import KcpGo.L4Session.ListenerSpec
import KcpGo.L4Session.Totality
import KcpGo.L4Session.Eviction
import KcpGo.L4Session.RoundTrip
import KcpGo.L4Session.Operations
import KcpGo.L4Session.ByteStream
import KcpGo.L4Session.HeadOfLine
import KcpGo.L4Session.ReadLoop
import KcpGo.L4Session.PoolOwners
import KcpGo.L5Concurrency.PostProcess
import KcpGo.L5Concurrency.Steps
import KcpGo.L5Concurrency.Scheduling
import KcpGo.L5Concurrency.Ownership
import KcpGo.L5Concurrency.Isolation
import KcpGo.L5Concurrency.Shutdown
import KcpGo.L5Concurrency.Listening
import KcpGo.L5Concurrency.SessionTable
import KcpGo.L5Concurrency.TimedSched
import KcpGo.L5Concurrency.Waiting
