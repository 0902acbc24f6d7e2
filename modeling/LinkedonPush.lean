import LinkedonPush.Theory.Reading
import LinkedonPush.Theory.Access
import LinkedonPush.Theory.Run
import LinkedonPush.Theory.Index
import LinkedonPush.Theory.Watched
import LinkedonPush.Theory.Ledger
import LinkedonPush.Theory.Keyspace
import LinkedonPush.Theory.Residue
import LinkedonPush.Theory.Lease
import LinkedonPush.Theory.Upsert
import LinkedonPush.Theory.Lives
import LinkedonPush.Kernel.Base
import LinkedonPush.Kernel.Utils
import LinkedonPush.Kernel.Logger
import LinkedonPush.Kernel.Bson
import LinkedonPush.Kernel.Json
import LinkedonPush.Kernel.ReadBack
import LinkedonPush.Protocol.FastBuffer
import LinkedonPush.Protocol.Capacity
import LinkedonPush.Protocol.ProtocolStack
import LinkedonPush.Protocol.Framing
import LinkedonPush.Protocol.Receive
import LinkedonPush.Protocol.Grammar
import LinkedonPush.Protocol.Watch
import LinkedonPush.Protocol.Fmt
import LinkedonPush.Protocol.Codec
import LinkedonPush.Protocol.Handshake
import LinkedonPush.Protocol.Codes
import LinkedonPush.App.Message
import LinkedonPush.App.Serialisation
import LinkedonPush.App.LPushConn
import LinkedonPush.App.PushFrames
import LinkedonPush.App.Threads
import LinkedonPush.App.Bodies
import LinkedonPush.App.History
import LinkedonPush.App.Paths
import LinkedonPush.App.Dialogue
import LinkedonPush.App.Session
import LinkedonPush.App.Server
import LinkedonPush.App.Projection
import LinkedonPush.App.Enrolment
import LinkedonPush.App.Lifecycle
import LinkedonPush.App.Schedule
import LinkedonPush.App.Contract
import LinkedonPush.App.Registry
import LinkedonPush.App.Dispatch
import LinkedonPush.App.Login
import LinkedonPush.App.Authentication
import LinkedonPush.App.Acceptance
import LinkedonPush.App.Acknowledgement
import LinkedonPush.App.Containment
import LinkedonPush.App.Routing
import LinkedonPush.App.Stages
import LinkedonPush.App.Clocks
import LinkedonPush.App.Heartbeat
import LinkedonPush.App.Scores
import LinkedonPush.App.HistoryQueue
import LinkedonPush.App.Teardown
import LinkedonPush.App.Worker
import LinkedonPush.App.ThreadLife
import LinkedonPush.App.Reaping
import LinkedonPush.App.Shutdown
import LinkedonPush.App.Table
import LinkedonPush.App.Cluster
import LinkedonPush.App.Presence
import LinkedonPush.App.Residue
import LinkedonPush.App.PidFile
import LinkedonPush.App.Accounting
import LinkedonPush.App.Arrival
import LinkedonPush.App.Turns
import LinkedonPush.App.Lease
import LinkedonPush.App.Members
import LinkedonPush.App.Client
import LinkedonPush.App.Restart
import LinkedonPush.App.Latency
import LinkedonPush.App.MainLoop
import LinkedonPush.App.Signals
import LinkedonPush.App.Fleet
