import Z4.Foundations.Runs
import Z4.Foundations.BigEndian
import Z4.Foundations.KeyValue
import Z4.Foundations.Numerals
import Z4.Go.Time
import Z4.Iden.TaskID
import Z4.Proto.Model
import Z4.Storage.Keys
import Z4.Storage.TaskStore
import Z4.Cluster.StateMachine
import Z4.Feeds.WriteBack
import Z4.Api.CreateTask
import Z4.Cluster.AckedLog
import Z4.Cluster.Failover
import Z4.Cluster.FollowerCounter
import Z4.Cluster.Recovery
import Z4.Cluster.Refinement
import Z4.Feeds.Windows
import Z4.Cluster.Agreement
import Z4.Cluster.Snapshot
import Z4.Feeds.Checkpoint
import Z4.Feeds.Deadline
import Z4.Feeds.Delivery
import Z4.Feeds.Manager
import Z4.Storage.Counting
import Z4.Storage.IndexStore
import Z4.Client.StreamingProducer
import Z4.Cluster.Settings
import Z4.Feeds.Closing
import Z4.Feeds.Resume
import Z4.Storage.Scan
import Z4.Client.ConnectionPool
import Z4.Client.UnaryProducer
import Z4.Cluster.WriteResults
import Z4.Client.Consumer
import Z4.Foundations.Lexicographic
import Z4.Sqli.Bounds
import Z4.Sqli.TaskTable
import Z4.Cluster.CatchUp
import Z4.Foundations.Draining
import Z4.Feeds.Locking
import Z4.Feeds.Schedule
import Z4.Storage.Gaps
import Z4.Api.ClusterInfo
import Z4.Api.Forwarding
import Z4.Api.GetTask
import Z4.Feeds.Broker
import Z4.Feeds.AtLeastOnce
import Z4.Feeds.Reopening
import Z4.Client.SharedPool
import Z4.Client.OncePerCall
