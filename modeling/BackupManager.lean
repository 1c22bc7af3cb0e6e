import BackupManager.ByteStream.Decimal
import BackupManager.ByteStream.Istream
import BackupManager.ByteStream.Program
import BackupManager.ByteStream.Field
import BackupManager.ByteStream.Ends
import BackupManager.ByteStream.Extension
import BackupManager.Table.History
import BackupManager.Table.SortedMap
import BackupManager.Table.KeyedFold
import BackupManager.Protocol.Codes
import BackupManager.Server.Database
import BackupManager.Server.History
import BackupManager.ByteStream.Utf8
import BackupManager.Server.Columns
import BackupManager.Server.RowDecoding
import BackupManager.Server.View
import BackupManager.Server.ClientHandler
import BackupManager.Client.Action
import BackupManager.Client.SendAction
import BackupManager.Protocol.RequestFrame
import BackupManager.Protocol.RequestStream
import BackupManager.Client.ActionRestore
import BackupManager.Protocol.RestoreStream
import BackupManager.Protocol.RestoreOutcome
import BackupManager.Protocol.QueryFailure
import BackupManager.Client.FileWatcher
import BackupManager.Protocol.WatchedFolder
import BackupManager.Transition.Run
import BackupManager.Client.WatcherSteps
import BackupManager.Protocol.NoLostUpdate
import BackupManager.Protocol.Connection
import BackupManager.Protocol.Transaction
import BackupManager.Protocol.RequestChannel
import BackupManager.Protocol.ReplyChannel
import BackupManager.Protocol.DialogueIntegrity
import BackupManager.FileTree.Tree
import BackupManager.Client.HostFiles
import BackupManager.Client.AllOrNothing
import BackupManager.Client.TargetTree
import BackupManager.Client.StagedEntries
import BackupManager.Client.ExactRestore
import BackupManager.Protocol.RequestDiscipline
import BackupManager.Protocol.StoredMetadata
import BackupManager.Server.Registration
import BackupManager.Server.Isolation
import BackupManager.Client.PendingList
import BackupManager.Protocol.Reconnect
import BackupManager.Client.Emission
import BackupManager.Client.ParentOrder
import BackupManager.Protocol.Snapshots
import BackupManager.ByteStream.Number
import BackupManager.ByteStream.Lapse
import BackupManager.Protocol.CompleteRequest
import BackupManager.Protocol.SpoiledRound
import BackupManager.Protocol.Round
import BackupManager.Protocol.MalformedInput
import BackupManager.Client.Buffer
import BackupManager.Client.Threads
import BackupManager.Client.Wedge
import BackupManager.Client.NeverWedged
import BackupManager.Server.ConcurrentUpserts
import BackupManager.Client.PathTranslation
import BackupManager.Protocol.InitialStatus
import BackupManager.Client.ExactDifference
import BackupManager.Server.AcceptPool
import BackupManager.Protocol.Login
import BackupManager.Protocol.LoginSteps
import BackupManager.Protocol.LoginExact
import BackupManager.Client.PausedWatcher
import BackupManager.Client.Replay
import BackupManager.Client.Volume
import BackupManager.Protocol.RestoreOrder
import BackupManager.Protocol.RestoredMetadata
import BackupManager.FileTree.Links
import BackupManager.Client.ChangingFolder
import BackupManager.Client.SurvivingWatcher
import BackupManager.Client.BufferQueue
import BackupManager.Client.Main
import BackupManager.ByteStream.Ifstream
import BackupManager.Client.ChangingFile
import BackupManager.Protocol.AnnouncedSize
import BackupManager.Digest.Streaming
import BackupManager.Protocol.ContentHash
import BackupManager.Client.Monitors
import BackupManager.Client.Acknowledged
import BackupManager.Client.CleanExit
import BackupManager.Client.WholeRestore
import BackupManager.Protocol.PointInTime
import BackupManager.ByteStream.Unread
import BackupManager.ByteStream.Loop
import BackupManager.ByteStream.Relational
import BackupManager.Protocol.HandlerSession
import BackupManager.Protocol.Guarded
import BackupManager.Table.Statement
import BackupManager.Server.Statements
import BackupManager.Server.CallRefinement
import BackupManager.ByteStream.IsoDate
import BackupManager.Transition.Simulation
import BackupManager.Protocol.Calendar
import BackupManager.Client.Commands
import BackupManager.Table.Locking
import BackupManager.Server.ConcurrentSignUps
