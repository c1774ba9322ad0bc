import BlockIpc.SemScanEquivalence
import BlockIpc.SemFifo
import BlockIpc.SemUndoLedger
import BlockIpc.SemWakeProtocol
import BlockIpc.IpcIdHistory
import BlockIpc.ShmLifetime
import BlockIpc.SemAccounts
import BlockIpc.ShmPages
import BlockIpc.MqueueQuota
import BlockIpc.MqueueTables
import BlockIpc.MsgWaiters
import BlockIpc.MsgAccounting
import BlockIpc.MqueueDelivery
import BlockIpc.MqueueNotify
import BlockIpc.ElevatorMerge
import BlockIpc.RequestSleep
import BlockIpc.ElevatorSwitch
import BlockIpc.BlkioGroups
import BlockIpc.CfqInFlight
import BlockIpc.TimeoutTimer
import BlockIpc.CompletionRace
import BlockIpc.MixedFailfast
import BlockIpc.DeadlineScheduler
import BlockIpc.CfqMergeOwnership
import BlockIpc.BlkioRules
import BlockIpc.SemFirstFailure
import BlockIpc.ExtendedDevices
import BlockIpc.PartitionRanges
import BlockIpc.StackedLimits
import BlockIpc.TagResize
import BlockIpc.PartialCompletion
import BlockIpc.MsgSelection
import BlockIpc.CheckedSizes
import BlockIpc.MsgLengths
import BlockIpc.MqueueOrder
import BlockIpc.ShmDetach
import BlockIpc.IpcStorage
import BlockIpc.IpcScans
import BlockIpc.FlushLoss
import BlockIpc.DispatchSort
import BlockIpc.SizeLimits
import BlockIpc.DrainSegments
import BlockIpc.UserVectors
import BlockIpc.RefusedMerges
import BlockIpc.PlugFlush
