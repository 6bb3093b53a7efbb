import Tlpi.Loop
import Tlpi.Descriptor
import Tlpi.ReadLine
import Tlpi.Ybio
import Tlpi.ReadLineBuf
import Tlpi.Strtol
import Tlpi.TryGetNum
import Tlpi.SeqNum
import Tlpi.BinarySems
import Tlpi.SvshmXfr
import Tlpi.CreatePidFile
import Tlpi.LittleEndian
import Tlpi.MqNotifySig
import Tlpi.SelectMq
import Tlpi.SvsemGoodInit
import Tlpi.Inotify
import Tlpi.DtreeCache
import Tlpi.InotifyDtree
import Tlpi.DtreeQueue
import Tlpi.DtreeTree
import Tlpi.DtreeOperations
import Tlpi.DtreeWalk
import Tlpi.DtreeEvents
import Tlpi.GetNum
import Tlpi.LineTerminator
import Tlpi.ProdCondvar
import Tlpi.ThreadMultijoin
import Tlpi.Forest
import Tlpi.NamespacesOf
import Tlpi.DtreeWorld
import Tlpi.DtreeSlots
import Tlpi.InotifyWire
import Tlpi.DtreeFraming
import Tlpi.DtreeRefines
import Tlpi.Bpf
import Tlpi.SeccompFilters
import Tlpi.FilterDump
import Tlpi.DtreeScans
import Tlpi.WrapText
import Tlpi.DtreeNames
import Tlpi.Mountinfo
import Tlpi.TargetPathname
import Tlpi.Transfer
import Tlpi.CString
import Tlpi.Rdwrn
import Tlpi.Sendfile
import Tlpi.UnixAddress
import Tlpi.SocketHelpers
import Tlpi.Cmsg
import Tlpi.ScmMulti
import Tlpi.Execlp
import Tlpi.Setenv
import Tlpi.NameTsd
import Tlpi.Decimal
import Tlpi.UgidFunctions
import Tlpi.AclText
import Tlpi.AclEntries
import Tlpi.Batch
import Tlpi.AclUpdate
import Tlpi.FdTable
import Tlpi.NsCapable
import Tlpi.ItimerspecFromStr
import Tlpi.Filling
import Tlpi.ViewV2Cgroups
import Tlpi.SvsemOp
import Tlpi.Chiflag
import Tlpi.Getopt
import Tlpi.RepeatableOptions
import Tlpi.RepeatableActions
import Tlpi.UsernsChildExec
import Tlpi.FifoSeqnum
import Tlpi.FifoSeqnumProgress
import Tlpi.SvmsgFile
import Tlpi.Signals
import Tlpi.SystemFunction
import Tlpi.MultiSigchld
import Tlpi.SelfPipe
import Tlpi.Locks
import Tlpi.ThreadIncr
import Tlpi.UnotifySupervisor
import Tlpi.PidNamespaces
import Tlpi.MqNotify
import Tlpi.HandlingSigtstp
import Tlpi.PipeSync
import Tlpi.OneTimeInit
import Tlpi.UsernsMaps
import Tlpi.TestTtyFunctions
