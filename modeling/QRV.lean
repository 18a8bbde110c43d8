import QRV.Nano.PulseRun
import QRV.Nano.VectorRun
import QRV.Nano.ObjectRun
import QRV.Nano.CritRun
import QRV.Nano.SporadicRun
import QRV.Nano.XferMsgRun
import QRV.Nano.SyncHashRun
import QRV.Nano.Sem
import QRV.Nano.MutexHoldRun
import QRV.Nano.SignalPending
import QRV.Kext.ProcessSwap
import QRV.Nano.IntreventRun
import QRV.Nano.GblMsgRun
import QRV.Nano.ThreadLifeRun
import QRV.Nano.ThreadName
import QRV.Nano.Cred
import QRV.Mem.Apm
import QRV.Mem.Guard
import QRV.Iofunc.LockPosix
import QRV.Iofunc.LockWait
import QRV.Rsrcdb.RsrcRun
import QRV.Aps.FactorRun
import QRV.Path.NamedSem
import QRV.Aps.Choose
