import Xv6.Memmove
import Xv6.Log.Recovery
import Xv6.Log.Space
import Xv6.Bio.Coherence
import Xv6.Vm.Mappages
import Xv6.Vm.ForkUndone
import Xv6.Proc.Sleep
import Xv6.Proc.Kill
import Xv6.User.Ps
import Xv6.User.ShTerminate
import Xv6.User.Grep
import Xv6.Fs.Balloc
import Xv6.Fs.DirMap
import Xv6.Fs.PathSplit
import Xv6.Fs.LinkCount
import Xv6.Fs.SysPipe
import Xv6.Fs.Torn
import Xv6.Sync.PipeRead
import Xv6.Sync.Kill
import Xv6.Sync.Exit
import Xv6.Proc.Unique
import Xv6.Sched.Exclusive
import Xv6.Itable.PipePage
import Xv6.Itable.Freeing
import Xv6.Console.Editor
import Xv6.Virtio.Requests
import Xv6.Fs.Stat
import Xv6.Exec.Failure
