import UtahMach.Bootstrap.FileDirect
import UtahMach.DefaultPager.Destroy
import UtahMach.DefaultPager.Growth
import UtahMach.DefaultPager.Pages
import UtahMach.DefaultPager.Serve
import UtahMach.Device.Bpf
import UtahMach.Ipc.Entry.Counters
import UtahMach.Ipc.Hash.Run
import UtahMach.Ipc.Kmsg.Copyout
import UtahMach.Ipc.Mqueue.Run
import UtahMach.Ipc.Port.Transit
import UtahMach.Kern.Adjust
import UtahMach.Kern.Suspend
import UtahMach.Kern.Timeout.Run
import UtahMach.Kern.Timeout.Wait
import UtahMach.Kern.Zalloc.Run
import UtahMach.Lites.Pageout
import UtahMach.Lmm.Search
import UtahMach.Vm.Map.Verify
import UtahMach.Vm.Object.Guard
import UtahMach.Vm.Object.Snapshot
import UtahMach.Vm.Object.Supply
import UtahMach.Vm.Resident.Grab
