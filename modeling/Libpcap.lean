import Libpcap.Bpf.Validate
import Libpcap.Drv.Access
import Libpcap.Drv.Contig
import Libpcap.Filters.Encapsulation
import Libpcap.Filters.Protochain
import Libpcap.Filters.WlanPayload
import Libpcap.Gencode.ByteString
import Libpcap.Gencode.Byteop
import Libpcap.Gencode.Guarded
import Libpcap.Gencode.Newchunk
import Libpcap.Inet
import Libpcap.Linux.Count
import Libpcap.Linux.FixProgram
import Libpcap.Linux.Setfilter
import Libpcap.Linux.UsbRead
import Libpcap.Nac.Delivery
import Libpcap.Nac.Flash
import Libpcap.Nac.Layout
import Libpcap.Nac.Lifecycle
import Libpcap.Nac.NextRecord
import Libpcap.Nac.TransmitWait
import Libpcap.Optimize.DeadStores
import Libpcap.Optimize.HashTable
import Libpcap.Optimize.Intern
import Libpcap.Optimize.Verdict
import Libpcap.Savefile.NgSafety
import Libpcap.Savefile.NgTime
import Libpcap.Savefile.OfflineRead
