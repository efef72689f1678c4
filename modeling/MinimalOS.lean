import MinimalOS.Tcp.Delivery
import MinimalOS.Fgpu.IrCorrect
import MinimalOS.Ktls.Delivery
import MinimalOS.Tls13.X25519Correct
import MinimalOS.Partition.Space
import MinimalOS.Partition.PowerLoss
import MinimalOS.Pkg.RoundTrip
import MinimalOS.Fat32.Tree
import MinimalOS.Vmbus.Delivery
import MinimalOS.Elf.Bounds
import MinimalOS.Audio.ImaExact
import MinimalOS.Lzss.Agree
import MinimalOS.SmpPar.Exact
import MinimalOS.Lzss.Stale
import MinimalOS.Minimafs.Requests
import MinimalOS.Minimafs.Find
import MinimalOS.Minimafs.Metadata
import MinimalOS.Heap.Sizes
import MinimalOS.Minimafs.AppendReads
import MinimalOS.Minimafs.Mount
import MinimalOS.Pmm.Runs
import MinimalOS.Gpu.Coverage
import MinimalOS.Gpu.Screen
import MinimalOS.Gpu.Vram
import MinimalOS.Net.Address
import MinimalOS.Net.Ip
import MinimalOS.Strings.Snprintf
import MinimalOS.Tcp.Send
import MinimalOS.Tls13.ServerHello
import MinimalOS.Media.Tiles
import MinimalOS.Net.Udp
import MinimalOS.Partition.Crc
import MinimalOS.Services.Lookup
