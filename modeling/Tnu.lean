import Tnu.Vfs.Namespace
import Tnu.Vfs.Limits
import Tnu.Mm.HeapKeeps
import Tnu.Mm.Frames
import Tnu.Libc.Coalescing
import Tnu.Shell.Sudo
import Tnu.Tfs.RoundTrip
import Tnu.User.Restore
import Tnu.Sys.Poll
import Tnu.Linux.Getdents
import Tnu.Linux.Paths
import Tnu.Linux.ExecStack
import Tnu.Drivers.Law
import Tnu.Tfs.Readings
import Tnu.Tfs.Packed
import Tnu.Drivers.Pairing
import Tnu.Drivers.Cursor
import Tnu.Sys.Interrupt
import Tnu.Sys.ExecImage
import Tnu.Wifi.Association
import Tnu.Sbin.Sysinstall
import Tnu.Tls.DerReads
import Tnu.Tls.Digests
import Tnu.Tls.Poly1305
import Tnu.Wifi.Cipher
import Tnu.Format.Contract
import Tnu.Applets.Copy
import Tnu.Libc.Rename
import Tnu.Shell.ReadLine
import Tnu.Shell.Script
import Tnu.Net.Dns
import Tnu.Net.Dhcp
import Tnu.Tls.ClientHello
import Tnu.Shell.Glob
import Tnu.Pkg.Repos
import Tnu.Libc.Realpath
import Tnu.Tools.Mkinstallimg
import Tnu.Sys.ExecRecord
import Tnu.Sys.Live
import Tnu.Shell.Capture
import Tnu.Wifi.ApCache
import Tnu.Wifi.Firmware
import Tnu.Wifi.Transmit
import Tnu.Drivers.Plot
import Tnu.Drivers.Dirty
import Tnu.Log
import Tnu.FastCopy
import Tnu.Drivers.Rings
import Tnu.Libc.Sorting
import Tnu.Tls.FieldBounds
import Tnu.Libc.LineInput
import Tnu.Drivers.Line
import Tnu.Drivers.Clock
import Tnu.Fs.Probes
