import AlgaeBp.Evb2.Theorems
import AlgaeBp.Evb2.Punctual
import AlgaeBp.Ev.Theorems
import AlgaeBp.Ev.Interest
import AlgaeBp.Ev.Deadlines
import AlgaeBp.Ev.Wait
import AlgaeBp.Ipc.Theorems
import AlgaeBp.Att.Theorems
import AlgaeBp.Ble.Theorems
import AlgaeBp.Settings.Partial
import AlgaeBp.Flash.Theorems
import AlgaeBp.Wifi.Provision
import AlgaeBp.Wifi.Failsafe
import AlgaeBp.Wifi.Spared
import AlgaeBp.Wifi.Agree
import AlgaeBp.Wifi2.Links
import AlgaeBp.Wifi2.Timer
import AlgaeBp.Wifi2.Connect
import AlgaeBp.Sem.Theorems
import AlgaeBp.Cli.Lines
import AlgaeBp.Bayer.SimdV2
import AlgaeBp.Rg10.Theorems
import AlgaeBp.Streamcap.Theorems
import AlgaeBp.Bluez1.Theorems
import AlgaeBp.Att.Values
import AlgaeBp.Ipc.Overlong
import AlgaeBp.Rg10.Half
import AlgaeBp.Bayer.Bounds
import AlgaeBp.Bmp.Format
import AlgaeBp.Bmp.Save
import AlgaeBp.Bmp.Draw
import AlgaeBp.Rtsp.Split
import AlgaeBp.Rtsp.Code
import AlgaeBp.Rtsp.Invariant
import AlgaeBp.Rtsp.Theorems
import AlgaeBp.Hid.Code
import AlgaeBp.Hid.Theorems
import AlgaeBp.Buf.Code
import AlgaeBp.Epd.Spi
import AlgaeBp.Avg.Code
import AlgaeBp.Buf.Theorems
import AlgaeBp.Lib.Newest
import AlgaeBp.Avg.Theorems
import AlgaeBp.Lib.Strings
import AlgaeBp.Udev.Uevent
import AlgaeBp.Lib.Ints
import AlgaeBp.Util.Hexstr
import AlgaeBp.Util.Bio
import AlgaeBp.Util.IpStr
import AlgaeBp.Util.Fourcc
import AlgaeBp.Sys.Mem
import AlgaeBp.Sys.Name
import AlgaeBp.Cli.Commands
import AlgaeBp.Rbtree.Theorems
import AlgaeBp.Tailq.Theorems
import AlgaeBp.Ipc.Delivery
import AlgaeBp.Btrf.Theorems
import AlgaeBp.Mgmt.Theorems
import AlgaeBp.Wifi2.Children
import AlgaeBp.Bluez1.Handoff
import AlgaeBp.Bluez1.Progress
import AlgaeBp.Flash.Wire
import AlgaeBp.Evb2.Create
