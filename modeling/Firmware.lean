import Firmware.Lib.Bytes
import Firmware.Lib.Bits
import Firmware.Lib.Blocks
import Firmware.Lib.Chained
import Firmware.Lib.Links
import Firmware.Lib.Cstr
import Firmware.Lib.Crc
import Firmware.Lib.Run
import Firmware.Lib.Walk
import Firmware.Lib.Scan
import Firmware.Lib.Fread
import Firmware.Lib.Stdio
import Firmware.Lib.Scanf
import Firmware.Lib.Decimal
import Firmware.Lib.Words
import Firmware.Lib.Fields
import Firmware.Lib.Ones
import Firmware.Lib.Carry
import Firmware.Lib.Prefixes
import Firmware.Lib.NetOrder
import Firmware.Lib.Exits
import Firmware.Lib.Oneline
import Firmware.Lib.Yard
import Firmware.Lib.Strtod
import Firmware.Lib.Deque
import Firmware.Nvram.Table
import Firmware.Nvram.Heap
import Firmware.Nvram.Image
import Firmware.Nvram.Commit
import Firmware.Nvram.Reach
import Firmware.Nvram.RoundTrip
import Firmware.Nvram.Header
import Firmware.Nvram.Open
import Firmware.Nvram.Cli
import Firmware.Fwtool.Image
import Firmware.Fwtool.Tail
import Firmware.Fwtool.Walk
import Firmware.Fwtool.RoundTrip
import Firmware.Fwtool.Sound
import Firmware.Fwtool.Safe
import Firmware.Fwtool.Append
import Firmware.Mtd.Device
import Firmware.Mtd.Jffs2
import Firmware.Mtd.Nodes
import Firmware.Mtd.Encode
import Firmware.Mtd.Write
import Firmware.Mtd.Place
import Firmware.Mtd.Offset
import Firmware.Mtd.Scan
import Firmware.Mtd.Devices
import Firmware.Mtd.Append
import Firmware.Mtd.Jffs2write
import Firmware.Mtd.Locate
import Firmware.Mtd.Landing
import Firmware.Mtd.Fis
import Firmware.Mtd.Validate
import Firmware.Mtd.Remap
import Firmware.Mtd.Bootcount
import Firmware.Mtd.Rewrite
import Firmware.Mtd.Imagetag
import Firmware.Otrx.Trx
import Firmware.Otrx.RoundTrip
import Firmware.Mtd.Fixtrx
import Firmware.Map.Calc
import Firmware.Map.Ports
import Firmware.Map.Address
import Firmware.Map.Prefix
import Firmware.Map.Range
import Firmware.Map.Copies
import Firmware.Buffalo.Crypt
import Firmware.Buffalo.RoundTrip
import Firmware.Buffalo.Safe
import Firmware.Ead.Crypt
import Firmware.Ead.Replay
import Firmware.Ead.Delivery
import Firmware.Ead.Server
import Firmware.Ead.Gate
import Firmware.Ead.Bounds
import Firmware.Ead.Client
import Firmware.Ead.Command
import Firmware.Ead.Packet
import Firmware.Ead.Session
import Firmware.Ead.Reflect
import Firmware.Switch.Rtl8366
import Firmware.Switch.Pvid
import Firmware.Switch.B53
import Firmware.Switch.Rt3050
import Firmware.Switch.SetPorts
import Firmware.Switch.Devices
import Firmware.Switch.Dump
import Firmware.Switch.PortList
import Firmware.Switch.Slots
import Firmware.Mtdsplit.Mtd
import Firmware.Mtdsplit.Blocks
import Firmware.Mtdsplit.Uimage
import Firmware.Mtdsplit.Trx
import Firmware.Mtdsplit.Squashfs
import Firmware.Mtdsplit.Announced
import Firmware.Mtdsplit.Fit
import Firmware.Switch.Ar8216
import Firmware.Pc1.Crypt
import Firmware.Md5.Md5
import Firmware.Mtd.Seama
import Firmware.Oseama.Seama
import Firmware.Oseama.RoundTrip
import Firmware.Safeloader.Image
import Firmware.Safeloader.Read
import Firmware.Safeloader.RoundTrip
import Firmware.Safeloader.Sysupgrade
import Firmware.Owipcalc.Cidr
import Firmware.Owipcalc.Arith
import Firmware.Owipcalc.Network
import Firmware.Owipcalc.Main
import Firmware.Owipcalc.Stack
import Firmware.Owipcalc.Failure
import Firmware.Sixrd.Calc
import Firmware.Rbcfg.Tags
import Firmware.Oseama.Extract
import Firmware.Oseama.Info
import Firmware.Trx.Trx
import Firmware.Trx.Buffer
import Firmware.Trx.Files
import Firmware.NandEcc.Ecc
import Firmware.Ptgen.Ptable
import Firmware.Bqtool.Gauge
import Firmware.Bqtool.Params
import Firmware.Bqtool.Written
import Firmware.Bqtool.Tokens
import Firmware.Bqtool.Formula
import Firmware.Bqtool.Bqfs
import Firmware.Bqtool.Commands
import Firmware.Bqtool.Execute
import Firmware.Bqtool.Lines
import Firmware.Bqtool.Flash
import Firmware.Lib.Rotate
import Firmware.Lib.Rounds
import Firmware.Ead.Sha1
import Firmware.Ead.Aes
import Firmware.Lib.Limbs
import Firmware.Bn.Words
import Firmware.Lib.Estimate
import Firmware.Bn.Num
import Firmware.Bn.Mul
import Firmware.Bn.Div
import Firmware.Bn.Exp
import Firmware.Ead.Base64
import Firmware.Ead.Srp
import Firmware.Ead.Agree
import Firmware.Ead.Daemon
import Firmware.Ead.Login
