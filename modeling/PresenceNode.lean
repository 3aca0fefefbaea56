import PresenceNode.Tlv.Streams
import PresenceNode.Library.Chunking
import PresenceNode.Frame.Layout
import PresenceNode.Frame.Detection
import PresenceNode.Ble.DumpFrame
import PresenceNode.Store.Failure
import PresenceNode.Store.Migration
import PresenceNode.Ble.ExactlyOnce
import PresenceNode.Radar.Summary
import PresenceNode.Sen5x.Fold
import PresenceNode.Ble.ClockFlag
import PresenceNode.Store.Clock
import PresenceNode.Host.Agreement
import PresenceNode.Radar.Hearing
import PresenceNode.Radar.Script
import PresenceNode.Radar.Credit
import PresenceNode.Main.Headcount
import PresenceNode.Ble.Advertise
import PresenceNode.Ble.Requests
import PresenceNode.Radar.TypeWalk
import PresenceNode.Host.Decoders
import PresenceNode.Tlv.BogusLength
import PresenceNode.Tlv.Find
import PresenceNode.Tlv.Targets
import PresenceNode.Main.Account
import PresenceNode.Main.Independence
import PresenceNode.Main.Cadence
import PresenceNode.Radar.Session
import PresenceNode.Radar.BringUp
import PresenceNode.Ble.Reboot
import PresenceNode.Ble.Transfer
import PresenceNode.Sen5x.Detection
import PresenceNode.Host.Monitor
import PresenceNode.Ble.Visibility
import PresenceNode.Ble.Identity
import PresenceNode.Main.Origin
import PresenceNode.Main.Board
import PresenceNode.Host.BringUp
import PresenceNode.Host.Report
