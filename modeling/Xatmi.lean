import Xatmi.Switchboard.Delivery
import Xatmi.Switchboard.Executors
import Xatmi.Switchboard.Descriptor
import Xatmi.Switchboard.Origin
import Xatmi.Switchboard.Segmentation
import Xatmi.Switchboard.RegistryTraffic
import Xatmi.Switchboard.Queues
import Xatmi.Switchboard.Modes
import Xatmi.Switchboard.Intake
import Xatmi.Library.Getrply
import Xatmi.Switchboard.Cursor
import Xatmi.Library.TypedBuffer
import Xatmi.Switchboard.Returning
import Xatmi.Switchboard.Choosing
import Xatmi.Switchboard.Awaiting
import Xatmi.Switchboard.Iowait
import Xatmi.Switchboard.Cascade
import Xatmi.Library.Pointers
import Xatmi.Switchboard.Losses
import Xatmi.Switchboard.Wakeups
import Xatmi.Dump
import Xatmi.Library.Diagnostics
import Xatmi.Library.Layout
import Xatmi.Library.Descriptors
import Xatmi.Switchboard.Workers
import Xatmi.Library.Submission
import Xatmi.Library.Returns
import Xatmi.Switchboard.LonePeer
import Xatmi.Switchboard.Leaks
import Xatmi.Switchboard.Turns
import Xatmi.Lib.Paths
import Xatmi.Switchboard.Broker
import Xatmi.Library.Tpcall
import Xatmi.Library.Allocation
