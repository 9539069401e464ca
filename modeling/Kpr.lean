import Kpr.MemList.Theorems.Overlap
import Kpr.MemList.Theorems.Within
import Kpr.MemList.Theorems.Refinement
import Kpr.MemList.Theorems.Requests
import Kpr.MemList.Theorems.Order
import Kpr.MemList.Theorems.Insertion
import Kpr.MemList.Theorems.Faults
import Kpr.MemList.Theorems.OutOfMemory
import Kpr.MemList.Theorems.Client
import Kpr.MemBitmap.Theorems.Undo
import Kpr.MemBitmap.Theorems.FirstFit
import Kpr.MemBitmap.Theorems.Sizes
import Kpr.MemBitmap.Theorems.Addresses
import Kpr.MemBitmap.Theorems.Lifetime
import Kpr.MemPages.Theorems.Exclusive
import Kpr.Keyboard.Theorems.Tracking
import Kpr.Keyboard.Theorems.Iterators
import Kpr.Keyboard.Theorems.Snapshots
import Kpr.ConsoleServer.Theorems.Switching
import Kpr.ConsoleServer.Theorems.Edge
import Kpr.ConsoleServer.Theorems.Startup
import Kpr.ConsoleServer.Theorems.Ownership
import Kpr.EndToEnd.Theorems.Tab
import Kpr.PongClient.Theorems.OnScreen
import Kpr.LogServer.Theorems.Leftovers
import Kpr.LogServer.Theorems.Screen
import Kpr.LibMount.Theorems.Rendering
import Kpr.LibMount.Theorems.Requests
import Kpr.LibMount.Theorems.Faults
import Kpr.LibSig.Theorems.Handlers
import Kpr.LibSig.Theorems.System
import Kpr.LibSig.Theorems.Periodic
import Kpr.EndToEnd.Theorems.Pong
import Kpr.MemPages.Theorems.Free
import Kpr.LibL4re.Theorems.Clock
import Kpr.LibFile.Theorems.Names
