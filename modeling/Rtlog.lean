import Rtlog.Base.Machine
import Rtlog.Base.Loop
import Rtlog.Base.FixedBuffer
import Rtlog.Base.Lanes
import Rtlog.Base.Text
import Rtlog.Base.Circular
import Rtlog.Base.Tally
import Rtlog.Base.Claims
import Rtlog.Base.LaneQueue
import Rtlog.Base.Census
import Rtlog.Base.Bag
import Rtlog.Base.Probing
import Rtlog.Base.Tickets
import Rtlog.Traits
import Rtlog.Argument
import Rtlog.Rendering
import Rtlog.Payload
import Rtlog.Formatter
import Rtlog.Leftover
import Rtlog.Logger
import Rtlog.Filling
import Rtlog.Agreement
import Rtlog.EndToEnd
import Rtlog.System
import Rtlog.History
import Rtlog.AllOrNothing
import Rtlog.Shutdown
import Rtlog.FileContent
import Rtlog.ReadBack
import Rtlog.Survival
import Rtlog.Lifetime
import Rtlog.Threshold
import Rtlog.Draining
import Rtlog.Teardown
import Rtlog.Registry
import Rtlog.ThreadId
import Rtlog.Queue.Machine
import Rtlog.Queue.Slots
import Rtlog.Queue.View
import Rtlog.Queue.Frame
import Rtlog.Queue.Claiming
import Rtlog.Queue.Emptying
import Rtlog.Queue.Enqueuing
import Rtlog.Queue.Held
import Rtlog.Queue.Refinement
import Rtlog.Queue.Progress
import Rtlog.Queue.Serial
import Rtlog.Queue.Capacity
import Rtlog.Queue.FreeList
import Rtlog.Queue.FreeListBag
import Rtlog.Queue.Recycling
import Rtlog.Queue.TryDequeue
import Rtlog.Queue.Scanning
import Rtlog.Queue.WaitFree
import Rtlog.Queue.ProducerHash
import Rtlog.Queue.Registering
import Rtlog.Queue.Registered
import Rtlog.Queue.Producers
import Rtlog.Queue.Searching
import Rtlog.Queue.Threads
import Rtlog.Program
import Rtlog.Simulation
import Rtlog.Delivery
