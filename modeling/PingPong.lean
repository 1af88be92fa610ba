import PingPong.Head
import PingPong.OneTask
import PingPong.Refinement
import PingPong.Queue
import PingPong.ListRuns
import PingPong.Arrivals
import PingPong.CpuTime
import PingPong.Creation
import PingPong.Stranded
import PingPong.ExecTime
import PingPong.Sweep
import PingPong.Shortest
import PingPong.StoredList
import PingPong.NodeInsert
import PingPong.NodeSched
import PingPong.NodeFree
import PingPong.RingScheduler
import PingPong.DiskScheduler
import PingPong.TaskExit
import PingPong.TaskReuse
import PingPong.Overflow
import PingPong.Progress
import PingPong.Served
import PingPong.DiskTimer
import PingPong.Atomic
import PingPong.Starvation
import PingPong.Disco1
import PingPong.Disco2
import PingPong.Overtaking
import PingPong.Travel
import PingPong.Prodcons
import PingPong.Racecond
import PingPong.Lull
