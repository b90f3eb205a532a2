import Fzx.QueryPositions
import Fzx.ScoreContext
import Fzx.ScoreBounds
import Fzx.QueryScore
import Fzx.Tx
import Fzx.QueryPrint
import Fzx.LineScanner
import Fzx.PoolVisible
import Fzx.PoolProgress
import Fzx.Events
import Fzx.EventFd
import Fzx.ItemsAccess
import Fzx.ItemsAtomic
import Fzx.MatchLoops
import Fzx.MergeLoops
import Fzx.ItemsCapacity
import Fzx.ItemQueue
import Fzx.LineThrows
import Fzx.EventFdThrows
import Fzx.PoolRest
import Fzx.PoolCrash
import Fzx.Lib.Simulation
import Fzx.ThreadsRest
import Fzx.App
import Fzx.AppInput
import Fzx.AppScreen
import Fzx.AppRest
