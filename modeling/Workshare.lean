import Workshare.LevelDB.Key
import Workshare.LevelDB.Table
import Workshare.LevelDB.Compaction
import Workshare.LevelDB.Reduce
import Workshare.LevelDB.Cursor
import Workshare.LevelDB.Build
import Workshare.LevelDB.Buffer
import Workshare.LevelDB.Reads
import Workshare.LevelDB.Writer
import Workshare.LevelDB.Order
import Workshare.LevelDB.Pipeline
import Workshare.LevelDB.Commit
import Workshare.LevelDB.Skips
import Workshare.LevelDB.Range
import Workshare.LevelDB.Transact
import Workshare.LevelDB.ErrorStatus
import Workshare.LevelDB.Commands
import Workshare.LevelDB.Pause
import Workshare.LevelDB.Pick
import Workshare.Auworkshareity
import Workshare.TxObjectMap
import Workshare.Poa
import Workshare.Builtin.AuworkshareityNative
