import BoaIdb.Backend.CountScan
import BoaIdb.Backend.Nesting
import BoaIdb.Clone.Amplification
import BoaIdb.Clone.MemoAlignment
import BoaIdb.Clone.Totality
import BoaIdb.Core.KeyCanonical
import BoaIdb.Cursor.Completeness
import BoaIdb.Driver.BackendReads
import BoaIdb.Driver.CursorUpdate
import BoaIdb.Driver.IndexCreation
import BoaIdb.Driver.LiveCursors
import BoaIdb.Driver.Names
import BoaIdb.Driver.PutCheck
import BoaIdb.Driver.RequestAtomicity
import BoaIdb.Driver.SchemaMirror
import BoaIdb.Driver.SharedScheduler
import BoaIdb.Engine.GeneratorLaw
import BoaIdb.Engine.IndexEntries
import BoaIdb.Engine.KeyPathInject
import BoaIdb.Engine.MultiEntry
import BoaIdb.Engine.OpenQueue
import BoaIdb.Engine.Scheduler
import BoaIdb.Engine.Unkeyable
import BoaIdb.Fs.Deletion
import BoaIdb.Fs.Listing
import BoaIdb.Fs.Overlap
import BoaIdb.Fs.QuotaDelta
import BoaIdb.Fs.Replay
import BoaIdb.Fs.Schema
import BoaIdb.Fs.SnapshotCodec
import BoaIdb.Fs.Varints
import BoaIdb.Fs.WalCut
import BoaIdb.Memory.Serializable
import BoaIdb.Pump.Answers
import BoaIdb.Pump.Connections
import BoaIdb.Pump.Openings
import BoaIdb.Pump.Outcomes
import BoaIdb.Pump.Registry
import BoaIdb.Pump.Requests
import BoaIdb.Pump.Stations
import BoaIdb.Sqlite.CleanEnds
import BoaIdb.Sqlite.KeyPathCodec
import BoaIdb.Sqlite.Paging
