import Memento.Lib.Base64
import Memento.Lib.Binary64
import Memento.Lib.Civil
import Memento.Lib.Decimal
import Memento.Lib.Json
import Memento.Lib.KeyedList
import Memento.Lib.LastWrite
import Memento.Lib.Runs
import Memento.Lib.Text
import Memento.Lib.TextOrder
import Memento.Lib.Xml
import Memento.Lib.XmlParse
import Memento.Timestamp
import Memento.Sip
import Memento.CallListStore
import Memento.CallLog
import Memento.MementoAppServer
import Memento.CallListStoreProcessor
import Memento.Server
import Memento.MementoPlugin
import Memento.HttpNotifier
import Memento.Unload
import Memento.Theorems.Handlers
import Memento.Theorems.Responses
import Memento.Theorems.Transactions
import Memento.Theorems.Dialogs
import Memento.Theorems.Recording
import Memento.Theorems.Buffers
import Memento.Theorems.AnswererPrivacy
import Memento.Theorems.Contents
import Memento.Theorems.Trim
import Memento.Theorems.CallLists
import Memento.Theorems.TrimCut
import Memento.Theorems.Acts
import Memento.Theorems.Pool
import Memento.Theorems.Requests
import Memento.Theorems.RecentCalls
import Memento.Theorems.TrimDelete
import Memento.Theorems.BoundedStore
import Memento.Theorems.Workers
import Memento.Theorems.Accounting
import Memento.Theorems.Server
import Memento.Theorems.Admissions
import Memento.Theorems.CompletedCalls
import Memento.Theorems.Chronology
import Memento.Theorems.Plugin
import Memento.Theorems.Options
import Memento.Theorems.Progress
import Memento.Theorems.Ordering
import Memento.Theorems.Isolation
import Memento.Theorems.Serial
import Memento.Theorems.KeptCalls
import Memento.Theorems.CallRecords
import Memento.Theorems.Refinement
import Memento.Theorems.StoredLog
import Memento.Theorems.Notifications
import Memento.Theorems.SeparateCalls
import Memento.Theorems.Convergence
import Memento.Theorems.KeptEntries
import Memento.Theorems.RecordedTimes
import Memento.Theorems.Unload
