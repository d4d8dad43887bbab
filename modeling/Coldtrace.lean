import Coldtrace.Lib.Bytes
import Coldtrace.Lib.Lz4
import Coldtrace.Lib.Lz4Encode
import Coldtrace.Lib.Machine
import Coldtrace.Lib.Keyed
import Coldtrace.Lib.Ring
import Coldtrace.Lib.Decimal
import Coldtrace.Lib.CString
import Coldtrace.Lib.Collect
import Coldtrace.Entries
import Coldtrace.Writer
import Coldtrace.Reserve
import Coldtrace.Thread
import Coldtrace.Session
import Coldtrace.Ownership
import Coldtrace.Config
import Coldtrace.FileNames
import Coldtrace.Files
import Coldtrace.FileRing
import Coldtrace.Numbering
import Coldtrace.Stack
import Coldtrace.Reader
import Coldtrace.Records
import Coldtrace.Decoding
import Coldtrace.Fragments
import Coldtrace.Grammar
import Coldtrace.Walker
import Coldtrace.Appending
import Coldtrace.Coherence
import Coldtrace.Diffs
import Coldtrace.Bounds
import Coldtrace.SelfContained
import Coldtrace.RoundTrip
import Coldtrace.Complete
import Coldtrace.Reinit
import Coldtrace.Subscribers
import Coldtrace.Indexes
import Coldtrace.Calls
import Coldtrace.Lifecycle
import Coldtrace.Heap
import Coldtrace.Locks
import Coldtrace.Memory
import Coldtrace.Atomics
import Coldtrace.Failures
import Coldtrace.FileSteps
import Coldtrace.Sharing
import Coldtrace.IndexSet
import Coldtrace.Matcher
import Coldtrace.Checker
import Coldtrace.Ascending
import Coldtrace.Cuts
import Coldtrace.Confined
import Coldtrace.ShadowStack
import Coldtrace.MappedFiles
import Coldtrace.Compressor
import Coldtrace.MatchLength
import Coldtrace.CompressorOutput
import Coldtrace.Compression
import Coldtrace.Recorder
import Coldtrace.Dumps
import Coldtrace.Lib.FileTree
import Coldtrace.Directory
import Coldtrace.Procmaps
import Coldtrace.MappedCopies
import Coldtrace.Site
import Coldtrace.Lib.Template
import Coldtrace.Printing
import Coldtrace.Discovery
import Coldtrace.CopyOnce
