import Gunrock.Library.Buffer
import Gunrock.Library.FreeList
import Gunrock.Library.LexicalPath
import Gunrock.Library.Namespace
import Gunrock.Library.Ownership
import Gunrock.Library.UndoLog
import Gunrock.Library.Wp
import Gunrock.Library.Loop
import Gunrock.Library.Script
import Gunrock.Library.SortedMap
import Gunrock.Library.Text
import Gunrock.Ufs
import Gunrock.Disk
import Gunrock.LocalFileSystem
import Gunrock.DistributedFileSystemService
import Gunrock.Mkfs
import Gunrock.Regions
import Gunrock.HTTP
import Gunrock.FileService
import Gunrock.Transactions
import Gunrock.Atomicity
import Gunrock.Volume
import Gunrock.Mounted
import Gunrock.Sound
import Gunrock.Reading
import Gunrock.Creating
import Gunrock.Unlinking
import Gunrock.Writing
import Gunrock.Formatted
import Gunrock.Layout
import Gunrock.Runs
import Gunrock.Consistency
import Gunrock.Safety
import Gunrock.Effects
import Gunrock.Allocating
import Gunrock.Fetching
import Gunrock.Scanning
import Gunrock.Restoring
import Gunrock.Paths
import Gunrock.Getting
import Gunrock.Deleting
import Gunrock.Putting
import Gunrock.Updates
import Gunrock.Statuses
import Gunrock.Repeating
import Gunrock.Listing
import Gunrock.HTTPClientResponse
import Gunrock.StringUtils
import Gunrock.HttpUtils
import Gunrock.WwwFormEncodedDict
import Gunrock.Base64
import Gunrock.Decoding
import Gunrock.Encoding
import Gunrock.Utilities
import Gunrock.Printing
import Gunrock.Showing
import Gunrock.Bits
import Gunrock.Library.Incremental
import Gunrock.Parser
import Gunrock.Marks
import Gunrock.Feeding
import Gunrock.Receiving
import Gunrock.Accepting
import Gunrock.Matching
import Gunrock.Delivering
import Gunrock.Chunking
import Gunrock.Server
import Gunrock.Programs
import Gunrock.HttpClient
import Gunrock.Proxying
import Gunrock.Exchanging
import Gunrock.Answering
import Gunrock.Copying
