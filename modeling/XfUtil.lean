import XfUtil.Aio.Order
import XfUtil.Aio.Progress
import XfUtil.Aio.Selection
import XfUtil.Aio.Stop
import XfUtil.Base.Doubling
import XfUtil.BlockBuffer.Provenance
import XfUtil.BlockPool.Accounts
import XfUtil.BlockPool.Alignment
import XfUtil.BlockPool.Clients
import XfUtil.BlockPool.Sections
import XfUtil.BlockPool.Sharing
import XfUtil.BloomFilter.Contents
import XfUtil.Coding.Reverse
import XfUtil.Coding.Varints
import XfUtil.Directory.Escape
import XfUtil.Directory.Permissions
import XfUtil.Directory.Whole
import XfUtil.File.Objects
import XfUtil.FileWatcher.Adds
import XfUtil.FileWatcher.Reading
import XfUtil.Hash.OneWord
import XfUtil.IniFile.Reparse
import XfUtil.IniFile.Streams
import XfUtil.IniFile.Trimming
import XfUtil.List.Foreach
import XfUtil.Logger.Chain
import XfUtil.Logger.Delivery
import XfUtil.Logger.Lines
import XfUtil.Logger.Progress
import XfUtil.LruCache.Budget
import XfUtil.LruCache.Existing
import XfUtil.LruCache.Recency
import XfUtil.LruCache.Representation
import XfUtil.LruCache.Uniqueness
import XfUtil.MemoryBlock.Runs
import XfUtil.MemoryPool.Growth
import XfUtil.Pack.Confined
import XfUtil.Pack.Malformed
import XfUtil.Pack.Streams
import XfUtil.Pack.Widths
import XfUtil.Path.Find
import XfUtil.Queue.Refinement
import XfUtil.Queue.Settling
import XfUtil.Queue.Timeouts
import XfUtil.Queue.Wakeups
import XfUtil.RwLock.Guards
import XfUtil.StrView.Order
import XfUtil.String.Copies
import XfUtil.String.Failures
import XfUtil.String.Growth
import XfUtil.Thread.Deadlock
import XfUtil.Thread.Order
import XfUtil.Time.Codes
import XfUtil.Time.Order
import XfUtil.Time.Overread
import XfUtil.WriteBuffer.HeapBacked
import XfUtil.WriteBuffer.PoolBacked
