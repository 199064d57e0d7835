import XrdHdfs.Lib.Prog
import XrdHdfs.Lib.Slice
import XrdHdfs.Lib.Stream
import XrdHdfs.Lib.Crc
import XrdHdfs.Lib.Runs
import XrdHdfs.Lib.InStep
import XrdHdfs.Lib.Numbered
import XrdHdfs.Lib.Memory
import XrdHdfs.Lib.Interleave
import XrdHdfs.Lib.Local
import XrdHdfs.Lib.PathStore
import XrdHdfs.Lib.Monitor
import XrdHdfs.Lib.Guarantee
import XrdHdfs.Basic
import XrdHdfs.Text
import XrdHdfs.Hdfs
import XrdHdfs.Put
import XrdHdfs.Readbuf
import XrdHdfs.LibHdfs
import XrdHdfs.ChecksumState
import XrdHdfs.Record
import XrdHdfs.File
import XrdHdfs.Manager
import XrdHdfs.System
import XrdHdfs.Environment
import XrdHdfs.Reference
import XrdHdfs.ReadAhead
import XrdHdfs.ReadSafety
import XrdHdfs.ReadRefines
import XrdHdfs.Absorb
import XrdHdfs.Graft
import XrdHdfs.Entries
import XrdHdfs.Calls
import XrdHdfs.FileSpec
import XrdHdfs.RecordIO
import XrdHdfs.ManagerSpec
import XrdHdfs.Requests
import XrdHdfs.Decode
import XrdHdfs.WriteSession
import XrdHdfs.Cksum
import XrdHdfs.Namespace
import XrdHdfs.Ledger
import XrdHdfs.Mapping
import XrdHdfs.Update
import XrdHdfs.Verify
import XrdHdfs.Lines
import XrdHdfs.Budget
import XrdHdfs.HandOver
import XrdHdfs.Agreement
import XrdHdfs.Saving
import XrdHdfs.Race
import XrdHdfs.Fresh
import XrdHdfs.Grammar
import XrdHdfs.SafeWrite
import XrdHdfs.Names
import XrdHdfs.CallLog
import XrdHdfs.Honest
import XrdHdfs.DoSet
import XrdHdfs.Mkdir
import XrdHdfs.Connections
import XrdHdfs.Directory
import XrdHdfs.History
import XrdHdfs.Reuse
import XrdHdfs.Errors
import XrdHdfs.Release
import XrdHdfs.StatBuffers
import XrdHdfs.NameList
import XrdHdfs.ChunkLoop
import XrdHdfs.LoadJvm
import XrdHdfs.Config
import XrdHdfs.Startup
import XrdHdfs.Growing
import XrdHdfs.Sequential
import XrdHdfs.Handles
import XrdHdfs.Fetching
import XrdHdfs.Store
import XrdHdfs.Tenants
import XrdHdfs.Clients
import XrdHdfs.Transfer
import XrdHdfs.Versions
