import Debe.Lib.LittleEndian
import Debe.Lib.Records
import Debe.Lib.MinHeap
import Debe.Lib.Loops
import Debe.Lib.Cuts
import Debe.Structures
import Debe.Crypto
import Debe.Lz4
import Debe.Storage
import Debe.Codec
import Debe.EntryHeap
import Debe.HeapOps
import Debe.CMSketch
import Debe.FreqIndex
import Debe.FreqPasses
import Debe.NaiveIndex
import Debe.IndexDesigns
import Debe.Recipe
import Debe.Session
import Debe.SessionRuns
import Debe.Packing
import Debe.RecvDecoder
import Debe.BaselineRestore
import Debe.Concurrent
import Debe.Durability
import Debe.Lifecycle
import Debe.Lib.Buffers
import Debe.Lib.Runs
import Debe.Pipeline
import Debe.Lib.FileStream
import Debe.Lib.KeyStream
import Debe.Handshake
import Debe.Admission
import Debe.Transport
import Debe.BatchParser
import Debe.RecipeConfigs
import Debe.Nonces
import Debe.SealedFiles
import Debe.Sealing
import Debe.Restart
import Debe.Simulator
import Debe.Lib.TopK
import Debe.FreqRestart
import Debe.TopKIndex
import Debe.FreqServer
import Debe.FreqServerRuns
import Debe.Lib.FirstBinding
import Debe.MapStore
import Debe.Segments
import Debe.ExtremeBin
import Debe.SparseIndex
import Debe.Lib.Greedy
import Debe.Chunker
import Debe.Lib.FrameBuffer
import Debe.Framing
import Debe.KeyGeneration
import Debe.BaselineSender
import Debe.KeyAlignment
import Debe.Lib.Splits
import Debe.Segmentation
import Debe.Lib.Cbc
import Debe.IndexCipher
import Debe.Lib.TwoRuns
import Debe.FreqReload
import Debe.IndexFiles
import Debe.InMemoryDatabase
import Debe.Lib.Lru
import Debe.ReadCache
import Debe.KeyRecipes
import Debe.Lib.Rsa
import Debe.BlindRSA
import Debe.Lib.WaterFill
import Debe.OpSolver
import Debe.Lib.CountMin
import Debe.CounterArray
import Debe.Lib.CircularBuffer
import Debe.ReaderWriterQueue
import Debe.QueueInvariant
import Debe.QueueRuns
import Debe.MessageQueue
import Debe.Lib.CommonPrefix
import Debe.Lz4Compress
import Debe.Lz4Match
import Debe.Lz4RoundTrip
import Debe.Lib.Firsts
import Debe.Deduplication
import Debe.PlainIndex
import Debe.PlainSessions
import Debe.BaselineSystem
import Debe.StoredOnce
import Debe.PrototypeSystem
import Debe.ServerLife
import Debe.TEDKeyManager
import Debe.KeyRuns
import Debe.DupLESSClients
import Debe.TEDUpload
import Debe.TEDStorage
