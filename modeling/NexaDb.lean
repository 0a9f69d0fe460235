import NexaDb.Kernels
import NexaDb.Lanes
import NexaDb.Stl
import NexaDb.BinaryHeap
import NexaDb.Mt19937
import NexaDb.BatchInserter
import NexaDb.BatchInserterLaws
import NexaDb.Hnsw.Index
import NexaDb.Hnsw.SearchLayerLaws
import NexaDb.Hnsw.Graph
import NexaDb.Hnsw.InsertLaws
import NexaDb.Hnsw.SearchLayerSpec
import NexaDb.Hnsw.SearchLayerTrace
import NexaDb.Hnsw.Invariants
import NexaDb.Hnsw.BackEdges
import NexaDb.Hnsw.SearchLaws
import NexaDb.Hnsw.BruteForce
import NexaDb.Hnsw.BelowCap
import NexaDb.Hnsw.Portability
import NexaDb.Stores
