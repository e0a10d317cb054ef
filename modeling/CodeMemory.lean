import CodeMemory.Audit.Chain
import CodeMemory.Broker.Execute
import CodeMemory.Broker.FailClosed
import CodeMemory.Connector.Evidence
import CodeMemory.ContextPack.Accounts
import CodeMemory.ContextPack.Session
import CodeMemory.Continual.Converge
import CodeMemory.Crawl.Agreement
import CodeMemory.Crawl.Convergence
import CodeMemory.Crawl.Ranking
import CodeMemory.Crawl.Freshness
import CodeMemory.Crawl.SharedCache
import CodeMemory.Crawl.SymbolHop
import CodeMemory.Crawl.Symbols
import CodeMemory.Crawl.Watch
import CodeMemory.Dense.Erasure
import CodeMemory.Factory.LeafResults
import CodeMemory.Factory.Previews
import CodeMemory.Factory.Replay
import CodeMemory.Gardener.Queue
import CodeMemory.Github.Publication
import CodeMemory.Handover.Cleanup
import CodeMemory.Handover.Coordinator
import CodeMemory.Hosted.CacheKey
import CodeMemory.Hosted.Fusion
import CodeMemory.Hosted.Histories
import CodeMemory.Hosted.Redaction
import CodeMemory.Hosted.Resubmission
import CodeMemory.Hosted.TimedCache
import CodeMemory.Ingestion.History
import CodeMemory.Memory.PageRank
import CodeMemory.Orgscope.Fences
import CodeMemory.PathGuard.Contain
import CodeMemory.Privacy.Tombstones
import CodeMemory.Rerank.Isolation
import CodeMemory.Rerank.SingleFlight
import CodeMemory.Savings.Exact
import CodeMemory.SessionLog.Summary
import CodeMemory.Workflow.Edits
import CodeMemory.Crawl.Diversity
