import SGLang.MemCache.StripThinking
import SGLang.Managers.PrefillMemory
import SGLang.Halo.InFlight
import SGLang.Gateway.WorkerRegistry
import SGLang.Gateway.ConcurrencyLimit
import SGLang.Gateway.CacheAwarePolicy
import SGLang.Parser.ReasoningParser
import SGLang.Lora.LoRAScheduling
import SGLang.Session.SessionController
import SGLang.MemCache.RadixCacheCpp
import SGLang.Sampling.Penalizers
import SGLang.Disaggregation.StagingHandler
import SGLang.Ngram.MatchState
import SGLang.Managers.IncrementalDetokenize
import SGLang.Ngram.CorpusMatch
import SGLang.MemCache.KVEviction
import SGLang.MemCache.AllocKernels
import SGLang.MemCache.SWAAllocator
import SGLang.MemCache.HF3FSRead
import SGLang.MemCache.StorageKeys
import SGLang.MemCache.Prefetch
import SGLang.MemCache.BigramView
import SGLang.Halo.Tick
import SGLang.Managers.RuntimeChecker
