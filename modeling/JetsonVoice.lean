import JetsonVoice.Asr.IdleSweep
import JetsonVoice.Asr.MelExtractor
import JetsonVoice.Asr.MelFile
import JetsonVoice.Asr.MelSpectrum
import JetsonVoice.Asr.PrefixRollback
import JetsonVoice.Asr.TagStripping
import JetsonVoice.Asr.TempFiles
import JetsonVoice.Asr.VadSplit
import JetsonVoice.Code2Wav.Attention
import JetsonVoice.Code2Wav.ModuleStreaming
import JetsonVoice.Code2Wav.Runner
import JetsonVoice.Code2Wav.StatePlumbing
import JetsonVoice.Code2Wav.TransposedConv
import JetsonVoice.Composition.AsrFraming
import JetsonVoice.Composition.Capacity
import JetsonVoice.Composition.RequestLines
import JetsonVoice.KissFft.RealTransform
import JetsonVoice.Kokoro.HybridSplit
import JetsonVoice.Moss.Admission
import JetsonVoice.Moss.Emission
import JetsonVoice.Moss.KvAppend
import JetsonVoice.Moss.Progress
import JetsonVoice.Moss.SlotPool
import JetsonVoice.Protocol.Base64
import JetsonVoice.Runtime.BatcherLedger
import JetsonVoice.Runtime.CarryOver
import JetsonVoice.Runtime.DeltaStream
import JetsonVoice.Runtime.PeekRuns
import JetsonVoice.Runtime.PromptCache
import JetsonVoice.Runtime.PromptPrefill
import JetsonVoice.Runtime.SessionLanes
import JetsonVoice.Runtime.TtsBatchLanes
import JetsonVoice.Server.EarlyNames
import JetsonVoice.Server.PromptPrefix
import JetsonVoice.Server.RuntimeLock
import JetsonVoice.Server.StreamCompletion
import JetsonVoice.Server.ToolCallBuffer
import JetsonVoice.Server.ToolCallHistory
import JetsonVoice.Stft.Rewriting
import JetsonVoice.Tts.CodePredictorArgmax
import JetsonVoice.Tts.GateUpFusion
import JetsonVoice.Tts.PrefillPacking
import JetsonVoice.Tts.Qwen3Async
import JetsonVoice.Tts.Qwen3Chunks
import JetsonVoice.Tts.RoutingTable
import JetsonVoice.Tts.Shutdown
import JetsonVoice.Tts.SlotOwnership
import JetsonVoice.Tts.SparkCrossfade
import JetsonVoice.Tts.SparkEcho
import JetsonVoice.Tts.SparkFlush
import JetsonVoice.Tts.TalkerGemm
import JetsonVoice.W8A16.Layout
import JetsonVoice.W8A16.LinearError
import JetsonVoice.W8A16.Rewriters
import JetsonVoice.W8A16.StoredScales
import JetsonVoice.W8A16.Threads
import JetsonVoice.WorkerIO.Abandonment
import JetsonVoice.WorkerIO.Permits
import JetsonVoice.WorkerIO.Wakeup
