import Oat.TaDefUse
import Oat.HeapList
import Oat.TaTable
import Oat.TaAttest
import Oat.TaLifecycle
import Oat.TaFaults
import Oat.CondRoundTrip
import Oat.Protocol
import Oat.VeFlags
import Oat.VeAccount
import Oat.VeStray
import Oat.CfvTrampoline
import Oat.CfvHints
import Oat.NovaSenVars
import Oat.NovaCalls
import Oat.NovaHooks
import Oat.NovaWindow
import Oat.NovaCells
import Oat.NovaPointsTo
import Oat.Descent
import Oat.NovaTypes
import Oat.SharedSets
import Oat.NovaTrace
import Oat.NovaShared
import Oat.NovaEnds
import Oat.InsertLoop
import Oat.CfvLoop
import Oat.CfvCond
import Oat.CfvFunctionIds
import Oat.VeTbTargets
import Oat.VeEncode
import Oat.VeBytes
import Oat.TaMemory
import Oat.VeNesting
import Oat.VeTransfer
import Oat.VeOpaque
import Oat.CallGraph
import Oat.VeTerminates
import Oat.VeGraph
import Oat.LinearScan
import Oat.VeScan
import Oat.Patch
import Oat.LegacyHookit
import Oat.LegacyScan
import Oat.LegacyText
import Oat.TextScans
import Oat.LazyTable
import Oat.SbMetadata
import Oat.SbStack
import Oat.SbChecks
import Oat.SbTemporal
import Oat.Attestation
import Oat.NovaDetect
import Oat.CfvMediation
import Oat.Measured
import Oat.CfvLayout
import Oat.TaBlake2sHash
import Oat.CfvErase
import Oat.CfvHintRuns
import Oat.VePaths
import Oat.Probing
import Oat.SbFreeMap
import Oat.LinePattern
import Oat.ConfigText
import Oat.VeConfig
import Oat.LegacyTables
import Oat.TypedSession
import Oat.NovaEngine
