import K7nvhRng.LengthUniformCounting
import K7nvhRng.PeresExtractor
import K7nvhRng.SegmentedExtraction
import K7nvhRng.CheckedArrays
import K7nvhRng.StoppableRuns
import K7nvhRng.BitPacking
import K7nvhRng.ListBlocks
import K7nvhRng.AmlsArrays
import K7nvhRng.AmlsRefinement
import K7nvhRng.AmlsExactness
import K7nvhRng.PairingBijection
import K7nvhRng.CharSignedness
import K7nvhRng.MultiDeviceBias
import K7nvhRng.DaemonLoop
import K7nvhRng.WhiteningBuffer
import K7nvhRng.ChunkConversion
import K7nvhRng.ChunkLedger
import K7nvhRng.DeviceInput
import K7nvhRng.DaemonRefinement
import K7nvhRng.FailingDeliveries
import K7nvhRng.EveryHost
import K7nvhRng.DaemonStatistics
import K7nvhRng.StatisticsDomain
import K7nvhRng.WhiteningExactness
import K7nvhRng.EntropyCredit
import K7nvhRng.StdinUtilities
import K7nvhRng.UtilityOutputs
import K7nvhRng.UtilityPipeline
import K7nvhRng.FirstLevelAgreement
import K7nvhRng.AlarmInterleaving
import K7nvhRng.LogRecursion
import K7nvhRng.ReadErrors
import K7nvhRng.HexDecoding
import K7nvhRng.FirmwareLeds
import K7nvhRng.BlockHeap
import K7nvhRng.AmlsMemory
import K7nvhRng.DaemonMemory
import K7nvhRng.DescriptorTable
import K7nvhRng.DecimalText
import K7nvhRng.SerialSettings
import K7nvhRng.DaemonStartup
import K7nvhRng.StartupDescriptors
import K7nvhRng.SingleInstance
import K7nvhRng.SamplePath
import K7nvhRng.DeliveryPrefix
import K7nvhRng.BiasedSources
import K7nvhRng.DaemonUnbiased
import K7nvhRng.UtilitiesUnbiased
import K7nvhRng.SerialReader
import K7nvhRng.SignalLogging
import K7nvhRng.CounterBounds
import K7nvhRng.UtilityMemory
import K7nvhRng.ByteDistribution
import K7nvhRng.FirmwareInterrupts
