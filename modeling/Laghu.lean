import Laghu.SlabPoolRuns
import Laghu.CancellationTokenRuns
import Laghu.DnsResolverRuns
import Laghu.OtlpDecoding
import Laghu.CodecRuns
import Laghu.IoSliceRuns
import Laghu.ArenaAlignment
import Laghu.StateTransitions
import Laghu.BufferReservations
import Laghu.QuicFailures
import Laghu.MappedRegionRuns
import Laghu.JsonDocumentRuns
import Laghu.FeatureResolution
import Laghu.EvaluatorLookups
import Laghu.EvaluatorPercentages
import Laghu.EvaluatorGates
import Laghu.CheckedIntegers
import Laghu.Clocks
import Laghu.OtlpTexts
import Laghu.EnvelopeCorruption
import Laghu.DependencyForks
import Laghu.GeoIpSources
import Laghu.HttpHeaders
import Laghu.Http2Memory
import Laghu.BenchmarkMetrics
import Laghu.SecretPasswords
