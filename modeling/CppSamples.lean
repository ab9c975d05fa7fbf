import CppSamples.CountedLoop
import CppSamples.BitReversal
import CppSamples.RadixTwo
import CppSamples.CosineTransform
import CppSamples.CosineBitReversal
import CppSamples.CosineRounds
import CppSamples.CosineUnpack
import CppSamples.CosineSums
import CppSamples.DiscreteCosine
import CppSamples.CosineInverse
import CppSamples.Monitor
import CppSamples.BoundedBuffer
import CppSamples.ProducerConsumer
import CppSamples.RtpCommandQueue
import CppSamples.RecencyOrder
import CppSamples.LruCache
import CppSamples.LruRefinement
import CppSamples.SimpleVm
import CppSamples.SimpleVmRefinement
import CppSamples.HeapList
import CppSamples.TreiberStack
import CppSamples.RtpPackets
import CppSamples.RtpFraming
import CppSamples.BartelsStewart
import CppSamples.HouseholderReduction
import CppSamples.HouseholderProduct
import CppSamples.SchurSweep
import CppSamples.SchurIteration
import CppSamples.SylvesterSolve
import CppSamples.BartelsStewartSolve
import CppSamples.ChebyshevDifferentiate
import CppSamples.ChebyshevExpansion
import CppSamples.SpectralDerivative
import CppSamples.PoissonProblem
import CppSamples.PoissonSolve
import CppSamples.RtpServer
import CppSamples.RtpServerInvariant
import CppSamples.RtpReporting
import CppSamples.RtpStalling
import CppSamples.RtpRouting
import CppSamples.SearchTree
import CppSamples.VertexTable
import CppSamples.TriMesh
import CppSamples.MidpointSubdivision
import CppSamples.TriMeshRefiner
import CppSamples.SimpleVmSafety
import CppSamples.BartelsStewartSquare
import CppSamples.LruHistory
import CppSamples.PoissonDomain
import CppSamples.CheckedArray
import CppSamples.CheckedHouseholder
import CppSamples.CheckedSchur
import CppSamples.CheckedSylvester
import CppSamples.CheckedCosine
import CppSamples.CheckedDifferentiate
import CppSamples.CheckedPoisson
import CppSamples.BoundaryProjection
import CppSamples.LruLookup
import CppSamples.ElementSizes
import CppSamples.HouseholderOrthogonal
import CppSamples.SchurSimilarity
import CppSamples.SchurTermination
import CppSamples.OppositeVertex
import CppSamples.HexEmbed
import CppSamples.CommandLine
import CppSamples.SimpleVmImage
import CppSamples.SylvesterSingular
import CppSamples.CosineTwoDimensional
import CppSamples.BodyAxSdlp
import CppSamples.GaussLegendre
import CppSamples.TurtlePath
import CppSamples.BinaryGap
import CppSamples.SetOperations
import CppSamples.SplitJoin
import CppSamples.DecimalText
import CppSamples.GpuFrequency
import CppSamples.DoWhile
import CppSamples.EllipticIntegral
import CppSamples.TextStream
import CppSamples.GeometryFile
import CppSamples.GridStride
import CppSamples.Histogram
import CppSamples.SharedHistogram
import CppSamples.SharedHistogramCounts
import CppSamples.CosineReversalLoop
import CppSamples.LockedSections
import CppSamples.SpinLock
import CppSamples.BodyAxFlow
import CppSamples.BodyAxStreamlines
import CppSamples.ThreadSafeCounter
import CppSamples.BarrierRounds
import CppSamples.BitOps
import CppSamples.EscapeTime
import CppSamples.OneapiKernels
import CppSamples.IntegerParser
import CppSamples.KeyedLog
import CppSamples.ManifestDownload
import CppSamples.OptionForms
