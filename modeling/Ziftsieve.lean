import Ziftsieve.ArchivesExact
import Ziftsieve.BitIoRefines
import Ziftsieve.BitstreamRefines
import Ziftsieve.BloomRun
import Ziftsieve.BloomSaved
import Ziftsieve.CodeLengthSound
import Ziftsieve.Detect
import Ziftsieve.DetectExact
import Ziftsieve.ExtractSafe
import Ziftsieve.FseTiling
import Ziftsieve.FseWeights
import Ziftsieve.GzipAppend
import Ziftsieve.GzipCut
import Ziftsieve.GzipExact
import Ziftsieve.GzipRatio
import Ziftsieve.GzipSafe
import Ziftsieve.GzipSound
import Ziftsieve.GzipSpans
import Ziftsieve.HuffmanPrefix
import Ziftsieve.LiteralBounds
import Ziftsieve.LiteralsExact
import Ziftsieve.LiteralsSound
import Ziftsieve.Lz4Cut
import Ziftsieve.Lz4IndexSound
import Ziftsieve.Lz4Safe
import Ziftsieve.Lz4Spans
import Ziftsieve.Lz4Truncate
import Ziftsieve.SearchExact
import Ziftsieve.SnappyIgnored
import Ziftsieve.SnappySound
import Ziftsieve.SnappySpans
import Ziftsieve.StreamingSound
import Ziftsieve.TarPaths
import Ziftsieve.TarballSafe
import Ziftsieve.TarballSound
import Ziftsieve.UncompressedLen
import Ziftsieve.ZstdExact
import Ziftsieve.ZstdSafe
import Ziftsieve.ZstdStreams
