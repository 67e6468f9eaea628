import Ziftsieve.Lz4
import Ziftsieve.Gzip
import Ziftsieve.Snappy
import Ziftsieve.Zstd

/-!
# Choosing a parser

`extract_from_bytes`, in a build with every format's feature on.
-/

namespace Ziftsieve

def extractFromBytes (ext : External) (format : CompressionFormat) (data : Bytes) :
    Run ZiftError (List CompressedBlock) :=
  match format with
  | .lz4 => Lz4.parseLz4Blocks data
  | .snappy => Snappy.extractLiterals ext data
  | .gzip => Gzip.extractLiterals ext data
  | .zstd => Zstd.extractLiterals data

end Ziftsieve
