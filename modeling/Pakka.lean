import Pakka.CapPaths
import Pakka.CodecParts
import Pakka.Crc32Bitwise
import Pakka.DeflateVendored
import Pakka.DkMemory
import Pakka.EndRecord
import Pakka.ExtractRun
import Pakka.HandleInvariant
import Pakka.InterleavedReaders
import Pakka.LockedWriters
import Pakka.MutatorSteps
import Pakka.NameNormal
import Pakka.NameSafety
import Pakka.PakLimit
import Pakka.Reextraction
import Pakka.StagedView
import Pakka.StoredTail
import Pakka.TreeListing
import Pakka.Utf8Substitute
import Pakka.ZipNameCodec
