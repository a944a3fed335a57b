import BSDLibC.Base64.Canonical
import BSDLibC.Bm.Search
import BSDLibC.Btree.FilterExact
import BSDLibC.Btree.Threshold
import BSDLibC.Cdb.Failure
import BSDLibC.Cdb.Limits
import BSDLibC.Cdb.Safety
import BSDLibC.Cdb.Values
import BSDLibC.Digest.Messages
import BSDLibC.Env.Replaced
import BSDLibC.Glob.Brace
import BSDLibC.Glob.Expansion
import BSDLibC.Glob.Match
import BSDLibC.Glob.Tokens
import BSDLibC.HashDb.Address
import BSDLibC.HashDb.BigKey
import BSDLibC.HashDb.Directory
import BSDLibC.HashDb.PageRuns
import BSDLibC.Heapsort.Correct
import BSDLibC.Hsearch.Sizes
import BSDLibC.Humanize.Dehumanize
import BSDLibC.Humanize.Scale
import BSDLibC.Inet.CidrNtop
import BSDLibC.Inet.Quad
import BSDLibC.Inet.RoundTrip
import BSDLibC.Memmem.Correct
import BSDLibC.Mergesort.Gallop
import BSDLibC.MiVectorHash.Alignment
import BSDLibC.Mpool.Transparency
import BSDLibC.Nameser.RoundTrip
import BSDLibC.Nameser.Unpack
import BSDLibC.Nameser.UnpackSafety
import BSDLibC.Qsort.Correct
import BSDLibC.Quad.Arithmetic
import BSDLibC.Radix.Gang
import BSDLibC.Radix.GangLookup
import BSDLibC.Radix.TagRuns
import BSDLibC.Rand48.Generator
import BSDLibC.Randomid.Runs
import BSDLibC.RbTree.Foreach
import BSDLibC.RbTree.SortedSet
import BSDLibC.Rpst.Query
import BSDLibC.Rpst.Runs
import BSDLibC.Setmode.Removal
import BSDLibC.Shquote.Inverse
import BSDLibC.Strsuftoll.Exact
import BSDLibC.Strto.Range
import BSDLibC.Tls.Runs
import BSDLibC.Tsearch.Walk
import BSDLibC.Utf7.Bounds
import BSDLibC.Utf7.Restarts
import BSDLibC.Utf8.RoundTrip
import BSDLibC.Vis.Entities
import BSDLibC.Vis.References
import BSDLibC.Vis.Styles
import BSDLibC.Xdr.Memory
import BSDLibC.Xdrrec.Assembly
import BSDLibC.Xdrrec.Messages
import BSDLibC.Xdrrec.Position
