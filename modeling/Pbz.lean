import Pbz.Dynamic.RoundTrip
import Pbz.Dynamic.Invariant
import Pbz.Dynamic.Concat
import Pbz.Dynamic.TypeReference
import Pbz.TypeLookup
import Pbz.Wire.RawFields
import Pbz.Dynamic.Ownership
import Pbz.Dynamic.Canonical
import Pbz.Parser.Outcome
import Pbz.Parser.Accepted
import Pbz.Parser.FieldKinds
import Pbz.Loader
import Pbz.Lib.PostOrder
import Pbz.AddFile
import Pbz.Parser.Inheritance
import Pbz.Descriptor.Conformance
import Pbz.Dynamic.Required
import Pbz.Dynamic.Listing
import Pbz.Dynamic.Compaction
import Pbz.Dynamic.UnknownFields
import Pbz.Codegen.ValueGraph
import Pbz.Codegen.KnownReuseAgreement
import Pbz.Dynamic.MapEntries
import Pbz.Codegen.MergeConcat
import Pbz.Codegen.RequiredTree
import Pbz.Wire.Cursor
import Pbz.Wire.RawFieldNumbers
import Pbz.Wire.GroupBytes
import Pbz.Wire.PackedIterators
import Pbz.Codegen.Extendees
import Pbz.Descriptor.WrittenNames
import Pbz.ImportChains
import Pbz.Wire.PackedAppend
import Pbz.Wire.RawFieldLists
import Pbz.Parser.RangeBounds
import Pbz.Parser.IntegerDefaults
import Pbz.Symbols
import Pbz.MemberLookup
import Pbz.SymbolLookup
import Pbz.Lib.Logged
import Pbz.Parser.OwnedStrings
import Pbz.Parser.OwnedOptions
import Pbz.Parser.OwnedDeclarations
import Pbz.Parser.StringReleases
import Pbz.Parser.ExtensionNumbers
import Pbz.Lib.Slices
import Pbz.Parser.Comments
import Pbz.Descriptor.BytesDefaults
import Pbz.Descriptor.FeatureDefaults
import Pbz.Json.Recognition
import Pbz.Text.Quoted
import Pbz.Wkt.TimestampRoundTrip
import Pbz.Wkt.Duration
import Pbz.Wkt.FieldMask
import Pbz.Wkt.StructRoundTrip
import Pbz.Wkt.PayloadGrammar
import Pbz.NameStreams
import Pbz.Text.Integers
import Pbz.Codegen.DirectEncode
import Pbz.Codegen.EmittedRoundTrip
