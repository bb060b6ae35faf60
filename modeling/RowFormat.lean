import RowFormat.Value.Dict
import RowFormat.Value.Text
import RowFormat.Proofs.JsonAcceptance
import RowFormat.Proofs.RoundTrip
import RowFormat.Proofs.RowIsolation
import RowFormat.Proofs.StreamSteps
import RowFormat.Proofs.DictRoundTrip
import RowFormat.Proofs.SizedReading
import RowFormat.Proofs.ResourceLimits
import RowFormat.Proofs.NullLeaves
import RowFormat.Proofs.DictInsertion
import RowFormat.Proofs.DictEquality
import RowFormat.Proofs.RaisedLimits
import RowFormat.Proofs.ListRegion
import RowFormat.Proofs.LeafSlots
import RowFormat.Proofs.StringTable
import RowFormat.Proofs.NextOffset
import RowFormat.Proofs.EscapeReading
import RowFormat.Proofs.BitmapLookups
import RowFormat.Proofs.DictIntegers
import RowFormat.Proofs.LeafPaths
import RowFormat.Proofs.BytewiseJson
import RowFormat.Proofs.BytewiseTokens
import RowFormat.Proofs.BytewiseParsing
import RowFormat.Proofs.DescriptorBounds
import RowFormat.Proofs.DoubleNumbers
import RowFormat.Proofs.KeyEquality
