import KeyOrder.Config.Json
import KeyOrder.Field.Value
import KeyOrder.Key.Sort
import KeyOrder.Registry.Config
import KeyOrder.Proofs.Decimal.Exact
import KeyOrder.Proofs.Key.Record
import KeyOrder.Proofs.Decimal.Growth
import KeyOrder.Proofs.Decimal.RoundTrip
import KeyOrder.Proofs.Registry.Steps
import KeyOrder.Proofs.Field.Delimited
import KeyOrder.Proofs.Key.Delimited
import KeyOrder.Proofs.NameTable
import KeyOrder.Proofs.Registry.Registrations
import KeyOrder.Proofs.Registry.Bindings
import KeyOrder.Proofs.Config.RoundTrip
import KeyOrder.Proofs.Natural.Exact
import KeyOrder.Proofs.Natural.Construction
import KeyOrder.Proofs.Decimal.Grammar
import KeyOrder.Proofs.Decimal.Canonical
import KeyOrder.Proofs.CompactInt.Layout
import KeyOrder.Proofs.Registry.Configured
import KeyOrder.Proofs.Field.FloatPlace
import KeyOrder.Proofs.Registry.ThreeWay
import KeyOrder.Proofs.Config.Spelling
import KeyOrder.Proofs.PowerTable.Tiling
import KeyOrder.Proofs.Decimal.Narrowed
import KeyOrder.Proofs.Decimal.Shortcut
import KeyOrder.Proofs.Field.Operations
