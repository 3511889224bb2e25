import StyleLayers.Config.Text
import StyleLayers.Plugin.Run
import StyleLayers.Plugin.Script
import StyleLayers.Proofs.Style.Placement
import StyleLayers.Proofs.Css.Boundary
import StyleLayers.Proofs.Selector.Grammar
import StyleLayers.Proofs.Selector.Scanning
import StyleLayers.Proofs.Css.Trailing
import StyleLayers.Proofs.Style.EscapedClass
import StyleLayers.Proofs.Css.Points
import StyleLayers.Proofs.Selector.Plain
import StyleLayers.Proofs.Selector.PlainScan
import StyleLayers.Proofs.Selector.Prefixing
import StyleLayers.Proofs.Style.Prefix
import StyleLayers.Proofs.Json.Keys
import StyleLayers.Proofs.Config.Overriding
import StyleLayers.Proofs.Plugin.Additions
import StyleLayers.Proofs.Plugin.Building
import StyleLayers.Proofs.Config.LayeredVariants
import StyleLayers.Proofs.Json.Reading
import StyleLayers.Proofs.Config.Distinct
import StyleLayers.Proofs.Rule.Frames
import StyleLayers.Proofs.Variant.Editing
import StyleLayers.Proofs.Config.Repeating
import StyleLayers.Proofs.Plugin.Settling
import StyleLayers.Proofs.Config.Deciding
import StyleLayers.Proofs.Plugin.Scales
import StyleLayers.Proofs.Config.Apart
import StyleLayers.Proofs.Plugin.Reading
import StyleLayers.Proofs.Plugin.Reaching
import StyleLayers.Proofs.Plugin.Failing
import StyleLayers.Proofs.Plugin.Parting
import StyleLayers.Proofs.Css.Stops
import StyleLayers.Proofs.Selector.Balance
import StyleLayers.Proofs.Selector.Composing
import StyleLayers.Proofs.Style.EscapedNesting
import StyleLayers.Proofs.Text.Trimming
import StyleLayers.Proofs.Variant.Lifting
import StyleLayers.Proofs.Variant.Listing
import StyleLayers.Proofs.Rule.Indenting
import StyleLayers.Proofs.Variant.Declaring
import StyleLayers.Proofs.Style.Selectorless
import StyleLayers.Proofs.Css.Beside
import StyleLayers.Proofs.Css.Agreeing
import StyleLayers.Proofs.Css.Cutting
import StyleLayers.Proofs.Selector.Rejoining
import StyleLayers.Proofs.Rule.Keeping
import StyleLayers.Proofs.Selector.Scoping
import StyleLayers.Proofs.Rule.Lines
import StyleLayers.Proofs.Sheet.Printing
import StyleLayers.Proofs.Config.PathReading
import StyleLayers.Proofs.Config.Descending
import StyleLayers.Proofs.Config.Spelling
import StyleLayers.Proofs.Config.Joining
import StyleLayers.Proofs.Config.Fallback
import StyleLayers.Proofs.Plugin.OpacityScale
import StyleLayers.Proofs.Json.Alike
import StyleLayers.Proofs.Config.Grouping
import StyleLayers.Proofs.Config.Commuting
import StyleLayers.Proofs.Plugin.Ordering
import StyleLayers.Proofs.Variant.Inserting
import StyleLayers.Proofs.Variant.Marking
import StyleLayers.Proofs.Style.CamelCase
import StyleLayers.Proofs.Variant.Encoding
import StyleLayers.Proofs.Variant.Changing
import StyleLayers.Proofs.Selector.Walking
import StyleLayers.Proofs.Selector.Slicing
