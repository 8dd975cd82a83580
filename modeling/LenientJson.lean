import LenientJson.Text.Basic
import LenientJson.Text.Blank
import LenientJson.Text.Letter
import LenientJson.Text.Printable
import LenientJson.Text.Quoted
import LenientJson.Text.Literal
import LenientJson.Number.Integer
import LenientJson.Number.Numeral
import LenientJson.Number.Double
import LenientJson.Number.Shortest
import LenientJson.Number.Decimal
import LenientJson.Number.Date
import LenientJson.Fault
import LenientJson.Members
import LenientJson.Scalar
import LenientJson.Value
import LenientJson.Inference
import LenientJson.Emission
import LenientJson.Layout
import LenientJson.Writer
import LenientJson.Tokener
import LenientJson.Reader
import LenientJson.Parser
import LenientJson.Similar
import LenientJson.Host.Basic
import LenientJson.Host.Equality
import LenientJson.Host.Accessor
import LenientJson.Host.Wrap
import LenientJson.Host.Reflect
import LenientJson.Host.Key
import LenientJson.Store.Basic
import LenientJson.Store.Conversion
import LenientJson.Store.Object
import LenientJson.Store.Array
import LenientJson.Store.Update
import LenientJson.Store.Construct
import LenientJson.Path
import LenientJson.Directory
import LenientJson.Table.Properties
import LenientJson.Table.Bundle
import LenientJson.Settings
import LenientJson.Shell.Session
import LenientJson.Shell.Command
import LenientJson.Shell.Destination
import LenientJson.Shell.Process
import LenientJson.Shell.Console
import LenientJson.Main
import LenientJson.Proofs.Grammar.Lenient
import LenientJson.Proofs.Reading
import LenientJson.Proofs.Members
import LenientJson.Proofs.Lenient.Literal
import LenientJson.Proofs.Lenient.Soundness
import LenientJson.Proofs.Lenient.Completeness
import LenientJson.Proofs.Lenient.Parsing
import LenientJson.Proofs.Lenient.Locality
import LenientJson.Proofs.Grammar.Strict
import LenientJson.Proofs.Number.Digits
import LenientJson.Proofs.Number.Rounding
import LenientJson.Proofs.Number.Shortest
import LenientJson.Proofs.Number.Token
import LenientJson.Proofs.Number.Written
import LenientJson.Proofs.Number.Quantity
import LenientJson.Proofs.Number.Canonical
import LenientJson.Proofs.Number.Inferred
import LenientJson.Proofs.Number.Denoted
import LenientJson.Proofs.Number.Shaved
import LenientJson.Proofs.Number.Hexadecimal
import LenientJson.Proofs.Number.Truncated
import LenientJson.Proofs.Strict.Token
import LenientJson.Proofs.Strict.Parsing
import LenientJson.Proofs.Document
import LenientJson.Proofs.Context
import LenientJson.Proofs.Similar
import LenientJson.Proofs.Layout
import LenientJson.Proofs.Strict.Leaf
import LenientJson.Proofs.Strict.Writing
import LenientJson.Proofs.RoundTrip
import LenientJson.Proofs.Lenient.Rendering
import LenientJson.Proofs.Lenient.Quoted
import LenientJson.Proofs.Progress
import LenientJson.Proofs.Termination
import LenientJson.Proofs.Host.Parts
import LenientJson.Proofs.Host.Digest
import LenientJson.Proofs.Host.Document
import LenientJson.Proofs.Host.Normal
import LenientJson.Proofs.Host.Storable
import LenientJson.Proofs.Host.Exposed
import LenientJson.Proofs.Store.Sound
import LenientJson.Proofs.Store.Call
import LenientJson.Proofs.Store.Coherent
import LenientJson.Proofs.Store.Finite
import LenientJson.Proofs.Store.Intern
import LenientJson.Proofs.Store.Frame
import LenientJson.Proofs.Store.Order
import LenientJson.Proofs.Store.Shown
import LenientJson.Proofs.Store.Collected
import LenientJson.Proofs.Store.Optional
import LenientJson.Proofs.Store.Integer
import LenientJson.Proofs.Comparison
import LenientJson.Proofs.Breaking
import LenientJson.Proofs.Emission.Entries
import LenientJson.Proofs.Emission.Token
import LenientJson.Proofs.Session
import LenientJson.Proofs.Shell.Line
import LenientJson.Proofs.Shell.Conversation
import LenientJson.Proofs.Rounds
import LenientJson.Proofs.Store.Action
import LenientJson.Proofs.Table.Paths
import LenientJson.Proofs.Table.Dotted
import LenientJson.Proofs.Table.Properties
import LenientJson.Proofs.Store.Expansion
import LenientJson.Proofs.Table.Bundle
import LenientJson.Proofs.Table.Flat
import LenientJson.Proofs.Emission.Embedding
import LenientJson.Proofs.Emission.Squeezed
import LenientJson.Proofs.Emission.Indentation
import LenientJson.Proofs.Lenient.Spacing
import LenientJson.Proofs.Lines
import LenientJson.Proofs.Shell.Lookup
import LenientJson.Proofs.Store.Sparse
import LenientJson.Proofs.Tokener.History
