import PropertyAccess.Path.Segment
import PropertyAccess.Path.Parser
import PropertyAccess.Path.Variants
import PropertyAccess.Number.Conversion
import PropertyAccess.Schema.Basic
import PropertyAccess.Schema.Instance
import PropertyAccess.Property.Handle
import PropertyAccess.Conversion.Defaults
import PropertyAccess.Conversion.Service
import PropertyAccess.Conversion.Strategy
import PropertyAccess.Navigation.Place
import PropertyAccess.Navigation.Engine
import PropertyAccess.Hash.Passing
import PropertyAccess.Proofs.Graph.Ends
import PropertyAccess.Proofs.Graph.Extension
import PropertyAccess.Proofs.Schema.Harmless
import PropertyAccess.Proofs.Conversion.Sources
import PropertyAccess.Proofs.Conversion.Harmless
import PropertyAccess.Proofs.Property.Handle
import PropertyAccess.Proofs.Navigation.FailedWrite
import PropertyAccess.Proofs.Path.Canonical
import PropertyAccess.Proofs.Navigation.Spelling
import PropertyAccess.Proofs.Navigation.History
import PropertyAccess.Proofs.Graph.Spots
import PropertyAccess.Proofs.Navigation.Held
import PropertyAccess.Proofs.Navigation.ArrayWrite
import PropertyAccess.Proofs.Conversion.Arrays
import PropertyAccess.Proofs.Navigation.Way
import PropertyAccess.Proofs.Conversion.Instances
import PropertyAccess.Proofs.Conversion.Deferred
import PropertyAccess.Proofs.Graph.Table
import PropertyAccess.Proofs.Schema.Realm
import PropertyAccess.Proofs.Conversion.Stays
import PropertyAccess.Proofs.Schema.Typing
import PropertyAccess.Proofs.Navigation.Typed
import PropertyAccess.Proofs.Navigation.WellTyped
import PropertyAccess.Proofs.Navigation.Frame
import PropertyAccess.Proofs.Graph.Tree
import PropertyAccess.Proofs.Schema.Since
import PropertyAccess.Proofs.Navigation.Growing
import PropertyAccess.Proofs.Navigation.ReadBack
import PropertyAccess.Proofs.Conversion.Ready
import PropertyAccess.Proofs.Conversion.Contents
import PropertyAccess.Proofs.Graph.Steps
import PropertyAccess.Proofs.Schema.Sparing
import PropertyAccess.Proofs.Navigation.Steps
import PropertyAccess.Proofs.Navigation.Conduct
import PropertyAccess.Proofs.Navigation.Ceiling
import PropertyAccess.Proofs.Graph.Additions
import PropertyAccess.Proofs.Schema.Enclosed
import PropertyAccess.Proofs.Conversion.TextKeys
import PropertyAccess.Proofs.Navigation.Annexed
import PropertyAccess.Proofs.Navigation.Origin
import PropertyAccess.Proofs.Navigation.Vivified
import PropertyAccess.Proofs.Navigation.Consulted
import PropertyAccess.Proofs.Navigation.Batches
import PropertyAccess.Proofs.Conversion.Fresh
import PropertyAccess.Proofs.Graph.Renewal
import PropertyAccess.Proofs.Navigation.Planned
import PropertyAccess.Proofs.Navigation.Rereading
import PropertyAccess.Proofs.Navigation.Lengthened
import PropertyAccess.Proofs.Navigation.Additive
import PropertyAccess.Proofs.Conversion.Shortcuts
import PropertyAccess.Proofs.Conversion.Latest
import PropertyAccess.Proofs.Navigation.Keywise
import PropertyAccess.Proofs.Navigation.Unwritable
import PropertyAccess.Proofs.Navigation.Probes
import PropertyAccess.Proofs.Path.Representable
import PropertyAccess.Proofs.Path.Stripped
import PropertyAccess.Proofs.Path.Addressed
import PropertyAccess.Proofs.Navigation.Inside
import PropertyAccess.Proofs.Navigation.Rebased
import PropertyAccess.Proofs.Navigation.Composed
import PropertyAccess.Proofs.Schema.Inherited
import PropertyAccess.Proofs.Property.MemberTypes
import PropertyAccess.Proofs.Property.ByName
import PropertyAccess.Proofs.Schema.Assignability
import PropertyAccess.Proofs.Number.Numeral
import PropertyAccess.Proofs.Conversion.Integers
import PropertyAccess.Proofs.Graph.Ordering
import PropertyAccess.Proofs.Conversion.Characters
import PropertyAccess.Proofs.Graph.Inserted
import PropertyAccess.Proofs.Schema.Fillers
import PropertyAccess.Proofs.Conversion.ServiceTable
import PropertyAccess.Proofs.Graph.Merged
import PropertyAccess.Proofs.Document.Decoded
import PropertyAccess.Proofs.Hash.Passing
