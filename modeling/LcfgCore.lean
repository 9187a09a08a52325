import LcfgCore.Library.LinearProbe
import LcfgCore.Library.IdTable
import LcfgCore.Library.LinkedList
import LcfgCore.Library.RefCount
import LcfgCore.Library.Run
import LcfgCore.Library.Outcome
import LcfgCore.Library.BubbleSort
import LcfgCore.Library.Serial
import LcfgCore.Library.QSort
import LcfgCore.Library.Output
import LcfgCore.Library.KeepBest
import LcfgCore.Library.Fields
import LcfgCore.Library.Substring
import LcfgCore.Library.Buffer
import LcfgCore.Library.Select
import LcfgCore.Library.SignedTruth
import LcfgCore.Common
import LcfgCore.Derivation
import LcfgCore.DerivationText
import LcfgCore.DerivationMap
import LcfgCore.DerivationStore
import LcfgCore.DerivationSharing
import LcfgCore.DerivationContent
import LcfgCore.DerivationRuns
import LcfgCore.DerivationObjects
import LcfgCore.Packages.Version
import LcfgCore.Packages.Package
import LcfgCore.Packages.VersionOrder
import LcfgCore.Packages.Setters
import LcfgCore.Packages.Spec
import LcfgCore.Packages.SpecRoundTrip
import LcfgCore.Packages.SpecStyles
import LcfgCore.Packages.Rpm
import LcfgCore.Packages.Cpp
import LcfgCore.Packages.CppRoundTrip
import LcfgCore.Packages.CppFile
import LcfgCore.Packages.List
import LcfgCore.Packages.MergeRuns
import LcfgCore.Packages.MergeResult
import LcfgCore.Packages.MergeOrder
import LcfgCore.Packages.Sort
import LcfgCore.Packages.Set
import LcfgCore.Packages.Resize
import LcfgCore.Packages.SetRuns
import LcfgCore.Packages.Growth
import LcfgCore.Packages.MergeSet
import LcfgCore.Packages.Styles
import LcfgCore.Packages.Print
import LcfgCore.Context.List
import LcfgCore.Context.Update
import LcfgCore.Context.Diff
import LcfgCore.Context.File
import LcfgCore.Context.Pending
import LcfgCore.Context.Grammar
import LcfgCore.Context.Parser
import LcfgCore.Context.Scanner
import LcfgCore.Context.Precedence
import LcfgCore.Context.Validity
import LcfgCore.Context.Combine
import LcfgCore.Components.ResList
import LcfgCore.Components.Component
import LcfgCore.Components.Set
import LcfgCore.Components.Table
import LcfgCore.Components.Sharing
import LcfgCore.Components.Effects
import LcfgCore.Components.Family
import LcfgCore.Components.MergeReport
import LcfgCore.Components.Copies
import LcfgCore.Resources.Resource
import LcfgCore.Resources.Compare
import LcfgCore.Resources.Tags
import LcfgCore.Resources.Text
import LcfgCore.Resources.Entities
import LcfgCore.Resources.Templates
import LcfgCore.Resources.Setters
import LcfgCore.Resources.Attributes
import LcfgCore.Resources.Key
import LcfgCore.Resources.TypeString
import LcfgCore.Resources.Mutate
import LcfgCore.Resources.Atomicity
import LcfgCore.Components.View
import LcfgCore.Components.Loading
import LcfgCore.Components.StatusFile
import LcfgCore.Components.StatusRoundTrip
import LcfgCore.Utils.Scanning
import LcfgCore.Utils.Split
import LcfgCore.Components.Store
import LcfgCore.Components.Signature
import LcfgCore.Components.Diff
import LcfgCore.Profile.Diff
import LcfgCore.Profile.HoldFile
import LcfgCore.Library.Shell
import LcfgCore.Resources.Environment
import LcfgCore.Components.Export
import LcfgCore.Bdb.Read
import LcfgCore.Components.Environment
import LcfgCore.Components.EnvironmentRoundTrip
import LcfgCore.Library.Represent
import LcfgCore.Packages.Match
import LcfgCore.Components.MergeKeys
import LcfgCore.Components.SetMerge
import LcfgCore.Library.Items
import LcfgCore.Resources.FindItem
import LcfgCore.Resources.Substitute
import LcfgCore.Resources.TagTokens
import LcfgCore.Resources.Priority
import LcfgCore.Resources.Places
import LcfgCore.Library.Pieces
import LcfgCore.Library.DLinked
import LcfgCore.Resources.TagNodes
import LcfgCore.Resources.TagSets
import LcfgCore.DerivationCache
import LcfgCore.Library.Marks
import LcfgCore.Library.Xml
import LcfgCore.Library.Assignments
import LcfgCore.Packages.DebianIndex
import LcfgCore.Packages.CppMarker
import LcfgCore.Packages.Flags
import LcfgCore.Packages.Xml
import LcfgCore.Context.Commute
import LcfgCore.Context.PendingChange
import LcfgCore.Library.BucketCursor
import LcfgCore.Packages.SetIterator
import LcfgCore.Components.Iterator
import LcfgCore.Components.Digest
import LcfgCore.Bdb.ReadAll
import LcfgCore.Components.Prioritised
import LcfgCore.Library.XmlReader
import LcfgCore.Resources.Inherited
import LcfgCore.Xml.Resource
import LcfgCore.Xml.Components
