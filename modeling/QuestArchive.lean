import QuestArchive.Main
import QuestArchive.Proofs.Prs.Packing
import QuestArchive.Proofs.Prs.Spelling
import QuestArchive.Proofs.Prs.Repeats
import QuestArchive.Proofs.Prs.Pruning
import QuestArchive.Proofs.Prs.RoundTrip
import QuestArchive.Proofs.Prs.Expansion
import QuestArchive.Proofs.Prs.Delimiting
import QuestArchive.Proofs.Number.Rounding
import QuestArchive.Proofs.Number.Single
import QuestArchive.Proofs.Bytes.Reading
import QuestArchive.Proofs.Bytes.Results
import QuestArchive.Proofs.ObjectCode.Operand
import QuestArchive.Proofs.ObjectCode.Rewriting
import QuestArchive.Proofs.Bytes.Faults
import QuestArchive.Proofs.ObjectCode.Instructions
import QuestArchive.Proofs.ObjectCode.Following
import QuestArchive.Proofs.ObjectCode.Filling
import QuestArchive.Proofs.ObjectCode.Placing
import QuestArchive.Proofs.ObjectCode.Tiling
import QuestArchive.Proofs.ObjectCode.BoundedReading
import QuestArchive.Proofs.ObjectCode.Lossless
import QuestArchive.Proofs.ObjectCode.Encoding
import QuestArchive.Proofs.ObjectCode.Laying
import QuestArchive.Proofs.ObjectCode.Packing
import QuestArchive.Proofs.ObjectCode.Coding
import QuestArchive.Proofs.ObjectCode.Addressing
import QuestArchive.Proofs.ObjectCode.Narrowing
import QuestArchive.Proofs.ObjectCode.Tracing
import QuestArchive.Proofs.ObjectCode.LaidSegments
import QuestArchive.Proofs.ObjectCode.RoundTrip
import QuestArchive.Proofs.ObjectCode.Stopping
import QuestArchive.Proofs.ObjectCode.Containment
import QuestArchive.Proofs.Number.Decimal
import QuestArchive.Proofs.Script.Numbers
import QuestArchive.Proofs.Text.Quoted
import QuestArchive.Proofs.Script.Scanning
import QuestArchive.Proofs.Script.Splitting
import QuestArchive.Proofs.Script.Values
import QuestArchive.Proofs.Script.Mnemonics
import QuestArchive.Proofs.Script.Calls
import QuestArchive.Proofs.Script.Arguments
import QuestArchive.Proofs.Script.Folding
import QuestArchive.Proofs.Script.Refolding
import QuestArchive.Proofs.Script.Reading
import QuestArchive.Proofs.Script.Assembling
import QuestArchive.Proofs.Script.Containment
import QuestArchive.Proofs.Script.Typing
import QuestArchive.Proofs.Script.Drafting
import QuestArchive.Proofs.Script.Storing
import QuestArchive.Proofs.Script.Joining
import QuestArchive.Proofs.Script.Segmenting
import QuestArchive.Proofs.Script.Checking
import QuestArchive.Proofs.Script.Locality
import QuestArchive.Proofs.Script.Showing
import QuestArchive.Proofs.Script.Unreadable
import QuestArchive.Proofs.Script.Reassembling
import QuestArchive.Proofs.Script.Merging
import QuestArchive.Proofs.Script.Texts
import QuestArchive.Proofs.Script.Breaking
import QuestArchive.Proofs.Script.Filing
import QuestArchive.Proofs.Lists
import QuestArchive.Proofs.Prs.Length
import QuestArchive.Proofs.Number.Error
import QuestArchive.Proofs.Number.Storable
import QuestArchive.Proofs.Bytes.Field
import QuestArchive.Proofs.Bytes.Cutting
import QuestArchive.Proofs.Bytes.Fetching
import QuestArchive.Proofs.Bytes.Windows
import QuestArchive.Proofs.Bytes.Sessions
import QuestArchive.Proofs.Bytes.Mirroring
import QuestArchive.Proofs.Entity.Angle
import QuestArchive.Proofs.Entity.Record
import QuestArchive.Proofs.Entity.Grouping
import QuestArchive.Proofs.Entity.Section
import QuestArchive.Proofs.Entity.Table
import QuestArchive.Proofs.Entity.Grammar
import QuestArchive.Proofs.Entity.RoundTrip
import QuestArchive.Proofs.Entity.Verbatim
import QuestArchive.Proofs.Number.Distance
import QuestArchive.Proofs.Quest.Editing
import QuestArchive.Proofs.Archive.Chunk
import QuestArchive.Proofs.Archive.File
import QuestArchive.Proofs.Archive.Reading
import QuestArchive.Proofs.Archive.RoundTrip
import QuestArchive.Proofs.Archive.Layout
import QuestArchive.Proofs.Archive.Reassembly
import QuestArchive.Proofs.Archive.Reordering
import QuestArchive.Proofs.ObjectCode.Writable
import QuestArchive.Proofs.ObjectCode.Stability
import QuestArchive.Proofs.ObjectCode.Extents
import QuestArchive.Proofs.ObjectCode.NegativeOffsets
import QuestArchive.Proofs.ObjectCode.Decoding
import QuestArchive.Proofs.ObjectCode.Suiting
import QuestArchive.Proofs.ObjectCode.Stepping
import QuestArchive.Proofs.ObjectCode.Exploring
import QuestArchive.Proofs.ObjectCode.Modes
import QuestArchive.Proofs.ObjectCode.Passing
import QuestArchive.Proofs.ObjectCode.Failing
import QuestArchive.Proofs.Quest.ScriptFile
import QuestArchive.Proofs.Quest.Header
import QuestArchive.Proofs.Quest.Container
import QuestArchive.Proofs.Quest.Inhabitant
import QuestArchive.Proofs.Quest.Name
import QuestArchive.Proofs.Quest.Outline
import QuestArchive.Proofs.Quest.Label
import QuestArchive.Proofs.Quest.StartCode
import QuestArchive.Proofs.Quest.Opening
import QuestArchive.Proofs.Quest.Writing
import QuestArchive.Proofs.Quest.Fitting
import QuestArchive.Proofs.Quest.RoundTrip
import QuestArchive.Proofs.Quest.Stability
import QuestArchive.Proofs.Quest.Defects
import QuestArchive.Proofs.Quest.Scripted
import QuestArchive.Proofs.Quest.Episode
import QuestArchive.Proofs.Shell.TextFile
import QuestArchive.Proofs.Shell.Exporting
import QuestArchive.Proofs.Shell.Dumping
