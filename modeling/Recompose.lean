import Recompose.Assembly.Class
import Recompose.Cell
import Recompose.Proofs.Reload.Effective
import Recompose.Proofs.Scope.Numbering
import Recompose.Reload.Tracker
import Recompose.Snapshot.Render
import Recompose.Proofs.Snapshot.Places
import Recompose.Proofs.Snapshot.Closure
import Recompose.Proofs.Scope.Build
import Recompose.Proofs.Bytes.Layout
import Recompose.Proofs.Pool.Layout
import Recompose.Proofs.Assembly.Draft
import Recompose.Proofs.Assembly.Names
import Recompose.Proofs.Instruction.Decode
import Recompose.Proofs.Assembly.Op
import Recompose.Proofs.Ascending
import Recompose.Proofs.Assembly.Listing
import Recompose.Proofs.Assembly.Code
import Recompose.Proofs.Assembly.Body
import Recompose.Proofs.Assembly.Method
import Recompose.Proofs.Assembly.Class
import Recompose.Proofs.Hash.Mix
import Recompose.Proofs.Snapshot.Diff
import Recompose.Proofs.Snapshot.Order
import Recompose.Proofs.Snapshot.SameTrees
import Recompose.Proofs.Snapshot.Rehash
import Recompose.Proofs.Snapshot.Dependents
import Recompose.Proofs.Reload.Changes
import Recompose.Proofs.Reload.Buffered
import Recompose.Proofs.Reload.Alike
import Recompose.Proofs.Bytes.Results
import Recompose.Proofs.Hash.Words
import Recompose.Proofs.Pool.Loaded
import Recompose.Proofs.Hash.Stream
import Recompose.Proofs.Snapshot.Unrelated
import Recompose.Proofs.Scope.Nesting
import Recompose.Proofs.Bytes.Splits
import Recompose.Proofs.Bytes.Below
import Recompose.Proofs.Pool.Renumber
import Recompose.Proofs.Instruction.Renumber
import Recompose.Proofs.Bytes.Format
import Recompose.Proofs.ClassFile.Sections
import Recompose.Proofs.ClassFile.Payload
import Recompose.Proofs.ClassFile.PrefixFree
import Recompose.Proofs.ClassFile.Owner
import Recompose.Proofs.Reload.Accounting
import Recompose.Proofs.Reload.Discarded
import Recompose.Proofs.Hash.Edits
import Recompose.Proofs.Instruction.Tiling
import Recompose.Proofs.Instruction.Labels
import Recompose.Proofs.Instruction.Extents
import Recompose.Proofs.Scope.Closing
import Recompose.Proofs.Scope.Links
import Recompose.Proofs.Scope.Descendants
import Recompose.Proofs.Scope.Keys
import Recompose.Proofs.Scope.Limit
import Recompose.Proofs.Scope.Arena
import Recompose.Proofs.Snapshot.Report
import Recompose.Proofs.Snapshot.Tables
import Recompose.Proofs.Snapshot.Search
import Recompose.Proofs.Text.Sequences
import Recompose.Proofs.Pool.Slots
import Recompose.Proofs.ClassFile.Annotations
import Recompose.Proofs.Bytes.Steps
import Recompose.Proofs.Cell.Sharing
import Recompose.Proofs.Cell.Updates
