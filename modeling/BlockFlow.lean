import BlockFlow.Frontend
import BlockFlow.Settings
import BlockFlow.Proofs.Edit.Frame
import BlockFlow.Proofs.Edit.Loops
import BlockFlow.Proofs.Edit.Start
import BlockFlow.Proofs.History
import BlockFlow.Proofs.Layout.Connections
import BlockFlow.Proofs.Layout.Separation
import BlockFlow.Proofs.Layout.Dragging
import BlockFlow.Proofs.Layout.Zooming
import BlockFlow.Proofs.Names
import BlockFlow.Proofs.Tree.Orphans
import BlockFlow.Proofs.Tree.Termination
import BlockFlow.Proofs.Tree.Apart
import BlockFlow.Proofs.Edit.Converting
import BlockFlow.Proofs.Edit.Deleting
import BlockFlow.Proofs.Edit.Repointing
import BlockFlow.Proofs.Edit.Adding
import BlockFlow.Proofs.Edit.Branching
import BlockFlow.Proofs.Edit.Calls
import BlockFlow.Proofs.Edit.Copying
import BlockFlow.Proofs.Edit.CuttingOut
import BlockFlow.Proofs.Edit.Linking
import BlockFlow.Proofs.RemovalOrder
import BlockFlow.Proofs.Tree.Selections
import BlockFlow.Proofs.Tree.Inlining
import BlockFlow.Proofs.Edit.Unneeded
import BlockFlow.Proofs.Edit.Creating
import BlockFlow.Proofs.Edit.Interfaces
import BlockFlow.Proofs.Edit.Renaming
import BlockFlow.Proofs.Form.Field
import BlockFlow.Proofs.Outline.Scalars
import BlockFlow.Proofs.IdSource
import BlockFlow.Proofs.LinkAnswers
import BlockFlow.Proofs.Redirect
import BlockFlow.Proofs.Edit.Slots
import BlockFlow.Proofs.Rendering
import BlockFlow.Proofs.Tree.VariableFlow
import BlockFlow.Proofs.Edit.Locating
import BlockFlow.Proofs.Edit.Expanding
import BlockFlow.Proofs.Outline.Reindent
import BlockFlow.Proofs.ReferencePaths
import BlockFlow.Proofs.SharedReporters
