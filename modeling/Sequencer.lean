import Sequencer.Main
import Sequencer.Rehearsal.Parts
import Sequencer.Proofs.Authoring
import Sequencer.Proofs.Registry.Reconcile
import Sequencer.Proofs.Registry.Synchrony
import Sequencer.Proofs.Registry.Precedence
import Sequencer.Proofs.Registry.Insertion
import Sequencer.Proofs.Registry.Survival
import Sequencer.Proofs.Registry.ClosedForm
import Sequencer.Proofs.Nesting
import Sequencer.Proofs.Binding.Occurrences
import Sequencer.Proofs.Binding.Allot
import Sequencer.Proofs.Playback.Adequacy
import Sequencer.Proofs.Cursor
import Sequencer.Proofs.Pass.Arrangement
import Sequencer.Proofs.Pass.Fork
import Sequencer.Proofs.Pass.Once
import Sequencer.Proofs.Pass.Repeat
import Sequencer.Proofs.Pass.Branches
import Sequencer.Proofs.Pass.Strides
import Sequencer.Proofs.Timing.Duration
import Sequencer.Proofs.Timing.Joins
import Sequencer.Proofs.Timing.Loops
import Sequencer.Proofs.Timing.Playing
import Sequencer.Proofs.Player.Commands
import Sequencer.Proofs.Playback.Moves
import Sequencer.Proofs.Player.Stopping
import Sequencer.Proofs.Playback.Rounds
import Sequencer.Proofs.Player.LifeCycle
import Sequencer.Proofs.Player.Tickets
import Sequencer.Proofs.Recital.Basic
import Sequencer.Proofs.Recital.Playing
import Sequencer.Proofs.Binding.Reconcile
import Sequencer.Proofs.Binding.Resolve
import Sequencer.Proofs.Binding.Address
import Sequencer.Proofs.Playback.Whereabouts
import Sequencer.Proofs.Player.Addressing
import Sequencer.Proofs.Binding.Revision
import Sequencer.Proofs.Playback.Past
import Sequencer.Proofs.Playback.Laps
import Sequencer.Proofs.Playback.Steering
import Sequencer.Proofs.Player.Rerun
import Sequencer.Proofs.Playback.Termination
import Sequencer.Proofs.Player.Termination
import Sequencer.Proofs.Pass.Start
import Sequencer.Proofs.Player.Backlog
import Sequencer.Proofs.Player.Stepping
import Sequencer.Proofs.Player.Timekeeping
import Sequencer.Proofs.Binding.Editing
import Sequencer.Proofs.Registry.Edits
import Sequencer.Proofs.Registry.Numbering
import Sequencer.Proofs.Parameters
import Sequencer.Proofs.Ron.Reader
import Sequencer.Proofs.Binding.Ron
import Sequencer.Proofs.Settings
