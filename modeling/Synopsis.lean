import Synopsis.Main
import Synopsis.Proofs.Dispatch.Joining
import Synopsis.Proofs.Match.FilledSlots
import Synopsis.Proofs.Match.FirstSlots
import Synopsis.Proofs.Match.OptionalGroups
import Synopsis.Proofs.Match.Rereading
import Synopsis.Proofs.Node.Unambiguous
import Synopsis.Proofs.Usage.Canonical
import Synopsis.Proofs.Usage.Acceptance
import Synopsis.Proofs.Dispatch.Separation
import Synopsis.Proofs.Usage.Structure
import Synopsis.Proofs.Dispatch.NormalForm
import Synopsis.Proofs.Dispatch.Interleaving
import Synopsis.Proofs.Dispatch.Keywords
import Synopsis.Proofs.Dispatch.Runs
import Synopsis.Proofs.Line.Window
import Synopsis.Proofs.Line.WordEnd
import Synopsis.Proofs.Match.Termination
import Synopsis.Proofs.Match.Window
import Synopsis.Proofs.Console
import Synopsis.Proofs.Node.CommitmentChain
import Synopsis.Proofs.Match.Grouping
import Synopsis.Proofs.Match.Omission
import Synopsis.Proofs.Match.OneInstance
import Synopsis.Proofs.Match.OneWord
import Synopsis.Proofs.Usage.Literal
import Synopsis.Proofs.Usage.Spacing
import Synopsis.Proofs.Dispatch.Liveness
import Synopsis.Proofs.Match.Rollback
import Synopsis.Proofs.Dispatch.KnownKeywords
import Synopsis.Proofs.Text.Location
