import Toplevel.Main
import Toplevel.Syntax.ExprText
import Toplevel.Value.Inspect
import Toplevel.Value.Key
import Toplevel.Proofs.Code.Places
import Toplevel.Proofs.Code.Readable
import Toplevel.Proofs.Code.Regular
import Toplevel.Proofs.CommandLine.Exit
import Toplevel.Proofs.Interaction.Account
import Toplevel.Proofs.Interaction.ArmOrder
import Toplevel.Proofs.Interaction.Batch
import Toplevel.Proofs.Interaction.Browsing
import Toplevel.Proofs.Interaction.Confinement
import Toplevel.Proofs.Interaction.Conversation
import Toplevel.Proofs.Interaction.Globals
import Toplevel.Proofs.Interaction.Hygiene
import Toplevel.Proofs.Interaction.InStep
import Toplevel.Proofs.Interaction.Loading
import Toplevel.Proofs.Interaction.Meaning
import Toplevel.Proofs.Interaction.Mutation
import Toplevel.Proofs.Interaction.ReadBack
import Toplevel.Proofs.Interaction.Restart
import Toplevel.Proofs.Interaction.Script
import Toplevel.Proofs.Interaction.Unambiguous
import Toplevel.Proofs.Interaction.Unrelated
import Toplevel.Proofs.Syntax.Delimited
import Toplevel.Proofs.Syntax.Keywords
import Toplevel.Proofs.Syntax.Rebuilt
import Toplevel.Proofs.Value.Totality
