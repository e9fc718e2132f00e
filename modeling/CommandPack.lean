import CommandPack.Main
import CommandPack.Proofs.Command.Summoning
import CommandPack.Proofs.Linking.Artifacts
import CommandPack.Proofs.Linking.Calling
import CommandPack.Proofs.Linking.Definitions
import CommandPack.Proofs.Linking.Recursion
import CommandPack.Proofs.Linking.Renumbering
import CommandPack.Proofs.Linking.Verbatim
import CommandPack.Proofs.Lowering.Calls
import CommandPack.Proofs.Lowering.Differences
import CommandPack.Proofs.Lowering.General
import CommandPack.Proofs.Lowering.Literal
import CommandPack.Proofs.Lowering.Releasing
import CommandPack.Proofs.Lowering.Tagging
