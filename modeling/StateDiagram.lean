import StateDiagram.Graph.Building
import StateDiagram.Main
import StateDiagram.Proofs.Naming
import StateDiagram.Proofs.Reading
import StateDiagram.Proofs.Blocks
import StateDiagram.Proofs.Keyless
import StateDiagram.Proofs.Renaming
import StateDiagram.Proofs.KeyForms
import StateDiagram.Proofs.Entries
import StateDiagram.Proofs.Construction
import StateDiagram.Proofs.Described
import StateDiagram.Proofs.InputFaults
import StateDiagram.Proofs.Reordering
import StateDiagram.Proofs.Multiplicity
import StateDiagram.Proofs.Reuse
import StateDiagram.Proofs.Arrows
import StateDiagram.Proofs.Picture
import StateDiagram.Proofs.Interleaving
import StateDiagram.Proofs.Growth
import StateDiagram.Proofs.Storage
import StateDiagram.Proofs.Effects
import StateDiagram.Proofs.Preorder
import StateDiagram.Proofs.JoinedLabels
import StateDiagram.Proofs.Escapes
import StateDiagram.Proofs.Fragments
import StateDiagram.Proofs.Suffixes
import StateDiagram.Proofs.Lines
import StateDiagram.Proofs.ByteForms
import StateDiagram.Proofs.TargetIndex
import StateDiagram.Proofs.CallChain
import StateDiagram.Proofs.UniqueKeys
import StateDiagram.Proofs.DecoderLaws
import StateDiagram.Proofs.Encodings
import StateDiagram.Proofs.StandardDecoders
import StateDiagram.Proofs.Loading
