import ScriptC.Files.Folder
import ScriptC.Main
import ScriptC.Proofs.Flow.Caches
import ScriptC.Proofs.Flow.Labels
import ScriptC.Proofs.Function.Partition
import ScriptC.Proofs.Flow.Areas
import ScriptC.Proofs.Flow.Operands
import ScriptC.Proofs.Slots
import ScriptC.Proofs.Lower.Sequencing
import ScriptC.Proofs.C.Chars
import ScriptC.Proofs.C.Render
import ScriptC.Proofs.Source
import ScriptC.Proofs.Text.ByteOrder
import ScriptC.Proofs.Double.PropertyName
import ScriptC.Proofs.Value
import ScriptC.Value.Operators
