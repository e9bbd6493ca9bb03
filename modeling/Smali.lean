import Smali.ClassPath
import Smali.Collection.Rename
import Smali.Collection.Save
import Smali.Datum
import Smali.Proofs.CallLine
import Smali.Proofs.ClassPath
import Smali.Proofs.ClassText.Batches
import Smali.Proofs.ClassText.Brackets
import Smali.Proofs.ClassText.LineNumbers
import Smali.Proofs.ClassText.Mixing
import Smali.Proofs.ClassText.Repeats
import Smali.Proofs.ClassText.Values
import Smali.Proofs.Collection.Effects
import Smali.Proofs.Collection.Keys
import Smali.Proofs.Collection.Save
import Smali.Proofs.Collection.Selection
import Smali.Proofs.Collection.Sources
import Smali.Proofs.Document.Modified
import Smali.Proofs.Document.Moves
import Smali.Proofs.Document.Retrying
import Smali.Proofs.Method.ArrayBlock
import Smali.Proofs.Method.RegisterCount
import Smali.Proofs.Parameters
import Smali.Proofs.PutLine
import Smali.Proofs.Rename.Exact
import Smali.Proofs.Rename.Failures
import Smali.Proofs.Rename.Member
import Smali.Proofs.Rename.Undo
import Smali.Proofs.Text.Partition
import Smali.Proofs.Text.Simultaneous
