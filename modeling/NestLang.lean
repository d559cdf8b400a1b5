import NestLang.Check
import NestLang.Eval
import NestLang.Machine.Trace
import NestLang.Proofs.Calls
import NestLang.Proofs.Chunks
import NestLang.Proofs.Concatenation
import NestLang.Proofs.Correctness
import NestLang.Proofs.Declarations
import NestLang.Proofs.Decoding
import NestLang.Proofs.Edits
import NestLang.Proofs.Erasure
import NestLang.Proofs.Failures
import NestLang.Proofs.GlobalFrame
import NestLang.Proofs.Heights
import NestLang.Proofs.Lifecycle
import NestLang.Proofs.Loops
import NestLang.Proofs.Reading
import NestLang.Proofs.Renaming
import NestLang.Proofs.Return
import NestLang.Proofs.Scoping
import NestLang.Proofs.Slots
import NestLang.Proofs.Structure
import NestLang.Proofs.Verdict
import NestLang.Run
import NestLang.Tree.Erase
import NestLang.Tree.Rename
import NestLang.Tree.Text
