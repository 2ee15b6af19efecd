import KannadaScript.Main
import KannadaScript.Proofs.Code.Counting
import KannadaScript.Proofs.Code.Operators
import KannadaScript.Proofs.Code.Parentheses
import KannadaScript.Proofs.Code.Truncation
import KannadaScript.Proofs.Command.Agreement
import KannadaScript.Proofs.Command.TokenDump
import KannadaScript.Proofs.Composition
import KannadaScript.Proofs.Declaration.Buckets
import KannadaScript.Proofs.Declaration.ControlPaths
import KannadaScript.Proofs.Declaration.Hashing
import KannadaScript.Proofs.Reports
import KannadaScript.Proofs.Settings
import KannadaScript.Proofs.Text.Decoding
import KannadaScript.Proofs.Token.Calls
import KannadaScript.Proofs.Token.Complaints
import KannadaScript.Proofs.Tree.Height
import KannadaScript.Proofs.Tree.Resumption
