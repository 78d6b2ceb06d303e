import ExprScript.Main
import ExprScript.Proofs.Evaluation.Arithmetic
import ExprScript.Proofs.Evaluation.CallLimit
import ExprScript.Proofs.Evaluation.Diagnosis
import ExprScript.Proofs.Evaluation.Termination
import ExprScript.Proofs.Lexer.Writing
import ExprScript.Proofs.Parser.Braces
import ExprScript.Proofs.Parser.ErrorLines
import ExprScript.Proofs.Parser.Expectations
import ExprScript.Proofs.Parser.Height
import ExprScript.Proofs.Parser.LeftParts
import ExprScript.Proofs.Parser.OpenPhrases
import ExprScript.Proofs.Parser.Rereading
import ExprScript.Proofs.Parser.Reuse
import ExprScript.Proofs.Session.Batch
import ExprScript.Proofs.Session.Integers
import ExprScript.Proofs.Session.Layout
import ExprScript.Proofs.Session.Scopes
import ExprScript.Proofs.Session.Unmentioned
import ExprScript.Proofs.Syntax.Unambiguous
