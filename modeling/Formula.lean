import Formula.Main
import Formula.Proofs.Command
import Formula.Proofs.Evaluation.Answer
import Formula.Proofs.Evaluation.Brackets
import Formula.Proofs.Evaluation.Choice
import Formula.Proofs.Evaluation.Dependence
import Formula.Proofs.Evaluation.Origin
import Formula.Proofs.Evaluation.Safety
import Formula.Proofs.Evaluation.Substitution
import Formula.Proofs.Fault.Caret
import Formula.Proofs.Fault.Literal
import Formula.Proofs.Fault.Position
import Formula.Proofs.Grammar.Foreign
import Formula.Proofs.Grammar.Grafting
import Formula.Proofs.Grammar.Juxtaposition
import Formula.Proofs.Grammar.Respelling
import Formula.Proofs.Grammar.Spelling
import Formula.Proofs.Reader.Progress
import Formula.Proofs.Reader.Size
import Formula.Proofs.Reader.Viability
import Formula.Proofs.Registry.Conservation
import Formula.Proofs.Registry.Registration
import Formula.Proofs.Session.Guards
import Formula.Proofs.Sum.Forms
import Formula.Proofs.Sum.Indices
import Formula.Proofs.Sum.Literal
import Formula.Proofs.Typeset.Balance
import Formula.Proofs.Typeset.Extent
import Formula.Proofs.Typeset.Literals
import Formula.Session.Request
