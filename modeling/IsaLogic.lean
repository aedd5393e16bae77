import IsaLogic.Text.Blank
import IsaLogic.Text.Integer
import IsaLogic.Text.Quoted
import IsaLogic.Verdict
import IsaLogic.Json.Printer
import IsaLogic.Json.Reader
import IsaLogic.Formula.Fingerprint
import IsaLogic.Formula.Distribute
import IsaLogic.Formula.Tseytin
import IsaLogic.Cover.Prime
import IsaLogic.Cover.Pla
import IsaLogic.Cnf.Dimacs
import IsaLogic.Cnf.Encoding
import IsaLogic.Cnf.Core
import IsaLogic.Clause.Reader
import IsaLogic.Database.Reader
import IsaLogic.Database.Expansion
import IsaLogic.Configuration.Format
import IsaLogic.Clause.Compile
import IsaLogic.Formula.Operation
import IsaLogic.Engine.Minimization
import IsaLogic.Engine.Diagnosis
import IsaLogic.Text.Pattern
import IsaLogic.Tool.Script
import IsaLogic.Tool.Utility
import IsaLogic.Tool.Config
import IsaLogic.Engine.Session
import IsaLogic.Condition.Session
import IsaLogic.Proofs.Formula.Truth
import IsaLogic.Proofs.Formula.Simplification
import IsaLogic.Proofs.Formula.NormalForm
import IsaLogic.Proofs.Formula.TwoLevel
import IsaLogic.Proofs.Formula.Tseytin
import IsaLogic.Proofs.Cnf.Search
import IsaLogic.Proofs.Cnf.Encoding
import IsaLogic.Proofs.Engine.Memory
import IsaLogic.Proofs.Engine.Satisfiability
import IsaLogic.Proofs.Formula.Verdict
import IsaLogic.Proofs.Computation
import IsaLogic.Proofs.Clause.Compile
import IsaLogic.Proofs.Term.Relation
import IsaLogic.Proofs.Ascending
import IsaLogic.Proofs.Database.Exploration
import IsaLogic.Proofs.Database.Worklist
import IsaLogic.Proofs.Database.Exclusion
import IsaLogic.Proofs.Database.Inheritance
import IsaLogic.Proofs.Database.Saturation
import IsaLogic.Proofs.Configuration.Legal
import IsaLogic.Proofs.Configuration.Completion
import IsaLogic.Proofs.Condition.Expansion
import IsaLogic.Proofs.Cover.Cube
import IsaLogic.Proofs.Cover.Expand
import IsaLogic.Proofs.Cover.Prime
import IsaLogic.Proofs.Engine.Minimization
import IsaLogic.Proofs.Formula.Knowledge
import IsaLogic.Proofs.Condition.Partial
import IsaLogic.Proofs.Term.Order
import IsaLogic.Proofs.Cover.Containment
import IsaLogic.Proofs.Cover.Primality
import IsaLogic.Proofs.Cover.Merging
import IsaLogic.Proofs.Formula.ReadOnce
import IsaLogic.Proofs.Condition.Implied
import IsaLogic.Proofs.Cnf.Core
import IsaLogic.Proofs.Engine.Diagnosis
import IsaLogic.Proofs.Condition.Explanation
import IsaLogic.Proofs.Engine.Transparency
import IsaLogic.Proofs.Text.Delimited
import IsaLogic.Proofs.Term.RecordText
import IsaLogic.Proofs.Formula.Fingerprint
import IsaLogic.Proofs.Engine.Session
import IsaLogic.Proofs.Engine.Terms
import IsaLogic.Proofs.Version.RoundTrip
import IsaLogic.Proofs.Clause.RoundTrip
import IsaLogic.Proofs.Clause.Declaration
import IsaLogic.Proofs.Engine.Normal
import IsaLogic.Proofs.Condition.Agreement
import IsaLogic.Proofs.Formula.Budget
import IsaLogic.Proofs.Cover.Irredundant
import IsaLogic.Proofs.Cover.Exactness
import IsaLogic.Proofs.Cover.Greedy
import IsaLogic.Proofs.Formula.Flattening
import IsaLogic.Proofs.Engine.FlatForm
import IsaLogic.Proofs.Clause.Faithful
import IsaLogic.Proofs.Formula.Reduced
import IsaLogic.Proofs.Json.Canonical
import IsaLogic.Proofs.Clause.Strictness
import IsaLogic.Proofs.Formula.Residual
import IsaLogic.Proofs.Term.Exactness
import IsaLogic.Proofs.Text.Reading
import IsaLogic.Proofs.Formula.Proper
import IsaLogic.Proofs.Cnf.Codec
import IsaLogic.Proofs.Cnf.Decoding
import IsaLogic.Proofs.Text.Declared
import IsaLogic.Proofs.Cnf.Within
import IsaLogic.Proofs.Cnf.Range
import IsaLogic.Proofs.Cover.Table
import IsaLogic.Proofs.Cover.Numbering
import IsaLogic.Proofs.Cover.Width
import IsaLogic.Proofs.Term.Sanitized
import IsaLogic.Proofs.Term.Operand
import IsaLogic.Proofs.Term.Identifier
import IsaLogic.Proofs.Text.Expression
import IsaLogic.Proofs.Formula.Rendering
import IsaLogic.Proofs.Condition.AnyVersion
import IsaLogic.Proofs.Json.Record
import IsaLogic.Proofs.Database.Loading
import IsaLogic.Proofs.Configuration.Forced
import IsaLogic.Proofs.Formula.Arity
import IsaLogic.Proofs.Formula.Regrouping
import IsaLogic.Proofs.Formula.EncodingSize
import IsaLogic.Proofs.Tool.Extraction
