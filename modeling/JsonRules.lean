import JsonRules.Check
import JsonRules.Location
import JsonRules.Number
import JsonRules.Number.Decimal
import JsonRules.Number.Double
import JsonRules.Pattern
import JsonRules.Pattern.Backtrack.Expr
import JsonRules.Pattern.Backtrack.Machine
import JsonRules.Pattern.Backtrack.Program
import JsonRules.Pattern.Backtrack.Reader
import JsonRules.Pattern.CharSet
import JsonRules.Pattern.Error
import JsonRules.Pattern.Linear.Plan
import JsonRules.Pattern.Linear.Reader
import JsonRules.Pattern.Linear.Regex
import JsonRules.Pattern.Linear.Size
import JsonRules.Pattern.Rendering
import JsonRules.Pattern.Token
import JsonRules.Rule
import JsonRules.Rule.Accept
import JsonRules.Rule.Alike
import JsonRules.Rule.Evaluate
import JsonRules.Rule.Map
import JsonRules.Rule.Subtree
import JsonRules.Rule.Trace
import JsonRules.Rule.WellFormed
import JsonRules.Schema.Compile
import JsonRules.Schema.Error
import JsonRules.Schema.Extends
import JsonRules.Schema.Keyword
import JsonRules.Schema.Path
import JsonRules.Text.Digits
import JsonRules.Text.Quoted
import JsonRules.Unicode.Category
import JsonRules.Unicode.CategoryRuns
import JsonRules.Unicode.CodeSet
import JsonRules.Unicode.Property
import JsonRules.Unicode.PropertyRanges
import JsonRules.Unicode.Runs
import JsonRules.Unicode.ScriptRuns
import JsonRules.Validator
import JsonRules.Validator.Event
import JsonRules.Validator.Session
import JsonRules.Value
import JsonRules.Value.Equal
import JsonRules.Value.Kind
import JsonRules.Value.Reader
import JsonRules.Value.Text
import JsonRules.Violation
import JsonRules.Proofs.Number.Exact
import JsonRules.Proofs.Number.KeyText
import JsonRules.Proofs.Text.Quoted
import JsonRules.Proofs.Value.Key
import JsonRules.Proofs.Value.Ordered
import JsonRules.Pattern.Source
import JsonRules.Proofs.Pattern.Scan
import JsonRules.Proofs.Unicode.CodeSet
import JsonRules.Proofs.Pattern.CharSet
import JsonRules.Proofs.Pattern.Linear.Lexemes
import JsonRules.Proofs.Pattern.Linear.Plan
import JsonRules.Proofs.Pattern.Linear.Spans
import JsonRules.Proofs.Rule.Accept
import JsonRules.Proofs.Rule.Map
import JsonRules.Proofs.Rule.Search
import JsonRules.Schema.Interpret
import JsonRules.Proofs.Check
import JsonRules.Proofs.Schema.Derivation
import JsonRules.Proofs.Schema.Depth
import JsonRules.Proofs.Schema.Extends
import JsonRules.Proofs.Schema.Steps
import JsonRules.Proofs.Schema.Subtree
import JsonRules.Proofs.Schema.Visits
import JsonRules.Proofs.Schema.Everywhere
import JsonRules.Proofs.Schema.Path
import JsonRules.Proofs.Schema.Refinement
import JsonRules.Proofs.Schema.Trace
import JsonRules.Proofs.Schema.Transfer
import JsonRules.Proofs.Schema.WellFormed
import JsonRules.Proofs.Rule.Alike
import JsonRules.Proofs.Rule.Congruence
import JsonRules.Proofs.Schema.Congruence
import JsonRules.Schema.Defects
import JsonRules.Schema.Visits
import JsonRules.Proofs.Schema.Defects
import JsonRules.Proofs.Pattern.Backtrack.Budget
import JsonRules.Proofs.Pattern.Limits
import JsonRules.Proofs.Pattern.Linear.Chars
import JsonRules.Proofs.Pattern.Linear.Parse
import JsonRules.Proofs.Pattern.Linear.Parts
import JsonRules.Proofs.Pattern.Translation
import JsonRules.Pattern.Absorption
import JsonRules.Pattern.ClassGrammar
import JsonRules.Proofs.Number.Multiple
import JsonRules.Proofs.Pattern.Backtrack.Tokens
import JsonRules.Proofs.Pattern.ClassGrammar
import JsonRules.Proofs.Pattern.ClassText
import JsonRules.Proofs.Pattern.Lexing
import JsonRules.Proofs.Pattern.Linear.Tokens
import JsonRules.Proofs.Pattern.Literal
import JsonRules.Proofs.Pattern.Scanned
import JsonRules.Proofs.Pattern.Splitting
import JsonRules.Proofs.Schema.Sizes
import JsonRules.Proofs.Check.Repeats
import JsonRules.Proofs.Number.Order
import JsonRules.Pattern.NonLinear
import JsonRules.Proofs.Check.Enumeration
import JsonRules.Proofs.Pattern.NonLinear
import JsonRules.Proofs.Pattern.Routing
import JsonRules.Pattern.Dialects
import JsonRules.Proofs.Pattern.Composition
import JsonRules.Proofs.Pattern.Dialects
import JsonRules.Proofs.Pattern.Backtrack.Looks
import JsonRules.Pattern.Spelling
import JsonRules.Proofs.Pattern.Spelling
import JsonRules.Pattern.Vocabulary
import JsonRules.Proofs.Pattern.Bounds
import JsonRules.Proofs.Pattern.Vocabulary
import JsonRules.Proofs.Pattern.Reading
import JsonRules.Proofs.Rule.Relocation
import JsonRules.Rule.Relocation
import JsonRules.Schema.Removal
import JsonRules.Proofs.Schema.Removal
import JsonRules.Number.Word
import JsonRules.Unicode.Complement
import JsonRules.Proofs.Unicode.Complement
import JsonRules.Proofs.Pattern.Emission
import JsonRules.Pattern.Cursor
import JsonRules.Proofs.Pattern.Cursor
