import GraphPlan.Block
import GraphPlan.Data.NameSet
import GraphPlan.Data.OrderedMap
import GraphPlan.Decimal.Double
import GraphPlan.Decimal.Notation
import GraphPlan.Error
import GraphPlan.Expr
import GraphPlan.Fingerprint
import GraphPlan.Fold
import GraphPlan.Json.Decoder
import GraphPlan.Json.Document
import GraphPlan.Json.Literal
import GraphPlan.Json.Token
import GraphPlan.Json.Value
import GraphPlan.Location
import GraphPlan.Pattern.Assembly
import GraphPlan.Pattern.Query
import GraphPlan.QueryTree
import GraphPlan.QueryTree.Ordered
import GraphPlan.Settings
import GraphPlan.Settings.Toml
import GraphPlan.Sql.Catalog
import GraphPlan.Sql.Condition
import GraphPlan.Sql.Emission
import GraphPlan.Sql.Name
import GraphPlan.Sql.Recursion
import GraphPlan.Sql.Schema
import GraphPlan.Sql.Select
import GraphPlan.Sql.Statement
import GraphPlan.Sql.Term
import GraphPlan.Text.Hex
import GraphPlan.Text.Invisible
import GraphPlan.Text.Shown
import GraphPlan.Toml.Document
import GraphPlan.Toml.Text
import GraphPlan.Proofs.Emission.Trunk
import GraphPlan.Proofs.Emission.Derivation
import GraphPlan.Proofs.Emission.Scope
import GraphPlan.Proofs.Sql.Dialect
import GraphPlan.Proofs.Recursion.Path
import GraphPlan.Proofs.Recursion.Rounds
import GraphPlan.Proofs.QueryTree.Below
import GraphPlan.Proofs.Recursion.Reach
import GraphPlan.Proofs.Answers.Assignment
import GraphPlan.Proofs.Answers.Trunk
import GraphPlan.Proofs.Answers.Statement
import GraphPlan.Proofs.Pattern.Acceptance
import GraphPlan.Proofs.Fold.Division
import GraphPlan.Proofs.QueryTree.Walk
import GraphPlan.Proofs.Pattern.Steps
import GraphPlan.Proofs.Emission.Success
import GraphPlan.Proofs.Pattern.Extension
import GraphPlan.Proofs.Block.RoundTrip
import GraphPlan.Proofs.Emission.Numbering
import GraphPlan.Proofs.Sql.Unambiguous
import GraphPlan.Proofs.Settings.RoundTrip
import GraphPlan.Proofs.Emission.Outputs
import GraphPlan.Proofs.Emission.Hooks
import GraphPlan.Proofs.Emission.Makeup
import GraphPlan.Proofs.Emission.History
import GraphPlan.Proofs.Emission.Census
import GraphPlan.Proofs.Emission.Fresh
import GraphPlan.Proofs.Emission.Links
import GraphPlan.Proofs.Recursion.Guard
import GraphPlan.Proofs.Recursion.Computed
import GraphPlan.Proofs.Block.Canonical
import GraphPlan.Proofs.Answers.Hops
import GraphPlan.Proofs.Condition.Positions
import GraphPlan.Proofs.Condition.Meaning
import GraphPlan.Proofs.Condition.Lowering
import GraphPlan.Proofs.Condition.Substring
import GraphPlan.Proofs.Decimal.Rounding
import GraphPlan.Proofs.Condition.Integers
import GraphPlan.Proofs.Pattern.Attribution
import GraphPlan.Proofs.QueryTree.Preorder
import GraphPlan.Proofs.Emission.Aliases
import GraphPlan.Proofs.Location.Naming
