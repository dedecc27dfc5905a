import QueryAccess.Main
import QueryAccess.Proofs.Tree.Overlay
import QueryAccess.Proofs.Tree.Ordered
import QueryAccess.Proofs.Tree.Listing
import QueryAccess.Proofs.Rules.Visits
import QueryAccess.Proofs.Rules.Verdict
import QueryAccess.Proofs.Tree.Scopes
import QueryAccess.Proofs.Rules.Evaluation
import QueryAccess.Proofs.Rules.Probes
import QueryAccess.Proofs.Rules.Siblings
import QueryAccess.Proofs.Document.Expansion
import QueryAccess.Proofs.Tree.Associativity
import QueryAccess.Proofs.Tree.Selected
import QueryAccess.Proofs.Rules.Aliases
import QueryAccess.Proofs.Rules.Fragments
import QueryAccess.Proofs.Document.Occurrences
import QueryAccess.Proofs.Policy.Inheritance
import QueryAccess.Proofs.Tree.Inherited
import QueryAccess.Proofs.Rules.Inheritance
import QueryAccess.Proofs.Tree.Lookup
import QueryAccess.Proofs.Rules.Monotone
import QueryAccess.Proofs.Authorization.DefaultPolicy
import QueryAccess.Proofs.Authorization.History
import QueryAccess.Proofs.Numeric.Rounding
import QueryAccess.Proofs.Numeric.Order
import QueryAccess.Proofs.Rules.Operators
import QueryAccess.Proofs.Document.Literals
import QueryAccess.Proofs.Tree.Variables
import QueryAccess.Proofs.Tree.Defaults
import QueryAccess.Proofs.Document.Inlining
import QueryAccess.Proofs.Tree.Inlining
import QueryAccess.Proofs.Text.Combinators
import QueryAccess.Proofs.Document.Lexemes
import QueryAccess.Proofs.Document.Escapes
import QueryAccess.Proofs.Document.BlockStrings
import QueryAccess.Proofs.Document.Words
import QueryAccess.Proofs.Document.Rendering
import QueryAccess.Proofs.Document.Scanning
import QueryAccess.Proofs.Document.Reading
import QueryAccess.Proofs.Document.ReadValues
import QueryAccess.Proofs.Document.ReadBack
import QueryAccess.Proofs.Rules.CustomCheck
import QueryAccess.Proofs.Tree.Everywhere
import QueryAccess.Proofs.Tree.Bare
import QueryAccess.Proofs.Document.Depth
import QueryAccess.Proofs.Document.Counting
import QueryAccess.Proofs.Tree.Unlimited
import QueryAccess.Proofs.Document.Tracking
import QueryAccess.Proofs.Tree.Twins
import QueryAccess.Proofs.Tree.Relabelled
import QueryAccess.Proofs.Rules.AliasInvariance
import QueryAccess.Proofs.Policy.Canonical
import QueryAccess.Proofs.Rules.ListRules
import QueryAccess.Proofs.Rules.Additions
import QueryAccess.Proofs.Authorization.Arguments
import QueryAccess.Proofs.Authorization.EntryPoints
import QueryAccess.Proofs.Tree.PathText
import QueryAccess.Proofs.Document.Keys
import QueryAccess.Proofs.Tree.PathReadBack
import QueryAccess.Proofs.Rules.Roleless
import QueryAccess.Proofs.Rules.Notes
import QueryAccess.Proofs.Tree.Union
import QueryAccess.Proofs.Tree.Walk
