import FilterGuard.Filter
import FilterGuard.Schema.Document
import FilterGuard.Proofs.Breach
import FilterGuard.Proofs.Symbols
import FilterGuard.Proofs.Attribution
import FilterGuard.Proofs.Arena
import FilterGuard.Proofs.Derivation
import FilterGuard.Proofs.Typing
import FilterGuard.Proofs.Lookup
import FilterGuard.Proofs.Limits
import FilterGuard.Proofs.Room
import FilterGuard.Proofs.Documents
import FilterGuard.Proofs.Notation
import FilterGuard.Proofs.RuleOrder
import FilterGuard.Proofs.RuleForms
import FilterGuard.Proofs.Renaming
import FilterGuard.Proofs.Conversions
import FilterGuard.Proofs.EqualRules
import FilterGuard.Proofs.Respelling
import FilterGuard.Proofs.Adjacent
import FilterGuard.Proofs.Following
import FilterGuard.Proofs.Chains
import FilterGuard.Proofs.Merging
import FilterGuard.Proofs.ListItems
import FilterGuard.Proofs.Promotion
import FilterGuard.Proofs.Rereading
import FilterGuard.Proofs.Loosening
import FilterGuard.Proofs.Integrity
import FilterGuard.Proofs.Closure
import FilterGuard.Proofs.Segments
import FilterGuard.Proofs.Enclosed
import FilterGuard.Proofs.Bounds
import FilterGuard.Proofs.Offending
import FilterGuard.Proofs.Positions
import FilterGuard.Proofs.ChainText
import FilterGuard.Proofs.MapChanges
