import ForwardChaining.Domain.Simulation
import ForwardChaining.Proofs.Failure
import ForwardChaining.Proofs.Matching
import ForwardChaining.Proofs.Evaluation
import ForwardChaining.Proofs.Solving
import ForwardChaining.Proofs.Firing
import ForwardChaining.Proofs.Sequence
import ForwardChaining.Proofs.Positive
import ForwardChaining.Proofs.Productive
import ForwardChaining.Proofs.Confluence
import ForwardChaining.Proofs.Validation
import ForwardChaining.Proofs.Satisfaction
import ForwardChaining.Proofs.ActiveDomain
import ForwardChaining.Proofs.Correspondence
import ForwardChaining.Proofs.Relevance
import ForwardChaining.Proofs.Distinctness
import ForwardChaining.Proofs.Mirroring
import ForwardChaining.Proofs.Reordering
import ForwardChaining.Proofs.SelfExclusion
import ForwardChaining.Proofs.Budget
import ForwardChaining.Proofs.Growth
import ForwardChaining.Proofs.Filtering
import ForwardChaining.Proofs.Reachability
import ForwardChaining.Proofs.Persistence
import ForwardChaining.Proofs.Naming
import ForwardChaining.Proofs.Stores
import ForwardChaining.Proofs.Wording
import ForwardChaining.Proofs.Interchange
import ForwardChaining.Proofs.Renaming
import ForwardChaining.Proofs.Ordinals
import ForwardChaining.Proofs.Precedence
import ForwardChaining.Proofs.Ordering
import ForwardChaining.Proofs.Substitution
import ForwardChaining.Proofs.Splitting
import ForwardChaining.Proofs.Operands
import ForwardChaining.Proofs.Exactness
import ForwardChaining.Proofs.Sorts
import ForwardChaining.Proofs.Prebinding
import ForwardChaining.Proofs.Application
import ForwardChaining.Proofs.Conclusions
import ForwardChaining.Proofs.Maximum
import ForwardChaining.Proofs.Dispatch
import ForwardChaining.Proofs.Refusal
import ForwardChaining.Proofs.Spelling
import ForwardChaining.Proofs.Readability
import ForwardChaining.Proofs.Pairs
import ForwardChaining.Proofs.Slots
import ForwardChaining.Proofs.Rebinding
import ForwardChaining.Proofs.Positions
