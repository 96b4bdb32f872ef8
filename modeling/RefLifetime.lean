import RefLifetime.Analysis
import RefLifetime.Listing
import RefLifetime.Proofs.ByValue
import RefLifetime.Proofs.Contract
import RefLifetime.Proofs.Course
import RefLifetime.Proofs.Dangling
import RefLifetime.Proofs.Keeping
import RefLifetime.Proofs.Memory
import RefLifetime.Proofs.Narrowing
import RefLifetime.Proofs.Offence
import RefLifetime.Proofs.Region
import RefLifetime.Proofs.Returnable
import RefLifetime.Proofs.Rulesets
import RefLifetime.Syntax.Equality
import RefLifetime.Proofs.Limit
import RefLifetime.Proofs.Confinement
import RefLifetime.Proofs.Counters
import RefLifetime.Proofs.Nesting
import RefLifetime.Proofs.Unreported
import RefLifetime.Proofs.Independence
import RefLifetime.Proofs.Wording
import RefLifetime.Proofs.Expansion
import RefLifetime.Proofs.Introduced
import RefLifetime.Proofs.Entry
import RefLifetime.Proofs.HeapFields
import RefLifetime.Proofs.Pinning
import RefLifetime.Proofs.Contributions
import RefLifetime.Proofs.Results
import RefLifetime.Proofs.Mixing
import RefLifetime.Proofs.Designations
import RefLifetime.Proofs.Reading
import RefLifetime.Proofs.Combinations
import RefLifetime.Proofs.Forwarding
import RefLifetime.Proofs.StackArrays
import RefLifetime.Proofs.Hints
import RefLifetime.Proofs.Depths
import RefLifetime.Proofs.Places
import RefLifetime.Proofs.Substitution
import RefLifetime.Proofs.Repointing
