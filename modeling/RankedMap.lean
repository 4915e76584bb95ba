import RankedMap.Arena.Command
import RankedMap.Workbench
import RankedMap.Proofs.OrdMap.Invariants
import RankedMap.Proofs.OrdMap.Reference
import RankedMap.Proofs.OrdMap.Refinement
import RankedMap.Proofs.Forest.InOrder
import RankedMap.Proofs.OrdMap.Bounds
import RankedMap.Proofs.OrdMap.Position
import RankedMap.Proofs.OrdMap.Agreement
import RankedMap.Proofs.OrdMap.Safety
import RankedMap.Proofs.Arena.Accounts
import RankedMap.Proofs.Arena.History
import RankedMap.Proofs.OrdMap.Storage
import RankedMap.Proofs.OrdMap.Descents
import RankedMap.Proofs.OrdMap.Ranks
import RankedMap.Proofs.OrdMap.Slots
import RankedMap.Proofs.Listing.Lookup
import RankedMap.Proofs.OrdMap.Independence
import RankedMap.Proofs.OrdMap.Heights
import RankedMap.Proofs.OrdMap.Monotone
import RankedMap.Proofs.OrdMap.Reflection
import RankedMap.Proofs.Forest.Detached
