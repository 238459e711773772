import Devirt.Options.Document
import Devirt.Recompile
import Devirt.Session
import Devirt.Proofs.Mirror
import Devirt.Proofs.Acceptance
import Devirt.Proofs.Meaning
import Devirt.Proofs.Declared
import Devirt.Proofs.Failure
import Devirt.Proofs.Slots
import Devirt.Proofs.Beginnings
import Devirt.Proofs.Threshold
import Devirt.Proofs.Pooling
import Devirt.Proofs.Representation
import Devirt.Proofs.Underneath
import Devirt.Proofs.Registration
import Devirt.Proofs.Coherence
import Devirt.Proofs.Equivariance
import Devirt.Proofs.TypedStores
import Devirt.Proofs.Comparison
import Devirt.Proofs.Shapes
import Devirt.Proofs.Attribution
import Devirt.Proofs.Budget
import Devirt.Proofs.Mappings
import Devirt.Proofs.Log
import Devirt.Proofs.CachedFrame
import Devirt.Proofs.Documents
