import Elide.LbaMap.Basic
import Elide.ExtentIndex.Basic

/-!
# Claims that resolve

A read of a claimed hash finds a body in one of three places: the journal tier under the claimant,
the data map, or the deltas map when a source of the recipe is itself in the data map. A passing
structural change keeps the volume readable when every claim still resolves after it.
-/

namespace Elide

namespace ExtentIndex

variable (x : ExtentIndex)

/-- The hash is held as a recipe one of whose sources is in the data map. -/
def resolvesDelta (hash : Hash) : Bool :=
  (x.lookupDelta hash).any fun loc => loc.options.any fun opt => (x.lookup opt.sourceHash).isSome

/-- A read of `hash` under `claimant` finds a body. -/
def resolves (claimant : Ulid) (hash : Hash) : Bool :=
  (x.lookupJournal claimant hash).isSome || (x.lookup hash).isSome || x.resolvesDelta hash

/-- Every recipe has a source in the data map. -/
def DeltasResolve : Prop :=
  ∀ loc ∈ x.deltas.entries, x.resolvesDelta loc.1 = true

instance : Decidable x.DeltasResolve :=
  inferInstanceAs (Decidable (∀ _ ∈ _, _))

end ExtentIndex

/-- Every claim of the map resolves; zeros need no body. -/
def LbaMap.ClaimsResolve (m : LbaMap) (x : ExtentIndex) : Prop :=
  ∀ e ∈ m.inner.entries, e.2.hash = ZERO_HASH ∨ x.resolves e.2.claimantUlid e.2.hash = true

instance (m : LbaMap) (x : ExtentIndex) : Decidable (m.ClaimsResolve x) :=
  inferInstanceAs (Decidable (∀ _ ∈ _, _))

end Elide
