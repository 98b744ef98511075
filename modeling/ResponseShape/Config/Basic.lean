import ResponseShape.Merging.Strategy

/-!
# Configuration
-/

namespace ResponseShape

/-- How shapes are built and merged. -/
structure Config where
  /-- The strategy of views that ask for no other. -/
  mergingStrategy : MergingStrategy
  /-- How deep selection sets may nest within one definition, those of spread fragments counting
  separately. -/
  recursionLimit : Nat
deriving DecidableEq, Inhabited

namespace Config

/-- Merge everything, and nest up to 512 selection sets. -/
def standard : Config := ⟨.all, 512⟩

/-- Recursion limits are below this number, the sixty-fourth power of two. -/
def limitBound : Nat := 18446744073709551616

end Config

end ResponseShape
