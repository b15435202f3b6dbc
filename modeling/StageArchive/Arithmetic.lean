/-!
# Powers

A power has a natural number as its exponent and is computed by repeated multiplication. The
instance stands before all others, so that a power means the same in every module, whatever else is
imported there.
-/

namespace StageArchive

/-- A power with a natural exponent. -/
@[default_instance 10001]
instance (priority := high) naturalPower {α : Type} [NatPow α] : Pow α Nat :=
  instPowNat

end StageArchive
