/-! Powers of natural numbers: `2 ^ 64` is the power of core in every module, also where Mathlib brings in
    that of monoids. -/

attribute [instance (20000), default_instance 20000] instPowNat
