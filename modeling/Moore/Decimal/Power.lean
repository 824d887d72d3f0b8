/-
# Powers

The powers of two that bound machine integers, and those of ten that scale decimals.
-/

namespace Moore.Decimal

/-- The `n`-th power of two. -/
def pow2 (n : Nat) : Nat := Nat.pow 2 n

/-- The `n`-th power of ten. -/
def pow10 (n : Nat) : Nat := Nat.pow 10 n

end Moore.Decimal
