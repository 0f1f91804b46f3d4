/-!
# Rounding

Quotients rounded to the nearest number, numbers rounded to some binary digits, and floats rounded
to some decimals, as durations are told. Half-way between two numbers the even one is taken.
-/

namespace ElementScript

/-- The number nearest to the quotient, and half-way between two the even one. -/
def roundDiv (n d : Nat) : Nat :=
  let q := n / d
  let twice := 2 * (n % d)
  if d < twice ∨ (twice = d ∧ q % 2 = 1) then q + 1 else q

/-- The rounded quotient is at most one half off. -/
theorem roundDiv_nearest (n : Nat) {d : Nat} (hd : 0 < d) :
    2 * n ≤ 2 * (roundDiv n d * d) + d ∧ 2 * (roundDiv n d * d) ≤ 2 * n + d := by
  have hrest : n % d < d := Nat.mod_lt n hd
  have hdiv : n / d * d + n % d = n := Nat.div_add_mod' n d
  have hup : (n / d + 1) * d = n / d * d + d := Nat.succ_mul _ _
  rw [roundDiv]
  split <;> omega

/-- The number nearest to `n` that has at most `digits` binary digits before its zeros. -/
def roundBinary (digits n : Nat) : Nat :=
  let unit := Nat.pow 2 (n.log2 + 1 - digits)
  roundDiv n unit * unit

/-! ### Decimals -/

/-- The number with the given count of decimals that is `n` units of the last one. -/
def decimal (places n : Nat) : String :=
  let fraction := Nat.repr (n % Nat.pow 10 places)
  Nat.repr (n / Nat.pow 10 places) ++ "." ++
    String.ofList (List.replicate (places - fraction.length) '0') ++ fraction

/-- A finite float without a sign, with the given count of decimals. It is rounded once, from the
exact number that it stands for. -/
def fixed (places : Nat) (x : Float) : String :=
  let bits := x.toBits.toNat
  let exponent := bits / Nat.pow 2 52
  -- the smallest floats have no leading bit, and the exponent of the next ones
  let mantissa := bits % Nat.pow 2 52 + if exponent = 0 then 0 else Nat.pow 2 52
  let scaled := mantissa * Nat.pow 2 (max 1 exponent)
  decimal places (roundDiv (scaled * Nat.pow 10 places) (Nat.pow 2 1075))

/-! ### Durations -/

/-- The text of a duration in nanoseconds, told in the largest unit of which it is at least one: in
whole microseconds, or in milliseconds or seconds that are computed as floats. -/
def durationText (nanos : Nat) : String :=
  let micros := nanos / 1000
  if micros < 1000 then Nat.repr micros ++ "μs"
  else if micros < 1000000 then fixed 1 (Float.ofNat micros / 1000) ++ "ms"
  else
    let seconds := Float.ofNat (nanos / 1000000000)
    fixed 2 (seconds + Float.ofNat (nanos % 1000000000) / 1000000000) ++ "s"

-- the float for 1.15 is below it, and the one for 1.25 is exact
example : durationText 1150000 = "1.1ms" ∧ durationText 1250000 = "1.2ms" := by decide +kernel

end ElementScript
