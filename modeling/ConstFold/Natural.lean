/-!
# Natural numbers

Two things that constants need of natural numbers, whatever kind the constants are of: the natural
nearest to a quotient, by which all rounding is done, and positional notation, over the digits `0`
to `9` and `a` to `f`. Writing has no leading zero; reading takes any number of them and upper-case
digits as well.

## Main definitions

* `roundDiv`: the natural nearest to a quotient, a half going to the even neighbour.
* `Radix.digits`: the digits of a number as numbers, most significant first.
* `Radix.write`, `Radix.read?`: the numeral of a number, and the number of a numeral.

## Implementation notes

With more of the library in scope a second instance gives natural numbers their powers. It is the
same function, but a statement that is elaborated with one is not syntactically the statement with
the other. The modules of this library take all powers of naturals by the instance of core.
-/

namespace ConstFold

attribute [scoped instance (1100)] instPowNat

/-- The natural nearest to `num / den`; of two equally near, the even one. -/
def roundDiv (num den : Nat) : Nat :=
  let quotient := num / den
  let twice := 2 * (num % den)
  if twice < den then quotient
  else if den < twice then quotient + 1
  else quotient + quotient % 2

/-! ### Positional notation -/

namespace Radix

/-- The digits of a number, most significant first; 0 has one digit. -/
def digits (base n : Nat) : List Nat :=
  if n < base ∨ base < 2 then [n]
  else digits base (n / base) ++ [n % base]
termination_by n
decreasing_by exact Nat.div_lt_self (by omega) (by omega)

def digitCount (n : Nat) : Nat :=
  if n < 10 then 1 else digitCount (n / 10) + 1

def write (base n : Nat) : List Char :=
  (digits base n).map Nat.digitChar

/-- The value of a digit below `base`. -/
def digit? (base : Nat) (c : Char) : Option Nat :=
  let d :=
    if '0' ≤ c ∧ c ≤ '9' then c.toNat - '0'.toNat
    else if 'a' ≤ c ∧ c ≤ 'f' then c.toNat - 'a'.toNat + 10
    else if 'A' ≤ c ∧ c ≤ 'F' then c.toNat - 'A'.toNat + 10
    else base
  if d < base then some d else none

/-- The number of a numeral whose leading digits are worth `acc`. -/
def readFrom? (base acc : Nat) : List Char → Option Nat
  | [] => some acc
  | c :: cs =>
    match digit? base c with
    | some d => readFrom? base (acc * base + d) cs
    | none => none

/-- The number of a numeral, which has at least one digit. -/
def read? (base : Nat) : List Char → Option Nat
  | [] => none
  | c :: cs => readFrom? base 0 (c :: cs)

/-- The numeral of an integer in decimal: a sign in front of a negative one only. -/
def writeInt (n : Int) : List Char :=
  if n < 0 then '-' :: write 10 n.natAbs else write 10 n.natAbs

/-- The integer of a decimal numeral without or with a sign in front. -/
def readInt? : List Char → Option Int
  | '-' :: cs => (read? 10 cs).map fun n => -(n : Int)
  | '+' :: cs => (read? 10 cs).map Int.ofNat
  | cs => (read? 10 cs).map Int.ofNat

end Radix

end ConstFold
