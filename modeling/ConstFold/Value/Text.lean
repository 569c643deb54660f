import ConstFold.Decimal.Numeral
import ConstFold.Value.Basic

/-!
# The text of constants

The display text of a constant is what a dump of a program shows: integers in decimal, with a
suffix that tells 64-bit integers and single floats from the others, addresses in hexadecimal. The
debug text shows the tag of the kind around the payload instead.

## Main definitions

* `Addr.display`, `Addr.dump`.
* `Value.display`, `Value.dump`.
-/

namespace ConstFold

/-- The hexadecimal numeral of an address. -/
def Addr.displayChars (a : Addr) : List Char :=
  '0' :: 'x' :: Radix.write 16 a.raw.toNat

def Addr.display (a : Addr) : String :=
  String.ofList a.displayChars

def Addr.dump (a : Addr) : String :=
  "Addr(" ++ String.ofList (Radix.write 10 a.raw.toNat) ++ ")"

namespace Value

def displayChars : Value → List Char
  | int32 v => Radix.writeInt v.toInt
  | int64 v => Radix.writeInt v.toInt ++ ['L']
  | float32 v => v.text ++ ['f']
  | float64 v => v.text
  | addr a => a.displayChars
  | cond c => c.name.toList
  | memory .constant => "constmem".toList

def display (v : Value) : String :=
  String.ofList v.displayChars

def dumpPayload : Value → String
  | int32 v => String.ofList (Radix.writeInt v.toInt)
  | int64 v => String.ofList (Radix.writeInt v.toInt)
  | float32 v => String.ofList v.text
  | float64 v => String.ofList v.text
  | addr a => a.dump
  | cond c => c.tag
  | memory m => m.tag

def dump (v : Value) : String :=
  v.kind.tag ++ "(" ++ v.dumpPayload ++ ")"

end Value

end ConstFold
