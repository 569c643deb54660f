import ConstFold.Condition.Basic
import ConstFold.Natural

/-!
# The text of masks

A mask is written as the names of its flags, in the order of their bits, and the unknown bits as
one hexadecimal number after them, all joined by bars. Reading takes flags and numbers in any order
and number, with blanks around them. Blanks are the characters with the Unicode property
`White_Space`.

## Main definitions

* `isBlank`, `trimBlanks`: blanks, and a text without the blanks at its ends.
* `Mask.text`, `Mask.ofText?`: writing and reading.
* `Mask.dump`: the debug text.
-/

namespace ConstFold

/-- The code points with the property `White_Space`, as closed ranges. -/
def blankRanges : List (Nat × Nat) :=
  [(0x09, 0x0d), (0x20, 0x20), (0x85, 0x85), (0xa0, 0xa0), (0x1680, 0x1680), (0x2000, 0x200a),
    (0x2028, 0x2029), (0x202f, 0x202f), (0x205f, 0x205f), (0x3000, 0x3000)]

def isBlank (c : Char) : Bool :=
  blankRanges.any fun r => r.1 ≤ c.toNat && c.toNat ≤ r.2

/-- A text without the blanks at its ends. -/
def trimBlanks (s : List Char) : List Char :=
  ((s.dropWhile isBlank).reverse.dropWhile isBlank).reverse

namespace Mask

/-! ### Writing -/

def pieces (m : Mask) : List String :=
  let flags := m.conditions.map Condition.flag
  if m.unknown = 0#8 then flags
  else flags ++ ["0x" ++ String.ofList (Radix.write 16 m.unknown.toNat)]

/-- The text of a mask; empty for the mask without bits. -/
def text (m : Mask) : String :=
  " | ".intercalate m.pieces

/-- The debug text of a mask, which spells the mask without bits as a number. -/
def dump (m : Mask) : String :=
  let text := if m.isEmpty then "0x0" else m.text
  "Condition2(" ++ text ++ ")"

/-! ### Reading -/

def cutAtBars : List Char → List (List Char)
  | [] => [[]]
  | c :: cs =>
    if c = '|' then [] :: cutAtBars cs
    else
      match cutAtBars cs with
      | [] => [[c]]
      | piece :: rest => (c :: piece) :: rest

/-- The bits of a hexadecimal numeral, which may have a plus sign in front and has to fit in a
byte. -/
def ofHex? (cs : List Char) : Option Mask := do
  let digits :=
    match cs with
    | '+' :: rest => rest
    | _ => cs
  let n ← Radix.read? 16 digits
  if n < 256 then some ⟨BitVec.ofNat 8 n⟩ else none

/-- The mask of one piece: a flag name, or `0x` and a hexadecimal numeral. -/
def ofPiece? : List Char → Option Mask
  | '0' :: 'x' :: digits => ofHex? digits
  | piece => (Condition.ofFlag? (String.ofList piece)).map ofCondition

/-- The union of the pieces of a text. Every piece has to be well-formed. -/
def ofPieces? : List (List Char) → Option Mask
  | [] => some never
  | piece :: rest => do
    let m ← ofPiece? (trimBlanks piece)
    let others ← ofPieces? rest
    some (m.union others)

/-- The mask of a text; a blank text is the mask without bits. -/
def ofText? (s : String) : Option Mask :=
  match trimBlanks s.toList with
  | [] => some never
  | cs => ofPieces? (cutAtBars cs)

end Mask

end ConstFold
