import ConstFold.Binary.Basic
import ConstFold.Binary.Round
import ConstFold.Cache.Decode
import ConstFold.Cache.Encode
import ConstFold.Cell
import ConstFold.Condition.Basic
import ConstFold.Condition.Mask.Run
import ConstFold.Condition.Mask.Text
import ConstFold.Decimal.Basic
import ConstFold.Decimal.Numeral
import ConstFold.Fold.Basic
import ConstFold.Frame
import ConstFold.Kind
import ConstFold.Natural
import ConstFold.Pool
import ConstFold.Proofs.Binary.Arithmetic
import ConstFold.Proofs.Binary.Convert
import ConstFold.Proofs.Binary.Exact
import ConstFold.Proofs.Binary.Integer
import ConstFold.Proofs.Binary.Magnitude
import ConstFold.Proofs.Binary.Monotone
import ConstFold.Proofs.Binary.Nearest
import ConstFold.Proofs.Binary.Rounding
import ConstFold.Proofs.Binary.Text
import ConstFold.Proofs.Binary.Truncation
import ConstFold.Proofs.Cache.RoundTrip
import ConstFold.Proofs.Cache.Strict
import ConstFold.Proofs.Cell
import ConstFold.Proofs.Cell.Log
import ConstFold.Proofs.Condition.Accepted
import ConstFold.Proofs.Condition.Basic
import ConstFold.Proofs.Decimal.Basic
import ConstFold.Proofs.Decimal.Form
import ConstFold.Proofs.Decimal.Numeral
import ConstFold.Proofs.Decimal.Shortest
import ConstFold.Proofs.Fold.Simplify
import ConstFold.Proofs.Fold.Test
import ConstFold.Proofs.Frame
import ConstFold.Proofs.Natural
import ConstFold.Proofs.Pool
import ConstFold.Proofs.Value.Arithmetic
import ConstFold.Proofs.Value.Compare
import ConstFold.Proofs.Value.Convert
import ConstFold.Proofs.Value.Equality
import ConstFold.Proofs.Value.Identity
import ConstFold.Proofs.Value.Immediate
import ConstFold.Proofs.Value.Monotone
import ConstFold.Proofs.Value.Predicates
import ConstFold.Proofs.Value.RoundTrip
import ConstFold.Proofs.Value.Rounding
import ConstFold.Proofs.Value.Survival
import ConstFold.Proofs.Value.Text
import ConstFold.Proofs.Value.Widening
import ConstFold.Proofs.Word.BitCount
import ConstFold.Proofs.Word.Range
import ConstFold.Value.Basic
import ConstFold.Value.Convert
import ConstFold.Value.Identity
import ConstFold.Value.Immediate
import ConstFold.Value.Laws
import ConstFold.Value.Text
import ConstFold.Word.BitCount
