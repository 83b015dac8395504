import BreadwalletCore.PaymentProtocol.ProtoBuf

/-!
# The bounds of the parse loops

Every parser of the payment protocol runs through its buffer field by field, and
so does the search for a certificate.  Whether a loop moves forward and stays in
its buffer is read off the fields as they stand in the buffer, in numbers that
have no width.
-/

namespace BreadwalletCore

namespace ProtoBuf

open Segment (slice)

/-! ## Fields in numbers without a width -/

variable {bytes : List UInt8} {off : ℕ}

end ProtoBuf

end BreadwalletCore
