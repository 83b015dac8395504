import BreadwalletCore.Transaction.Access

/-!
# The offsets of the parser

`BRTransactionParse` adds lengths that stand in the buffer to a running offset
and compares the sums, which wrap at `2 ^ 64`, with the length of the buffer.
Here the sums are listed in the order in which they are computed, and beside
each function stands the offset it would end at if nothing wrapped.  The two
agree as long as the last of these offsets fits.
-/

namespace BreadwalletCore

open Segment (slice)
open Payload (readVarInt readVarInt_inside Inside)

section Sums

variable (buf : List UInt8)

end Sums

/-! ## Sums that do not wrap -/

section EndsAt

/-- `x` goes right exactly if `e` fits, and then it ends at `e`. -/
structure EndsAt (buf : List UInt8) (x : Reads ℕ) (e : ℕ) : Prop where
  inside_iff : Inside buf x ↔ e < 2 ^ 64
  value : e < 2 ^ 64 → x.value = e

variable {buf : List UInt8} {x : Reads ℕ} {f : ℕ → Reads ℕ} {off e e' : ℕ}

theorem EndsAt.pure
    (he : e < 2 ^ 64) :
    EndsAt buf (Pure.pure e) e :=
  ⟨⟨fun _ => he, fun _ => Traced.all_pure e⟩, fun _ => rfl⟩

/-- What follows starts at the end. -/
theorem EndsAt.bind
    (hx : EndsAt buf x e)
    (hf : e < 2 ^ 64 → EndsAt buf (f e) e')
    (hle : e ≤ e') :
    EndsAt buf (x >>= f) e' := by
  refine ⟨?_, fun he' => ?_⟩
  · refine Traced.all_bind.trans ((and_congr_left' hx.inside_iff).trans ?_)
    constructor
    · rintro ⟨he, hall⟩
      rw [hx.value he] at hall
      exact (hf he).inside_iff.mp hall
    · intro he'
      have he : e < 2 ^ 64 := lt_of_le_of_lt hle he'
      rw [hx.value he]
      exact ⟨he, (hf he).inside_iff.mpr he'⟩
  · have he : e < 2 ^ 64 := lt_of_le_of_lt hle he'
    rw [Traced.value_bind, hx.value he]
    exact (hf he).value he'

theorem EndsAt.varInt
    {g : ℕ × ℕ → Reads ℕ}
    (hg : EndsAt buf (g (BreadwalletCore.varInt buf off)) e) :
    EndsAt buf (readVarInt buf off >>= g) e :=
  ⟨Traced.all_bind.trans ((and_iff_right (readVarInt_inside buf off)).trans hg.inside_iff),
    hg.value⟩

variable (buf)

end EndsAt

/-! ## The parser -/

section Parse

variable {codec : ScriptCodec} {sha256d : List UInt8 → UInt256} {buf : List UInt8} {off : ℕ}

end Parse

end BreadwalletCore
