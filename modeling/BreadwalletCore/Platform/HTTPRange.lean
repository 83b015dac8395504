import BreadwalletCore.Platform.HTTPRequest
import BreadwalletCore.Platform.HTTPResponse

/-!
# Range requests

`rangeHeader` of a request and the part of `BRHTTPFileMiddleware.handle` that
answers it, behind the file's lookup.  `rangeHeader` returns the start in front of
the end, and `handle` takes them the other way round.
-/

namespace BreadwalletCore

open CheckedInt

/-- `invalidRangeHeader` -/
inductive RangeError
  | invalidRangeHeader
deriving DecidableEq

def isDigit (c : UInt8) : Bool :=
  0x30 ≤ c ∧ c ≤ 0x39

/-- `bytes=`, where a letter may be of either case. -/
def rangeUnit (s : List UInt8) : Bool :=
  s.map (fun c => if 0x41 ≤ c ∧ c ≤ 0x5a then c + 0x20 else c) =
    [0x62, 0x79, 0x74, 0x65, 0x73, 0x3d]

/-- `rangeRe` anchored at the start: what its two groups match. -/
def rangeMatch (s : List UInt8) : Option (List UInt8 × List UInt8) :=
  if rangeUnit (s.take 6) then
    match (s.drop 6).dropWhile isDigit with
    | 0x2d :: rest => some ((s.drop 6).takeWhile isDigit, rest.takeWhile isDigit)
    | _ => none
  else none

/-- `rangeHeader()`: the start and the end. -/
def BRHTTPRequestImpl.rangeHeader (r : BRHTTPRequestImpl) : Except RangeError (Option (ℤ × ℤ)) :=
  match r.headers "range" with
  | none => .ok none
  | some hdrs =>
      match hdrs.head?.bind rangeMatch with
      | none => .error .invalidRangeHeader
      | some (startStr, endStr) =>
          match intOfString startStr, intOfString endStr with
          | some start, some stop => .ok (some (start, stop))
          | _, _ => .error .invalidRangeHeader

/-- `subdata(in: start..<stop)` -/
def subdata (body : List UInt8) (start stop : ℤ) : Except RequestFault (List UInt8) :=
  if stop < start then .error .invalidRange
  else if start < 0 ∨ body.length < stop then .error .outOfBounds
  else .ok ((body.drop start.toNat).take (stop - start).toNat)

namespace FileMiddleware

def badRequest : ResponseFields where
  statusCode := some 400
  statusReason := some "Bad Request"
  body := some "Invalid Range Header".toUTF8.toList

def notSatisfiable : ResponseFields where
  statusCode := some 418
  statusReason := some "Request Range Not Satisfiable"

/-- `Content-Range` -/
def contentRange (start stop : ℤ) (count : ℕ) : String × List String :=
  ("Content-Range", [s!"bytes {start}-{stop}/{count}"])

/-- The part of `handle` behind the file: `body` is what the file holds. -/
def handleRange (r : BRHTTPRequestImpl) (body : List UInt8)
    (headers : List (String × List String)) (contentType : String) :
    Except RequestFault ResponseFields :=
  match r.rangeHeader with
  | .error _ => .ok badRequest
  | .ok none =>
      .ok { statusCode := some 200, statusReason := some "OK", headers := some headers,
            body := some body }
  | .ok (some pair) => do
      -- `let (end, start) = rangeHeader!`
      let stop := pair.1
      let start := pair.2
      let length ← checked .overflow 64 (stop - start)
      let rangeLength ← checked .overflow 64 (length + 1)
      let upper ← checked .overflow 64 (start + rangeLength)
      if upper ≤ body.length then
        let subDat ← subdata body start upper
        return { statusCode := some 200
                 statusReason := some "OK"
                 headers := some
                   [contentRange start stop body.length, ("Content-Type", [contentType])]
                 body := some subDat }
      else return notSatisfiable

/-! ## Headers with a start and an end -/

/-- The header is `bytes=a-b`, in decimal digits. -/
def HasRange (r : BRHTTPRequestImpl) (a b : ℕ) : Prop :=
  ∃ startStr endStr others, r.headers "range" =
      some (([0x62, 0x79, 0x74, 0x65, 0x73, 0x3d] ++ (startStr ++ 0x2d :: endStr)) :: others) ∧
    decimalValue startStr = some a ∧ decimalValue endStr = some b

theorem decimalValue_digits
    {s : List UInt8} {n : ℕ}
    (h : decimalValue s = some n) :
    s ≠ [] ∧ ∀ c ∈ s, isDigit c = true := by
  rw [decimalValue] at h
  split at h
  · rename_i hs
    exact ⟨hs.1, fun c hc => List.all_eq_true.mp hs.2 c hc⟩
  · cases h

theorem intOfString_decimal
    {s : List UInt8} {n : ℕ}
    (h : decimalValue s = some n)
    (hn : n < 2 ^ 63) :
    intOfString s = some (n : ℤ) := by
  obtain ⟨hne, hdigits⟩ := decimalValue_digits h
  have hfits : Fits 64 (n : ℤ) :=
    fits_64_iff.mpr (by omega)
  have hunsigned : (decimalValue s).map (fun n : ℕ => (n : ℤ)) = some (n : ℤ) := by
    rw [h]
    rfl
  unfold intOfString
  split
  · rename_i digits
    exact absurd (hdigits 0x2d (by simp)) (by decide)
  · rename_i digits
    exact absurd (hdigits 0x2b (by simp)) (by decide)
  · rw [hunsigned, Option.filter_some_pos (by simpa using hfits)]

theorem rangeMatch_eq
    {startStr endStr : List UInt8}
    (hstart : ∀ c ∈ startStr, isDigit c = true)
    (hend : ∀ c ∈ endStr, isDigit c = true) :
    rangeMatch ([0x62, 0x79, 0x74, 0x65, 0x73, 0x3d] ++ (startStr ++ 0x2d :: endStr)) =
      some (startStr, endStr) := by
  have hunit : rangeUnit [0x62, 0x79, 0x74, 0x65, 0x73, 0x3d] = true := by
    decide
  have hdash : ¬ isDigit 0x2d = true := by
    decide
  have htake : ([0x62, 0x79, 0x74, 0x65, 0x73, 0x3d] ++ (startStr ++ 0x2d :: endStr)).take 6 =
      [0x62, 0x79, 0x74, 0x65, 0x73, 0x3d] := rfl
  have hdrop : ([0x62, 0x79, 0x74, 0x65, 0x73, 0x3d] ++ (startStr ++ 0x2d :: endStr)).drop 6 =
      startStr ++ 0x2d :: endStr := rfl
  rw [rangeMatch, htake, hdrop, if_pos hunit,
    List.dropWhile_append_of_pos hstart, List.dropWhile_cons_of_neg hdash,
    List.takeWhile_append_of_pos hstart, List.takeWhile_cons_of_neg hdash, List.append_nil]
  change some (startStr, endStr.takeWhile isDigit) = _
  rw [List.takeWhile_eq_self_iff.mpr hend]

theorem rangeHeader_eq
    {r : BRHTTPRequestImpl} {a b : ℕ}
    (h : HasRange r a b)
    (ha : a < 2 ^ 63)
    (hb : b < 2 ^ 63) :
    r.rangeHeader = .ok (some ((a : ℤ), (b : ℤ))) := by
  obtain ⟨startStr, endStr, others, hheader, hstart, hend⟩ := h
  rw [BRHTTPRequestImpl.rangeHeader, hheader]
  dsimp only [List.head?_cons, Option.bind_some]
  rw [rangeMatch_eq (decimalValue_digits hstart).2 (decimalValue_digits hend).2]
  dsimp only
  rw [intOfString_decimal hstart ha, intOfString_decimal hend hb]

/-! ## Answers -/

/-- The answer to a range: its bytes, or an error. -/
def Answers (res : ResponseFields) (body : List UInt8) (a b : ℕ) : Prop :=
  if a ≤ b then
    if b < body.length then
      res.body = some ((body.drop a).take (b - a + 1)) ∧
        ∃ headers, res.headers = some headers ∧ contentRange a b body.length ∈ headers
    else res = notSatisfiable
  else ∃ code, res.statusCode = some code ∧ 400 ≤ code

/-- `handle` answers, and does not trap. -/
def AnswersRange (r : BRHTTPRequestImpl) (body : List UInt8)
    (headers : List (String × List String)) (contentType : String) (a b : ℕ) : Prop :=
  ∃ res, handleRange r body headers contentType = .ok res ∧ Answers res body a b

section Cases

variable {r : BRHTTPRequestImpl} {body : List UInt8} {headers : List (String × List String)}
  {contentType : String} {a b : ℕ}

/-- With the two numbers swapped, the upper bound is that of the start. -/
theorem handleRange_eq
    (h : HasRange r a b)
    (ha : a < 2 ^ 63)
    (hb : b < 2 ^ 63) :
    handleRange r body headers contentType =
      if a = 2 ^ 63 - 1 then .error .overflow
      else if body.length ≤ a then .ok notSatisfiable
      else if a + 1 < b then .error .invalidRange
      else .ok
        { statusCode := some 200
          statusReason := some "OK"
          headers := some [contentRange b a body.length, ("Content-Type", [contentType])]
          body := some ((body.drop b).take (a + 1 - b)) } := by
  have hlength : Fits 64 ((a : ℤ) - b) :=
    fits_64_iff.mpr (by omega)
  rw [handleRange, rangeHeader_eq h ha hb]
  dsimp only
  rw [checked_eq hlength, Machine.ok_bind]
  by_cases hmax : a = 2 ^ 63 - 1
  · rw [if_pos hmax]
    by_cases hzero : b = 0
    · have htrap : ¬ Fits 64 ((a : ℤ) - b + 1) := by
        rw [fits_64_iff]
        omega
      rw [checked_eq_error htrap]
      rfl
    · have hfits : Fits 64 ((a : ℤ) - b + 1) :=
        fits_64_iff.mpr (by omega)
      have htrap : ¬ Fits 64 ((b : ℤ) + ((a : ℤ) - b + 1)) := by
        rw [fits_64_iff]
        omega
      rw [checked_eq hfits, Machine.ok_bind, checked_eq_error htrap]
      rfl
  · have hfits : Fits 64 ((a : ℤ) - b + 1) :=
      fits_64_iff.mpr (by omega)
    have hsum : (b : ℤ) + ((a : ℤ) - b + 1) = a + 1 := by
      ring
    have hfits' : Fits 64 ((a : ℤ) + 1) :=
      fits_64_iff.mpr (by omega)
    rw [if_neg hmax, checked_eq hfits, Machine.ok_bind, hsum, checked_eq hfits', Machine.ok_bind]
    by_cases hcount : body.length ≤ a
    · rw [if_pos hcount, if_neg (by omega)]
      rfl
    · rw [if_neg hcount, if_pos (by omega), subdata]
      by_cases hinvalid : a + 1 < b
      · rw [if_pos hinvalid, if_pos (by omega)]
        rfl
      · have hsize : ((a : ℤ) + 1 - b).toNat = a + 1 - b := by
          omega
        rw [if_neg hinvalid, if_neg (by omega), if_neg (by omega), hsize, Int.toNat_natCast,
          Machine.ok_bind]
        rfl

/-- **Ranges.**  A range is answered as it should be if both its ends are one byte,
or if it starts behind the body. -/
theorem answersRange_iff
    (h : HasRange r a b)
    (ha : a < 2 ^ 63)
    (hb : b < 2 ^ 63) :
    AnswersRange r body headers contentType a b ↔
      a ≠ 2 ^ 63 - 1 ∧ (a = b ∨ body.length ≤ a) := by
  rw [AnswersRange, handleRange_eq h ha hb]
  by_cases hmax : a = 2 ^ 63 - 1
  · rw [if_pos hmax]
    refine iff_of_false ?_ (fun hcond => hcond.1 hmax)
    rintro ⟨res, hres, -⟩
    cases hres
  rw [if_neg hmax]
  by_cases hcount : body.length ≤ a
  · rw [if_pos hcount]
    refine iff_of_true ⟨notSatisfiable, rfl, ?_⟩ ⟨hmax, .inr hcount⟩
    rw [Answers]
    split
    · rw [if_neg (by omega)]
    · exact ⟨418, rfl, by norm_num⟩
  rw [if_neg hcount]
  by_cases hinvalid : a + 1 < b
  · rw [if_pos hinvalid]
    refine iff_of_false ?_ (by omega)
    rintro ⟨res, hres, -⟩
    cases hres
  rw [if_neg hinvalid]
  constructor
  · rintro ⟨res, hres, hanswers⟩
    cases hres
    refine ⟨hmax, .inl ?_⟩
    rw [Answers] at hanswers
    by_contra hne
    by_cases hle : a ≤ b
    · rw [if_pos hle] at hanswers
      split at hanswers
      · have hbytes := congrArg List.length (Option.some.inj hanswers.1)
        rw [List.length_take, List.length_take, List.length_drop, List.length_drop] at hbytes
        omega
      · cases hanswers
    · rw [if_neg hle] at hanswers
      obtain ⟨code, hcode, hge⟩ := hanswers
      cases hcode
      omega
  · rintro ⟨-, rfl | hle⟩
    · refine ⟨_, rfl, ?_⟩
      have hsize : a + 1 - a = a - a + 1 := by
        omega
      rw [Answers, if_pos le_rfl, if_pos (by omega), hsize]
      exact ⟨rfl, _, rfl, List.mem_cons_self⟩
    · exact absurd hle hcount

end Cases

/-- A request for a range of a byte or two. -/
def sampleRequest (stop : UInt8) : BRHTTPRequestImpl where
  method := "GET"
  headers name :=
    if name = "range" then some [[0x62, 0x79, 0x74, 0x65, 0x73, 0x3d] ++ ([0x30] ++ [0x2d, stop])]
    else none
  socket := { reads := [] }

theorem answersRange_iff_first :
    AnswersRange (sampleRequest 0x30) [1, 2, 3] [] "text/plain" 0 0 ↔
      0 ≠ 2 ^ 63 - 1 ∧ (0 = 0 ∨ [1, 2, 3].length ≤ 0) :=
  answersRange_iff ⟨[0x30], [0x30], [], rfl, by decide +kernel, by decide +kernel⟩ (by norm_num) (by norm_num)

/-- The first two bytes of three are answered with the empty body. -/
theorem not_answersRange :
    ¬ AnswersRange (sampleRequest 0x31) [1, 2, 3] [] "text/plain" 0 1 := by
  have hheader : HasRange (sampleRequest 0x31) 0 1 :=
    ⟨[0x30], [0x31], [], rfl, by decide +kernel, by decide +kernel⟩
  rintro ⟨res, hres, hanswers⟩
  rw [handleRange_eq hheader (by norm_num) (by norm_num)] at hres
  cases hres
  exact absurd (Option.some.inj hanswers.1) (by decide)

end FileMiddleware

end BreadwalletCore
