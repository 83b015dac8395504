import BreadwalletCore.Data.CheckedInt
import BreadwalletCore.Data.Digits
import BreadwalletCore.Data.Machine

/-!
# HTTP requests

The body of a `BRHTTPRequestImpl` and its range header.

* A header is a string of characters up to U+00FF, as `readLine` makes them of
  bytes.
* `recv` answers with what the socket gives, call by call, and at its end with 0
  or -1.
-/

namespace BreadwalletCore

/-! ## Headers -/

/-- The digits of a number, or nothing. -/
def decimalValue (s : List UInt8) : Option ℕ :=
  if s ≠ [] ∧ s.all (fun c => 0x30 ≤ c ∧ c ≤ 0x39) = true then
    some (Digits.value 10 (s.map (fun c => c.toNat - 0x30)))
  else none

/-- `Int(_:)` of a string. -/
def intOfString (s : List UInt8) : Option ℤ :=
  let parsed : Option ℤ :=
    match s with
    | 0x2d :: digits => (decimalValue digits).map (fun n : ℕ => -(n : ℤ))
    | 0x2b :: digits => (decimalValue digits).map (fun n : ℕ => (n : ℤ))
    | digits => (decimalValue digits).map (fun n : ℕ => (n : ℤ))
  parsed.filter (fun n => CheckedInt.Fits 64 n)

/-- What `recv` answers: the reads that are left, and whether it fails behind them. -/
structure RequestSocket where
  reads : List (List UInt8)
  failed : Bool := false

/-- `BRHTTPRequestImpl` -/
structure BRHTTPRequestImpl where
  method : String
  headers : String → Option (List (List UInt8))
  socket : RequestSocket
  bodyRead : Bool := false
  body? : Option (List UInt8) := none

/-- A trap, or a read outside of an array. -/
inductive RequestFault
  | overflow
  | invalidRange
  | outOfBounds
deriving DecidableEq

namespace BRHTTPRequestImpl

variable (r : BRHTTPRequestImpl)

def hasBody : Bool :=
  r.method = "POST" || r.method = "PATCH" || r.method = "PUT"

def contentLength : ℤ :=
  match r.headers "content-length" with
  | some (hdr :: _) => if r.hasBody then (intOfString hdr).getD 0 else 0
  | _ => 0

/-! ## The body -/

/-- The size of the buffer that `body` reads into. -/
abbrev buffSize : ℕ := 4096

/-- The loop of `body`: whether it has seen the end, what it has read, and the
reads that are left. -/
def bodyLoop (contentLength : ℤ) (failed : Bool) :
    List (List UInt8) → ℤ → List UInt8 → Except RequestFault (Bool × List UInt8 × List (List UInt8))
  | [], _, body =>
      -- `buf[0..<n]` with n = -1
      if failed then .error .invalidRange else .ok (true, body, [])
  | read :: reads, total, body =>
      let total := total + read.length
      let bodyRead := decide (read.length < buffSize)
      let body := body ++ read
      if bodyRead || decide (contentLength ≤ total) then .ok (bodyRead, body, reads)
      else bodyLoop contentLength failed reads total body

/-- `Data(bytesNoCopy:count:deallocator:)` -/
def dataNoCopy (bytes : List UInt8) (count : ℤ) : Except RequestFault (List UInt8) :=
  if count ≤ bytes.length then .ok (bytes.take count.toNat) else .error .outOfBounds

/-- `body()`: what it returns, and the request behind it. -/
def body : Except RequestFault (Option (List UInt8) × BRHTTPRequestImpl) :=
  match r.bodyRead, r.body? with
  | true, some bytes => do
      let data ← dataNoCopy bytes r.contentLength
      return (some data, r)
  | true, none => .ok (none, r)
  | false, _ =>
      if ¬ 0 < r.contentLength then .ok (none, r)
      else do
        let (bodyRead, bytes, reads) ←
          bodyLoop r.contentLength r.socket.failed r.socket.reads 0 []
        let data ← dataNoCopy bytes r.contentLength
        return (some data, { r with
          bodyRead := bodyRead
          body? := some bytes
          socket := { r.socket with reads := reads } })

/-! ## What `body` gives -/

/-- What several calls of `body` return, one behind the other. -/
def bodyCalls : ℕ → BRHTTPRequestImpl →
    Except RequestFault (List (Option (List UInt8)) × BRHTTPRequestImpl)
  | 0, r => .ok ([], r)
  | k + 1, r => do
      let (data, r) ← r.body
      let (rest, r) ← bodyCalls k r
      return (data :: rest, r)

/-- Every read gives something, and at most what fits in the buffer. -/
def SplitsReads (reads : List (List UInt8)) : Prop :=
  ∀ read ∈ reads, read ≠ [] ∧ read.length ≤ buffSize

/-- If the body is there, each call returns it and nothing behind it is consumed;
else `body` returns `nil`. -/
def BodyRight (r : BRHTTPRequestImpl) (n : ℕ) : Prop :=
  if n ≤ r.socket.reads.flatten.length then
    ∀ k, ∃ r', bodyCalls (k + 1) r =
        .ok (List.replicate (k + 1) (some (r.socket.reads.flatten.take n)), r') ∧
      r'.socket.reads.flatten = r.socket.reads.flatten.drop n
  else ∃ r', r.body = .ok (none, r')

/-- The reads fill the buffer until the last one, which is short and ends with the
body. -/
def ReadsEndWith (reads : List (List UInt8)) (n : ℕ) : Prop :=
  n % buffSize ≠ 0 ∧ (∀ read ∈ reads.take (n / buffSize), read.length = buffSize) ∧
    reads[n / buffSize]?.map List.length = some (n % buffSize)

/-- How the loop of `body` ended. -/
inductive LoopEnd (contentLength total : ℤ) (pre rest : List (List UInt8)) : Bool → Prop
  /-- the buffer was full, and there was enough -/
  | full (hne : pre ≠ []) (hfull : ∀ read ∈ pre, buffSize ≤ read.length)
      (henough : contentLength ≤ total + pre.flatten.length) : LoopEnd contentLength total pre rest
        false
  /-- a read was short -/
  | short (front : List (List UInt8)) (last : List UInt8) (hpre : pre = front ++ [last])
      (hfull : ∀ read ∈ front, buffSize ≤ read.length) (hlast : last.length < buffSize) :
      LoopEnd contentLength total pre rest true
  /-- the connection ended -/
  | closed (hrest : rest = []) (hmore : total + pre.flatten.length < contentLength) :
      LoopEnd contentLength total pre rest true

theorem bodyLoop_spec
    {contentLength : ℤ} {failed bodyRead : Bool} {reads rest : List (List UInt8)} {total : ℤ}
    {body body' : List UInt8}
    (htotal : total < contentLength)
    (h : bodyLoop contentLength failed reads total body = .ok (bodyRead, body', rest)) :
    ∃ pre, reads = pre ++ rest ∧ body' = body ++ pre.flatten ∧
      LoopEnd contentLength total pre rest bodyRead := by
  induction reads generalizing total body with
  | nil =>
      rw [bodyLoop] at h
      split at h
      · cases h
      · cases h
        refine ⟨[], rfl, by simp, .closed rfl ?_⟩
        simpa using htotal
  | cons read reads ih =>
      rw [bodyLoop] at h
      split at h
      · rename_i hdone
        cases h
        refine ⟨[read], rfl, by simp, ?_⟩
        by_cases hshort : read.length < buffSize
        · rw [decide_eq_true hshort]
          exact .short [] read rfl (by simp) hshort
        · rw [decide_eq_false hshort, Bool.false_or, decide_eq_true_iff] at hdone
          rw [decide_eq_false hshort]
          refine .full (List.cons_ne_nil _ _) ?_ (by simpa using hdone)
          intro r hr
          rw [List.mem_singleton.mp hr]
          omega
      · rename_i hmore
        rw [Bool.or_eq_true, decide_eq_true_iff, decide_eq_true_iff, not_or] at hmore
        obtain ⟨pre, rfl, rfl, hend⟩ := ih (by omega) h
        refine ⟨read :: pre, rfl, by simp, ?_⟩
        have hlen : ((read :: pre).flatten.length : ℤ) = read.length + pre.flatten.length := by
          simp
        cases hend with
        | full hne hfull henough =>
            refine .full (List.cons_ne_nil _ _) ?_ (by rw [hlen]; omega)
            intro r hr
            rcases List.mem_cons.mp hr with rfl | hr
            · omega
            · exact hfull r hr
        | short front last hpre hfull hlast =>
            refine .short (read :: front) last (by rw [hpre]; rfl) ?_ hlast
            intro r hr
            rcases List.mem_cons.mp hr with rfl | hr
            · omega
            · exact hfull r hr
        | closed hrest hlt =>
            exact .closed hrest (by rw [hlen]; omega)

/-- Full reads and a short one that ends with the body. -/
theorem bodyLoop_short
    (contentLength : ℤ) (failed : Bool) (front rest : List (List UInt8)) (last : List UInt8)
    {total : ℤ} (body : List UInt8)
    (hfull : ∀ read ∈ front, read.length = buffSize)
    (hlast : last.length < buffSize)
    (hne : last ≠ [])
    (htotal : total + front.flatten.length + last.length = contentLength) :
    bodyLoop contentLength failed (front ++ last :: rest) total body =
      .ok (true, body ++ (front.flatten ++ last), rest) := by
  induction front generalizing total body with
  | nil =>
      rw [List.nil_append, bodyLoop]
      simp only [decide_eq_true hlast, Bool.true_or, if_true, List.flatten_nil, List.nil_append]
  | cons read front ih =>
      rw [List.forall_mem_cons] at hfull
      have hpos := List.length_pos_iff.mpr hne
      rw [List.flatten_cons, List.length_append] at htotal
      have hshort : ¬ read.length < buffSize := by
        omega
      have hmore : ¬ contentLength ≤ total + read.length := by
        omega
      rw [List.cons_append, bodyLoop, decide_eq_false hshort, decide_eq_false hmore,
        if_neg (by decide), ih _ hfull.2 (by omega), List.flatten_cons, List.append_assoc,
        List.append_assoc]

theorem length_flatten_full
    {reads : List (List UInt8)}
    (hfull : ∀ read ∈ reads, read.length = buffSize) :
    reads.flatten.length = buffSize * reads.length := by
  rw [List.length_flatten, List.map_congr_left hfull, List.map_const', List.sum_replicate,
    smul_eq_mul, Nat.mul_comm]

theorem readsEndWith_iff
    {reads : List (List UInt8)} {n : ℕ} :
    ReadsEndWith reads n ↔ ∃ front last rest, reads = front ++ last :: rest ∧
      (∀ read ∈ front, read.length = buffSize) ∧ last ≠ [] ∧ last.length < buffSize ∧
      n = buffSize * front.length + last.length := by
  constructor
  · rintro ⟨hmod, hfull, hlast⟩
    obtain ⟨last, hget, hlen⟩ := Option.map_eq_some_iff.mp hlast
    obtain ⟨hlt, hget⟩ := List.getElem?_eq_some_iff.mp hget
    have hmodlt : n % buffSize < buffSize := Nat.mod_lt _ (by norm_num)
    refine ⟨reads.take (n / buffSize), last, reads.drop (n / buffSize + 1), ?_, hfull, ?_, ?_, ?_⟩
    · rw [← hget, List.getElem_cons_drop, List.take_append_drop]
    · rintro rfl
      exact hmod hlen.symm
    · omega
    · rw [List.length_take_of_le hlt.le, hlen, Nat.div_add_mod]
  · rintro ⟨front, last, rest, rfl, hfull, hne, hshort, rfl⟩
    have hpos := List.length_pos_iff.mpr hne
    have hdiv : (buffSize * front.length + last.length) / buffSize = front.length := by
      rw [Nat.mul_add_div (by norm_num), Nat.div_eq_of_lt hshort, Nat.add_zero]
    have hmod : (buffSize * front.length + last.length) % buffSize = last.length := by
      rw [Nat.mul_add_mod, Nat.mod_eq_of_lt hshort]
    refine ⟨by omega, ?_, ?_⟩
    · rw [hdiv, List.take_left' rfl]
      exact hfull
    · rw [hdiv, hmod, List.getElem?_append_right le_rfl, Nat.sub_self]
      rfl

section Request

variable {r : BRHTTPRequestImpl} {n : ℕ}

theorem body_eq
    (hread : r.bodyRead = false)
    (hlen : r.contentLength = n)
    (hpos : 0 < n) :
    r.body = (do
      let (bodyRead, bytes, reads) ← bodyLoop n r.socket.failed r.socket.reads 0 []
      let data ← dataNoCopy bytes n
      return (some data, { r with
        bodyRead := bodyRead
        body? := some bytes
        socket := { r.socket with reads := reads } })) := by
  have hlen' : ¬ ¬ 0 < r.contentLength := by
    omega
  rw [body, hread]
  dsimp only
  rw [if_neg hlen', hlen]

/-- A call of `body` on a request whose body was not read. -/
theorem body_spec
    (hread : r.bodyRead = false)
    (hlen : r.contentLength = n)
    (hpos : 0 < n)
    {data : Option (List UInt8)} {r' : BRHTTPRequestImpl}
    (h : r.body = .ok (data, r')) :
    ∃ pre, r.socket.reads = pre ++ r'.socket.reads ∧ n ≤ pre.flatten.length ∧
      data = some (pre.flatten.take n) ∧ r'.contentLength = n ∧
      r'.socket.failed = r.socket.failed ∧
      LoopEnd n 0 pre r'.socket.reads r'.bodyRead := by
  rw [body_eq hread hlen hpos] at h
  obtain ⟨⟨bodyRead, bytes, reads⟩, hloop, h⟩ := Machine.bind_eq_ok.mp h
  obtain ⟨data', hdata, h⟩ := Machine.bind_eq_ok.mp h
  obtain ⟨pre, hpre, hbytes, hend⟩ := bodyLoop_spec (by omega) hloop
  cases h
  rw [List.nil_append] at hbytes
  subst hbytes
  rw [dataNoCopy] at hdata
  split at hdata
  · rename_i henough
    cases hdata
    exact ⟨pre, hpre, by omega, by rw [Int.toNat_natCast], hlen, rfl, hend⟩
  · cases hdata

theorem bodyCalls_succ
    {k : ℕ} {l : List (Option (List UInt8))} {r'' : BRHTTPRequestImpl}
    (h : bodyCalls (k + 1) r = .ok (l, r'')) :
    ∃ data rest r', r.body = .ok (data, r') ∧ bodyCalls k r' = .ok (rest, r'') ∧
      l = data :: rest := by
  rw [bodyCalls] at h
  obtain ⟨⟨data, r'⟩, hbody, h⟩ := Machine.bind_eq_ok.mp h
  obtain ⟨⟨rest, r₂⟩, hrest, h⟩ := Machine.bind_eq_ok.mp h
  cases h
  exact ⟨data, rest, r', hbody, hrest, rfl⟩

theorem length_of_drop
    {pre rest : List (List UInt8)}
    (hle : n ≤ (pre ++ rest).flatten.length)
    (hrest : rest.flatten = (pre ++ rest).flatten.drop n) :
    pre.flatten.length = n := by
  have hlen := congrArg List.length hrest
  rw [List.length_drop, List.flatten_append, List.length_append] at hlen
  rw [List.flatten_append, List.length_append] at hle
  omega

/-- The first call leaves a body that is read, and the reads behind the body. -/
theorem readsEndWith_of_bodyRight
    (hread : r.bodyRead = false)
    (hlen : r.contentLength = n)
    (hpos : 0 < n)
    (hsplit : SplitsReads r.socket.reads)
    (hright : BodyRight r n) :
    ReadsEndWith r.socket.reads n := by
  rw [BodyRight] at hright
  by_cases hle : n ≤ r.socket.reads.flatten.length
  · rw [if_pos hle] at hright
    obtain ⟨r₁, hcalls, hdrop⟩ := hright 0
    obtain ⟨data, rest, r', hbody, hcalls, -⟩ := bodyCalls_succ hcalls
    obtain rfl : r' = r₁ := by
      rw [bodyCalls] at hcalls
      cases hcalls
      rfl
    obtain ⟨pre, hpre, -, -, hlen', -, hend⟩ := body_spec hread hlen hpos hbody
    rw [hpre] at hle hdrop hsplit ⊢
    have hprelen := length_of_drop hle hdrop
    generalize hflag : r'.bodyRead = flag at hend
    cases hend with
    | full hne hfull henough =>
        -- a second call reads on
        exfalso
        obtain ⟨r₂, hcalls₂, hdrop₂⟩ := hright 1
        obtain ⟨data₁, rest₁, r₁, hbody₁, hcalls₂, -⟩ := bodyCalls_succ hcalls₂
        rw [hbody] at hbody₁
        cases hbody₁
        obtain ⟨data₂, rest₂, r₃, hbody₂, hcalls₂, -⟩ := bodyCalls_succ hcalls₂
        obtain rfl : r₃ = r₂ := by
          rw [bodyCalls] at hcalls₂
          cases hcalls₂
          rfl
        obtain ⟨pre₂, hpre₂, henough₂, -⟩ := body_spec hflag hlen' hpos hbody₂
        rw [hpre] at hdrop₂
        rw [hpre₂, ← List.append_assoc] at hdrop₂ hle
        have hprelen₂ := length_of_drop hle hdrop₂
        rw [List.flatten_append, List.length_append] at hprelen₂
        omega
    | short front last hfront hfull hlast =>
        subst hfront
        have hfull' : ∀ read ∈ front, read.length = buffSize := by
          intro read hmem
          have hge := hfull read hmem
          have hle := (hsplit read (by simp [hmem])).2
          omega
        rw [List.flatten_append, List.flatten_singleton, List.length_append,
          length_flatten_full hfull'] at hprelen
        rw [readsEndWith_iff]
        exact ⟨front, last, r'.socket.reads, by simp, hfull', (hsplit last (by simp)).1, hlast,
          hprelen.symm⟩
    | closed hrest hmore =>
        omega
  · rw [if_neg hle] at hright
    obtain ⟨r', hbody⟩ := hright
    obtain ⟨pre, -, -, hdata, -⟩ := body_spec hread hlen hpos hbody
    cases hdata

theorem bodyCalls_read
    {bytes : List UInt8}
    (hread : r.bodyRead = true)
    (hbody : r.body? = some bytes)
    (hlen : r.contentLength = n)
    (henough : bytes.length = n)
    (k : ℕ) :
    bodyCalls k r = .ok (List.replicate k (some bytes), r) := by
  induction k with
  | zero =>
      rfl
  | succ k ih =>
      have hcall : r.body = .ok (some bytes, r) := by
        rw [body, hread, hbody]
        dsimp only
        rw [hlen, dataNoCopy, if_pos (by omega), Int.toNat_natCast, ← henough, List.take_length]
        rfl
      rw [bodyCalls, hcall, Machine.ok_bind]
      dsimp only
      rw [ih, Machine.ok_bind]
      rfl

/-- **Body.**  `body` does what it should exactly if the body comes in reads that
fill the buffer and a short one at its end. -/
theorem bodyRight_iff
    (hread : r.bodyRead = false)
    (hlen : r.contentLength = n)
    (hpos : 0 < n)
    (hsplit : SplitsReads r.socket.reads) :
    BodyRight r n ↔ ReadsEndWith r.socket.reads n := by
  refine ⟨readsEndWith_of_bodyRight hread hlen hpos hsplit, fun hends => ?_⟩
  obtain ⟨front, last, rest, hreads, hfull, hne, hshort, hn⟩ := readsEndWith_iff.mp hends
  have hbytes : (front.flatten ++ last).length = n := by
    rw [List.length_append, length_flatten_full hfull, hn]
  have hflat : r.socket.reads.flatten = front.flatten ++ last ++ rest.flatten := by
    rw [hreads, List.flatten_append, List.flatten_cons, List.append_assoc]
  obtain ⟨r', hr'⟩ : ∃ r' : BRHTTPRequestImpl, r' = { r with
      bodyRead := true
      body? := some (front.flatten ++ last)
      socket := { r.socket with reads := rest } } := ⟨_, rfl⟩
  have hcall : r.body = .ok (some (front.flatten ++ last), r') := by
    have htotal : (0 : ℤ) + front.flatten.length + last.length = n := by
      rw [List.length_append] at hbytes
      omega
    rw [body_eq hread hlen hpos, hreads, bodyLoop_short n _ front rest last [] hfull hshort hne htotal,
      Machine.ok_bind]
    dsimp only
    rw [List.nil_append, dataNoCopy, if_pos (by omega), Int.toNat_natCast, ← hbytes,
      List.take_length, hr']
    rfl
  rw [BodyRight, if_pos (by rw [hflat, List.length_append]; omega), hflat, List.take_left' hbytes,
    List.drop_left' hbytes]
  intro k
  refine ⟨r', ?_, by rw [hr']⟩
  have hlater : bodyCalls k r' = .ok (List.replicate k (some (front.flatten ++ last)), r') :=
    bodyCalls_read (by rw [hr']) (by rw [hr']) (by rw [hr']; exact hlen) hbytes k
  rw [bodyCalls, hcall, Machine.ok_bind]
  dsimp only
  rw [hlater, Machine.ok_bind]
  rfl

end Request

/-- A request with two bytes of body. -/
def sampleRequest (reads : List (List UInt8)) : BRHTTPRequestImpl where
  method := "POST"
  headers name := if name = "content-length" then some [[0x32]] else none
  socket := { reads := reads }

theorem contentLength_sampleRequest
    (reads : List (List UInt8)) :
    (sampleRequest reads).contentLength = (2 : ℕ) := by
  have htwo : intOfString [0x32] = some 2 := by decide +kernel
  show (intOfString [0x32]).getD 0 = 2
  rw [htwo, Option.getD_some]

theorem bodyRight_iff_sample :
    BodyRight (sampleRequest [[0x61, 0x62]]) 2 ↔ ReadsEndWith [[0x61, 0x62]] 2 :=
  bodyRight_iff rfl (contentLength_sampleRequest _) (by norm_num)
    (by simp [SplitsReads, sampleRequest, buffSize])

/-- A body that comes in two reads. -/
theorem not_bodyRight :
    ¬ BodyRight (sampleRequest [[0x61], [0x62]]) 2 := by
  intro hright
  have hends := readsEndWith_of_bodyRight rfl (contentLength_sampleRequest _) (by norm_num)
    (by simp [SplitsReads, sampleRequest]) hright
  exact absurd hends.2.2 (by decide)

end BRHTTPRequestImpl

end BreadwalletCore
