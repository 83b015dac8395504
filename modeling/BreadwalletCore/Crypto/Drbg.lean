import BreadwalletCore.Crypto.Hmac

/-!
# HMAC-DRBG over several requests

`BRHMACDRBG` of `BRCrypto.c`.  The first call has seed material, the calls behind it
take `K` and `V` from the last one.  A call updates `K` and `V` before it generates, where
the standard updates them behind: the state between two calls is one update behind
that of the standard.
-/

namespace BreadwalletCore

open KeyedHash

namespace HashAlgorithm

variable (hash : HashAlgorithm)

/-- The last loop of `BRHMACDRBG`: `out`, and `V` behind it. -/
def drbgLoop (K : List UInt8) (outLen i : ℕ) (out V : List UInt8) :
    Except CryptoFault (List UInt8 × List UInt8) :=
  if i * hash.hashLen < outLen then do
    let V ← BRHMAC hash K V
    let out ← poke outLen out (i * hash.hashLen)
      (V.take (if i * hash.hashLen + hash.hashLen ≤ outLen then hash.hashLen
        else outLen % hash.hashLen))
    drbgLoop K outLen (i + 1) out V
  else .ok (out, V)
termination_by outLen - i * hash.hashLen
decreasing_by
  have hpos := hash.pos
  rw [Nat.succ_mul]
  omega

/-- `BRHMACDRBG`: `out`, `K` and `V`.  A pointer that is `NULL` is `none`. -/
def BRHMACDRBG (outLen : ℕ) (K V : List UInt8) (seed nonce ps : Option (List UInt8)) :
    Except CryptoFault (List UInt8 × List UInt8 × List UInt8) := do
  let given := seed.isSome || nonce.isSome || ps.isSome
  let hashLen := hash.hashLen
  let seed := seed.getD []
  let nonce := nonce.getD []
  let ps := ps.getD []
  let bufLen := hashLen + 1 + seed.length + nonce.length + ps.length
  let K := if given then List.replicate hashLen 0x00 else K
  let V := if given then List.replicate hashLen 0x01 else V
  let buf ← poke bufLen [] 0 (V.take hashLen)
  let buf ← poke bufLen buf hashLen [0x00]
  let buf ← poke bufLen buf (hashLen + 1) seed
  let buf ← poke bufLen buf (hashLen + 1 + seed.length) nonce
  let buf ← poke bufLen buf (hashLen + 1 + seed.length + nonce.length) ps
  let K ← BRHMAC hash K buf
  let V ← BRHMAC hash K V
  let (K, V) ← (if given then do
      let buf ← poke bufLen buf 0 (V.take hashLen)
      let buf ← poke bufLen buf hashLen [0x01]
      let K ← BRHMAC hash K buf
      let V ← BRHMAC hash K V
      .ok (K, V)
    else .ok (K, V) : Except CryptoFault (List UInt8 × List UInt8))
  let (out, V) ← hash.drbgLoop K outLen 0 [] V
  .ok (out, K, V)

/-- Calls with the `K` and `V` of the last one and without seed material. -/
def drbgCalls : List UInt8 → List UInt8 → List ℕ → Except CryptoFault (List (List UInt8))
  | _, _, [] => .ok []
  | K, V, outLen :: outLens => do
      let (out, K, V) ← hash.BRHMACDRBG outLen K V none none none
      let outs ← drbgCalls K V outLens
      .ok (out :: outs)

/-- A call with seed material, and calls without it. -/
def drbgSession (K V : List UInt8) (seed nonce ps : Option (List UInt8)) (outLen : ℕ)
    (outLens : List ℕ) : Except CryptoFault (List (List UInt8)) := do
  let (out, K, V) ← hash.BRHMACDRBG outLen K V seed nonce ps
  let outs ← hash.drbgCalls K V outLens
  .ok (out :: outs)

/-! ## One call -/

/-- The loop collects as many bytes as the generator. -/
theorem drbgLoop_eq
    {K V out : List UInt8} {outLen i turns : ℕ}
    (hout : out.length = i * hash.hashLen)
    (hturns : outLen ≤ i * hash.hashLen + turns) :
    hash.drbgLoop K outLen i (out.take outLen) V =
      .ok ((collect hash.hmac K outLen turns V out).1.take outLen,
        (collect hash.hmac K outLen turns V out).2) := by
  have hpos := hash.pos
  induction turns generalizing i out V with
  | zero =>
      rw [drbgLoop, if_neg (by omega), collect]
  | succ turns ih =>
      rw [drbgLoop, collect]
      by_cases hmore : i * hash.hashLen < outLen
      · have hlen := hash.length_hmac K V
        have hnext : (out ++ hash.hmac K V).length = (i + 1) * hash.hashLen := by
          rw [List.length_append, hout, hlen, Nat.succ_mul]
        rw [if_pos hmore, if_pos (hout.trans_lt hmore), BRHMAC_eq, Machine.ok_bind,
          poke_block hlen hout hmore, Machine.ok_bind]
        exact ih hnext (by rw [Nat.succ_mul]; omega)
      · rw [if_neg hmore, if_neg (by omega)]

/-- `K` and `V` at the beginning of a call. -/
def startState (given : Bool) (K V : List UInt8) : DrbgState :=
  if given then ⟨List.replicate hash.hashLen 0x00, List.replicate hash.hashLen 0x01⟩ else ⟨K, V⟩

/-- The data of the first update: `V`, a zero and the seed material. -/
theorem poke_seeds
    {α : Type} {hashLen : ℕ} {V seed nonce ps : List UInt8}
    (hV : V.length = hashLen)
    (next : List UInt8 → Except CryptoFault α) :
    (do
      let buf ← poke (hashLen + 1 + seed.length + nonce.length + ps.length) [] 0 (V.take hashLen)
      let buf ← poke (hashLen + 1 + seed.length + nonce.length + ps.length) buf hashLen [0x00]
      let buf ← poke (hashLen + 1 + seed.length + nonce.length + ps.length) buf (hashLen + 1) seed
      let buf ← poke (hashLen + 1 + seed.length + nonce.length + ps.length) buf
        (hashLen + 1 + seed.length) nonce
      let buf ← poke (hashLen + 1 + seed.length + nonce.length + ps.length) buf
        (hashLen + 1 + seed.length + nonce.length) ps
      next buf) = next (V ++ 0x00 :: (seed ++ nonce ++ ps)) := by
  have hbuf : V ++ [0x00] ++ seed ++ nonce ++ ps = V ++ 0x00 :: (seed ++ nonce ++ ps) := by
    simp only [List.append_assoc, List.cons_append, List.nil_append]
  have hfirst : (V ++ [0x00]).length = hashLen + 1 := by
    rw [List.length_append, hV, List.length_singleton]
  rw [List.take_of_length_le hV.le, @poke_end _ 0 [] _ rfl (by omega), Machine.ok_bind,
    List.nil_append, poke_end hV (by rw [List.length_singleton]; omega), Machine.ok_bind,
    poke_end hfirst (by omega), Machine.ok_bind,
    poke_end (by rw [List.length_append, hfirst]) (by omega), Machine.ok_bind,
    poke_end (by rw [List.length_append, List.length_append, hfirst]) (by omega),
    Machine.ok_bind, hbuf]

/-- The data of the second update: `V` and the byte behind it are written over. -/
theorem poke_again
    {α : Type} {cap hashLen : ℕ} {V V' material : List UInt8}
    (hV : V.length = hashLen)
    (hV' : V'.length = hashLen)
    (hcap : hashLen + 1 ≤ cap)
    (next : List UInt8 → Except CryptoFault α) :
    (do
      let buf ← poke cap (V ++ 0x00 :: material) 0 (V'.take hashLen)
      let buf ← poke cap buf hashLen [0x01]
      next buf) = next (V' ++ 0x01 :: material) := by
  have hfirst : V ++ 0x00 :: material = [] ++ (V ++ 0x00 :: material) := rfl
  have hsecond : [] ++ (V' ++ 0x00 :: material) = V' ++ ([0x00] ++ material) := rfl
  rw [List.take_of_length_le hV'.le, hfirst,
    @poke_over _ 0 [] V _ V' rfl (hV.trans hV'.symm) (by omega), Machine.ok_bind, hsecond,
    @poke_over _ hashLen V' [0x00] _ [0x01] hV' rfl (by rw [List.length_singleton]; omega),
    Machine.ok_bind]
  rfl

/-- A call is an update with its seed material, and the loop. -/
theorem BRHMACDRBG_eq
    {K V : List UInt8} {seed nonce ps : Option (List UInt8)} (outLen : ℕ)
    (hV : (hash.startState (seed.isSome || nonce.isSome || ps.isSome) K V).V.length = hash.hashLen)
    (hgiven : (seed.isSome || nonce.isSome || ps.isSome) = true ↔
      seed.getD [] ++ nonce.getD [] ++ ps.getD [] ≠ []) :
    hash.BRHMACDRBG outLen K V seed nonce ps =
      (let s := update hash.hmac
          (hash.startState (seed.isSome || nonce.isSome || ps.isSome) K V)
          (seed.getD [] ++ nonce.getD [] ++ ps.getD [])
        let r := collect hash.hmac s.K outLen outLen s.V []
        .ok (r.1.take outLen, s.K, r.2)) := by
  generalize hg : (seed.isSome || nonce.isSome || ps.isSome) = given at hV hgiven
  generalize hseed : seed.getD [] = seed' at hgiven
  generalize hnonce : nonce.getD [] = nonce' at hgiven
  generalize hps : ps.getD [] = ps' at hgiven
  rw [BRHMACDRBG, hg, hseed, hnonce, hps]
  dsimp only
  obtain ⟨K₀, V₀, hstart⟩ : ∃ K₀ V₀, hash.startState given K V = ⟨K₀, V₀⟩ := ⟨_, _, rfl⟩
  have hK₀ : (if given = true then List.replicate hash.hashLen 0x00 else K) = K₀ := by
    have h := congrArg DrbgState.K hstart
    rw [startState] at h
    split_ifs at h ⊢ <;> exact h
  have hV₀ : (if given = true then List.replicate hash.hashLen 0x01 else V) = V₀ := by
    have h := congrArg DrbgState.V hstart
    rw [startState] at h
    split_ifs at h ⊢ <;> exact h
  rw [hstart] at hV
  change V₀.length = hash.hashLen at hV
  rw [hK₀, hV₀, hstart, poke_seeds hV, BRHMAC_eq, Machine.ok_bind, BRHMAC_eq, Machine.ok_bind,
    update]
  dsimp only
  have hlen := hash.length_hmac (hash.hmac K₀ (V₀ ++ 0x00 :: (seed' ++ nonce' ++ ps'))) V₀
  have hloop : ∀ K V, hash.drbgLoop K outLen 0 [] V =
      .ok ((collect hash.hmac K outLen outLen V []).1.take outLen,
        (collect hash.hmac K outLen outLen V []).2) := by
    intro K V
    have h := @drbgLoop_eq hash K V [] outLen 0 outLen (by rw [Nat.zero_mul]; rfl) (by omega)
    rwa [List.take_nil] at h
  by_cases hmaterial : seed' ++ nonce' ++ ps' = []
  · rw [if_neg (fun h => hgiven.mp h hmaterial), if_pos hmaterial, Machine.ok_bind]
    dsimp only
    rw [hloop, Machine.ok_bind]
  · rw [if_pos (hgiven.mpr hmaterial), if_neg hmaterial, poke_again hV hlen (by omega), BRHMAC_eq,
      Machine.ok_bind, BRHMAC_eq, Machine.ok_bind, Machine.ok_bind]
    dsimp only
    rw [hloop, Machine.ok_bind]

/-! ## Sequences of calls -/

/-- `V` keeps its length. -/
theorem length_collect
    {K V temp : List UInt8} {n : ℕ}
    (turns : ℕ)
    (hV : V.length = hash.hashLen) :
    (collect hash.hmac K n turns V temp).2.length = hash.hashLen := by
  induction turns generalizing V temp with
  | zero =>
      exact hV
  | succ turns ih =>
      rw [collect]
      split_ifs
      · exact ih (hash.length_hmac K V)
      · exact hV

theorem length_update
    (s : DrbgState) (provided : List UInt8) :
    (update hash.hmac s provided).V.length = hash.hashLen := by
  rw [update]
  dsimp only
  split_ifs <;> exact hash.length_hmac _ _

/-- The generator is one update ahead of `K` and `V`. -/
theorem drbgCalls_eq
    {K V : List UInt8} (outLens : List ℕ)
    (hV : V.length = hash.hashLen) :
    hash.drbgCalls K V outLens =
      .ok (generates hash.hmac (update hash.hmac ⟨K, V⟩ []) outLens) := by
  induction outLens generalizing K V with
  | nil =>
      rfl
  | cons outLen outLens ih =>
      have hcall := @BRHMACDRBG_eq hash K V none none none outLen hV (by decide)
      rw [drbgCalls, hcall]
      dsimp only
      rw [Machine.ok_bind]
      dsimp only
      rw [ih (hash.length_collect outLen (hash.length_update _ _)), Machine.ok_bind]
      rfl

end HashAlgorithm

section Sessions

variable {hash : HashAlgorithm} {K V : List UInt8} {seed nonce ps : Option (List UInt8)}

/-- A session with the generator: one call with seed material, and any number of calls
that go on from its `K` and `V`. -/
theorem drbg_session_outputs
    (outLen : ℕ) (outLens : List ℕ)
    (hmaterial : seed.getD [] ++ nonce.getD [] ++ ps.getD [] ≠ []) :
    hash.drbgSession K V seed nonce ps outLen outLens =
      .ok (generates hash.hmac
        (instantiate hash.hmac hash.hashLen (seed.getD [] ++ nonce.getD [] ++ ps.getD []))
        (outLen :: outLens)) := by
  have hgiven : (seed.isSome || nonce.isSome || ps.isSome) = true := by
    cases seed <;> cases nonce <;> cases ps <;> first | rfl | exact absurd rfl hmaterial
  have hstart : hash.startState (seed.isSome || nonce.isSome || ps.isSome) K V =
      ⟨List.replicate hash.hashLen 0x00, List.replicate hash.hashLen 0x01⟩ := by
    rw [hgiven]
    rfl
  have hcall := @HashAlgorithm.BRHMACDRBG_eq hash K V seed nonce ps outLen
    (by rw [hstart]; exact List.length_replicate) ⟨fun _ => hmaterial, fun _ => hgiven⟩
  rw [HashAlgorithm.drbgSession, hcall, hstart]
  dsimp only
  rw [Machine.ok_bind]
  dsimp only
  rw [hash.drbgCalls_eq outLens (hash.length_collect outLen (hash.length_update _ _)),
    Machine.ok_bind]
  rfl

theorem drbg_session_outputs_seed :
    headHash.drbgSession [] [] (some [7, 9]) none none 5 [0, 40] =
      .ok (generates headHash.hmac (instantiate headHash.hmac headHash.hashLen [7, 9])
        [5, 0, 40]) :=
  @drbg_session_outputs headHash [] [] (some [7, 9]) none none 5 [0, 40] (by decide)

end Sessions

end BreadwalletCore
