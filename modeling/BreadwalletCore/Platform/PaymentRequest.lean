import BreadwalletCore.Data.DecimalText
import BreadwalletCore.Data.Uri
import BreadwalletCore.Platform.QueryString

/-!
# Payment requests

`PaymentRequest` of `PaymentRequest.swift`, with `Satoshis.init(btcString:)`.

* A string is the list of its scalars, a URL its string, and `none` is a trap.
* Which strings are URLs and which addresses are valid is given.  A URL is split as in
  the generic syntax, and decimals are exact.
* A payment protocol request is kept as its data.
-/

namespace BreadwalletCore

open PercentEncoding
open DecimalText (Decimal print scan)

/-- What is given: the strings `NSURL(string:)` takes, the scalars that belong to the
character in front of them, and the valid addresses. -/
structure PaymentEnv where
  isURL : List Char → Bool
  joins : Char → Bool
  isValidAddress : List Char → Bool

inductive PaymentRequestType
  | local
  | remote
deriving DecidableEq

structure PaymentRequest where
  type : PaymentRequestType := .local
  toAddress : Option (List Char) := none
  amount : Option ℕ := none
  label : Option (List Char) := none
  message : Option (List Char) := none
  remoteRequest : Option (List Char) := none
  paymentProtoclRequest : Option (List UInt8) := none
  r : Option (List Char) := none
deriving DecidableEq

/-! ## Amounts -/

/-- `Satoshis.init(btcString:)` -/
def satoshis (btcString : List Char) : Option ℕ :=
  (scan btcString).map (fun d => (d.scale 8).uint64)

def convertToBTC (fromSatoshis : ℕ) : List Char :=
  print (Decimal.scale ⟨fromSatoshis, 0⟩ (-8))

theorem satoshis_convertToBTC
    {n : ℕ}
    (hn : n < 2 ^ 64) :
    satoshis (convertToBTC n) = some n :=
  DecimalText.uint64_scan_print 8 hn

/-! ## From a string -/

/-- A member of `whitespacesAndNewlines`. -/
def isWhitespaceOrNewline (c : Char) : Bool :=
  (0x9 ≤ c.toNat && c.toNat ≤ 0xd) || (0x2000 ≤ c.toNat && c.toNat ≤ 0x200a) ||
    [0x20, 0x85, 0xa0, 0x1680, 0x2028, 0x2029, 0x202f, 0x205f, 0x3000].contains c.toNat

def trimmed (s : List Char) : List Char :=
  ((s.dropWhile isWhitespaceOrNewline).reverse.dropWhile isWhitespaceOrNewline).reverse

/-- `replacingOccurrences(of: " ", with: "%20")` -/
def escapeSpaces (s : List Char) : List Char :=
  s.flatMap (fun c => if c = ' ' then ['%', '2', '0'] else [c])

/-- The string the first URL is made of. -/
def urlString (s : List Char) : List Char :=
  escapeSpaces (trimmed s)

/-- The scheme of the currency. -/
def urlScheme : List Char :=
  ['b', 'i', 't', 'c', 'o', 'r', 'e']

section Functions

variable (env : PaymentEnv)

/-- The `switch` over the key. -/
def PaymentRequest.setValue (req : PaymentRequest) (key value : List Char) : PaymentRequest :=
  if key = ['a', 'm', 'o', 'u', 'n', 't'] then { req with amount := satoshis value }
  else if key = ['l', 'a', 'b', 'e', 'l'] ∨ key = ['m', 'e', 'm', 'o'] then
    { req with label := some value }
  else if key = ['m', 'e', 's', 's', 'a', 'g', 'e'] then { req with message := some value }
  else if key = ['r'] then { req with r := if env.isURL value then some value else none }
  else req

/-- A turn of the loop over the components of the query. -/
def PaymentRequest.readComponent (req : PaymentRequest) (component : List Char) :
    Option PaymentRequest :=
  match component.splitOn '=' with
  | key :: _ :: _ => do
      let value ← unescape ((component.drop (key.length + 1)).map plusToSpace)
      some (req.setValue env key value)
  | _ => some req

/-- The request of a URL with the scheme of the currency. -/
def requestOfURL (url : List Char) : Option (Option PaymentRequest) :=
  let req : PaymentRequest := { toAddress := Uri.host url }
  match Uri.query url with
  | none => some (some req)
  | some query => do
      let req ← (query.splitOn '&').foldlM (PaymentRequest.readComponent env) req
      if req.r = none ∧ req.toAddress = none then some none
      else some (some { req with type := if req.r = none then .local else .remote })

/-- What is left: the string may be an address. -/
def requestOfAddress (s : List Char) : Option PaymentRequest :=
  if env.isValidAddress s then some { toAddress := some s } else none

/-- `PaymentRequest.init(string:)` -/
def requestOfString (s : List Char) : Option (Option PaymentRequest) :=
  let url := urlString s
  if env.isURL url then
    match Uri.splitScheme url with
    | some (scheme, resourceSpecifier) =>
        if Uri.host url = none then
          let url := scheme ++ ':' :: '/' :: '/' :: resourceSpecifier
          if env.isURL url then
            if Uri.scheme url = some urlScheme then requestOfURL env url
            else some (requestOfAddress env s)
          else none
        else if scheme = ['h', 't', 't', 'p'] ∨ scheme = ['h', 't', 't', 'p', 's'] then
          some (some { type := .remote, remoteRequest := some url })
        else some (requestOfAddress env s)
    | none => some (requestOfAddress env s)
  else some (requestOfAddress env s)

/-- `PaymentRequest.init(data:)` -/
def requestOfData (data : List UInt8) : PaymentRequest :=
  { paymentProtoclRequest := some data }

/-- `?amount=` and the amount. -/
def amountText (n : ℕ) : List Char :=
  '?' :: (['a', 'm', 'o', 'u', 'n', 't'] ++ '=' :: convertToBTC n)

/-- `PaymentRequest.requestString` -/
def requestString (address : List Char) (forAmount : ℕ) : List Char :=
  if env.isValidAddress address then urlScheme ++ ':' :: (address ++ amountText forAmount) else []

/-! ## From a server -/

/-- What the task is completed with; a response has its MIME type. -/
structure PaymentReply where
  error : Bool := false
  data : Option (List UInt8) := none
  response : Option (Option (List Char)) := none

/-- `line.hasPrefix("#")`, for whole characters. -/
def isComment (line : List Char) : Bool :=
  match line with
  | [] => false
  | [c] => c = '#'
  | c :: d :: _ => c = '#' && !env.joins d

/-- The loop over the lines: what the completion is called with. -/
def uriListCalls : List (List Char) → Option (List (Option PaymentRequest))
  | [] => some []
  | line :: lines =>
      if isComment env line then uriListCalls lines
      else (requestOfString env line).map (fun request => [request])

def paymentRequestType : List Char :=
  "application/bitcoin-paymentrequest".toList

def uriListType : List Char :=
  "text/uri-list".toList

/-- `fetchRemoteRequest`: what the completion is called with, call by call. -/
def PaymentRequest.fetchRemoteRequest (self : PaymentRequest) (reply : PaymentReply) :
    Option (List (Option PaymentRequest)) :=
  if self.r = none ∧ self.remoteRequest = none then none
  else if reply.error then some [none]
  else
    match reply.data, reply.response with
    | some data, some mimeType =>
        let mimeType := mimeType.map (fun t => t.map Char.toLower)
        if mimeType = some paymentRequestType then some [some (requestOfData data)]
        else if mimeType = some uriListType then do
          let text ← decode data
          let calls ← uriListCalls env (text.splitOn '\n')
          some (calls ++ [none])
        else some [none]
    | _, _ => some [none]

end Functions

section Results

variable {env : PaymentEnv}

/-! ## Strings that trap -/

/-- A component of a query: what is behind its first `=` can be unescaped. -/
def ComponentReads (component : List Char) : Prop :=
  ∀ k v, component = k ++ '=' :: v → '=' ∉ k → WellEscaped v

theorem readComponent_isSome_iff
    (req : PaymentRequest) (component : List Char) :
    (req.readComponent env component).isSome ↔ ComponentReads component := by
  by_cases hmem : '=' ∈ component
  · obtain ⟨k, v, heq, hk⟩ := List.eq_append_cons_of_mem hmem
    have hsplit : component.splitOn '=' = k :: v.splitOn '=' := by
      rw [heq, List.splitOn_append_cons_self_of_not_mem hk]
    obtain ⟨first, others, hv⟩ := List.exists_cons_of_ne_nil (List.splitOn_ne_nil '=' v)
    have hdrop : component.drop (k.length + 1) = v := by
      rw [heq, ← List.drop_drop, List.drop_left, List.drop_one, List.tail_cons]
    have hreads : ComponentReads component ↔ WellEscaped v := by
      refine ⟨fun h => h k v heq hk, fun h k' v' heq' hk' => ?_⟩
      have hsplit' : component.splitOn '=' = k' :: v'.splitOn '=' := by
        rw [heq', List.splitOn_append_cons_self_of_not_mem hk']
      have hkey := (List.cons.inj (hsplit.symm.trans hsplit')).1
      rw [heq', hkey] at heq
      rwa [(List.cons.inj (List.append_cancel_left heq)).2]
    rw [hreads, ← isSome_unescape_plus, PaymentRequest.readComponent, hsplit, hv]
    dsimp only
    rw [hdrop]
    cases unescape (v.map plusToSpace) <;> exact Iff.rfl
  · have hsplit := List.splitOn_eq_singleton hmem
    rw [PaymentRequest.readComponent, hsplit]
    refine ⟨fun _ k v heq _ => absurd ?_ hmem, fun _ => rfl⟩
    rw [heq]
    exact List.mem_append_right k List.mem_cons_self

theorem foldlM_readComponent_isSome_iff
    (components : List (List Char)) (req : PaymentRequest) :
    (components.foldlM (PaymentRequest.readComponent env) req).isSome ↔
      ∀ component ∈ components, ComponentReads component := by
  induction components generalizing req with
  | nil =>
      exact ⟨fun _ _ h => absurd h List.not_mem_nil, fun _ => rfl⟩
  | cons component components ih =>
      have hone := @readComponent_isSome_iff env req component
      rw [List.foldlM_cons, List.forall_mem_cons, ← hone]
      cases h : req.readComponent env component with
      | none =>
          exact ⟨fun h => absurd h Bool.false_ne_true, fun h => absurd h.1 Bool.false_ne_true⟩
      | some next =>
          exact ⟨fun h => ⟨rfl, (ih next).mp h⟩, fun h => (ih next).mpr h.2⟩

theorem requestOfURL_isSome_iff
    (url : List Char) :
    (requestOfURL env url).isSome ↔
      ∀ query, Uri.query url = some query →
        ∀ component ∈ query.splitOn '&', ComponentReads component := by
  rw [requestOfURL]
  cases hquery : Uri.query url with
  | none =>
      exact ⟨fun _ query h => absurd h.symm (Option.some_ne_none query), fun _ => rfl⟩
  | some query =>
      have hloop := @foldlM_readComponent_isSome_iff env (query.splitOn '&')
        { toAddress := Uri.host url }
      dsimp only
      cases hrun : (query.splitOn '&').foldlM (PaymentRequest.readComponent env)
          { toAddress := Uri.host url } with
      | none =>
          rw [hrun] at hloop
          exact ⟨fun h => absurd h Bool.false_ne_true,
            fun h => absurd (hloop.mpr (h query rfl)) Bool.false_ne_true⟩
      | some req =>
          rw [hrun] at hloop
          refine ⟨fun _ query' h => ?_, fun _ => ?_⟩
          · rw [← Option.some.inj h]
            exact hloop.mp rfl
          · rw [Option.bind_eq_bind, Option.bind_some]
            split_ifs <;> rfl

/-- Whether a string can be read: a string with a scheme and without an authority is a URL
with one too, and if its scheme is the currency's, the values of its query can be
unescaped. -/
def StringReads (env : PaymentEnv) (s : List Char) : Prop :=
  ∀ scheme rest, urlString s = scheme ++ ':' :: rest → Uri.IsScheme scheme →
    ¬ ['/', '/'] <+: rest → env.isURL (urlString s) = true →
      env.isURL (scheme ++ ':' :: '/' :: '/' :: rest) = true ∧
        (scheme = urlScheme → ∀ query, Uri.query rest = some query →
          ∀ component ∈ query.splitOn '&', ComponentReads component)

/-- The URL with an authority has the query of the first one. -/
theorem query_authority
    {scheme : List Char} (rest : List Char)
    (hscheme : Uri.IsScheme scheme) :
    Uri.query (scheme ++ ':' :: '/' :: '/' :: rest) = Uri.query rest := by
  have hfront : ∀ c ∈ scheme ++ [':', '/', '/'], Uri.endsPath c = false := by
    intro c hc
    rcases List.mem_append.mp hc with hc | hc
    · exact Uri.endsPath_of_endsScheme (hscheme.2 c hc)
    · have hslashes : ∀ c ∈ [':', '/', '/'], Uri.endsPath c = false := by simp [Uri.endsPath]
      exact hslashes c hc
  have happend : scheme ++ ':' :: '/' :: '/' :: rest = (scheme ++ [':', '/', '/']) ++ rest := by
    rw [List.append_assoc]
    rfl
  rw [happend, Uri.query_append rest hfront]

theorem requestOfString_isSome_iff
    (s : List Char) :
    (requestOfString env s).isSome ↔ StringReads env s := by
  rw [requestOfString, StringReads]
  dsimp only
  by_cases hurl : env.isURL (urlString s) = true
  · rw [if_pos hurl]
    cases hsplit : Uri.splitScheme (urlString s) with
    | none =>
        refine ⟨fun _ scheme rest heq hscheme => ?_, fun _ => rfl⟩
        rw [heq, Uri.splitScheme_append rest hscheme] at hsplit
        exact absurd hsplit (Option.some_ne_none _)
    | some parts =>
        obtain ⟨scheme, rest⟩ := parts
        obtain ⟨heq, hscheme⟩ := Uri.eq_of_splitScheme hsplit
        have hhost := Uri.host_eq_none_iff hsplit
        have hsecond := Uri.scheme_append ('/' :: '/' :: rest) hscheme
        dsimp only
        by_cases hnone : Uri.host (urlString s) = none
        · rw [if_pos hnone]
          by_cases hagain : env.isURL (scheme ++ ':' :: '/' :: '/' :: rest) = true
          · rw [if_pos hagain, hsecond]
            by_cases hcurrency : scheme = urlScheme
            · rw [if_pos (congrArg some hcurrency), requestOfURL_isSome_iff,
                query_authority rest hscheme]
              refine ⟨fun h scheme' rest' heq' hscheme' _ _ => ?_, fun h => ?_⟩
              · obtain ⟨rfl, rfl⟩ := Uri.eq_of_append hsplit heq' hscheme'
                exact ⟨hagain, fun _ => h⟩
              · exact (h scheme rest heq hscheme (hhost.mp hnone) hurl).2 hcurrency
            · rw [if_neg (fun h => hcurrency (Option.some.inj h))]
              refine ⟨fun _ scheme' rest' heq' hscheme' _ _ => ?_, fun _ => rfl⟩
              obtain ⟨rfl, rfl⟩ := Uri.eq_of_append hsplit heq' hscheme'
              exact ⟨hagain, fun h => absurd h hcurrency⟩
          · rw [if_neg hagain]
            refine ⟨fun h => absurd h Bool.false_ne_true, fun h => ?_⟩
            exact absurd (h scheme rest heq hscheme (hhost.mp hnone) hurl).1 hagain
        · rw [if_neg hnone]
          refine ⟨fun _ scheme' rest' heq' hscheme' hprefix _ => ?_, fun _ => ?_⟩
          · obtain ⟨rfl, rfl⟩ := Uri.eq_of_append hsplit heq' hscheme'
            exact absurd (hhost.mpr hprefix) hnone
          · split_ifs <;> rfl
  · rw [if_neg hurl]
    exact ⟨fun _ scheme rest _ _ _ h => absurd h hurl, fun _ => rfl⟩

/-! ## Requests that are built -/

theorem convertToBTC_chars
    {n : ℕ} {c : Char}
    (hc : c ∈ convertToBTC n) :
    isWhitespaceOrNewline c = false ∧ c ≠ ' ' ∧ c ≠ '&' ∧ c ≠ '=' ∧ c ≠ '#' ∧ c ≠ '%' ∧ c ≠ '+' ∧
      (c.isAlphanum = true ∨ c = '.') := by
  have hprint : c ∈ print ⟨n, -(8 : ℕ)⟩ := by
    rwa [convertToBTC, Decimal.scale, zero_add] at hc
  rcases DecimalText.print_chars hprint with ⟨d, hd, rfl⟩ | rfl
  · clear hc hprint
    revert d
    decide
  · decide

theorem convertToBTC_ne_nil
    (n : ℕ) :
    convertToBTC n ≠ [] := by
  rw [convertToBTC, Decimal.scale, zero_add]
  exact DecimalText.print_ne_nil n 8

/-- A string with no white space at its ends. -/
theorem trimmed_eq
    {c d : Char} {t l : List Char}
    (hc : isWhitespaceOrNewline c = false)
    (hd : isWhitespaceOrNewline d = false)
    (heq : c :: t = l ++ [d]) :
    trimmed (c :: t) = c :: t := by
  rw [trimmed, List.dropWhile_cons_of_neg (by rw [hc]; decide), heq, List.reverse_append,
    List.reverse_singleton, List.singleton_append, List.dropWhile_cons_of_neg (by rw [hd]; decide),
    List.reverse_cons, List.reverse_reverse]

theorem escapeSpaces_append
    (s t : List Char) :
    escapeSpaces (s ++ t) = escapeSpaces s ++ escapeSpaces t :=
  List.flatMap_append

theorem escapeSpaces_eq
    {s : List Char}
    (hs : ' ' ∉ s) :
    escapeSpaces s = s := by
  induction s with
  | nil =>
      rfl
  | cons c s ih =>
      rw [List.mem_cons, not_or] at hs
      rw [escapeSpaces, List.flatMap_cons, if_neg (fun h => hs.1 h.symm)]
      exact congrArg (fun l => c :: l) (ih hs.2)

theorem space_not_mem_escapeSpaces
    (s : List Char) :
    ' ' ∉ escapeSpaces s := by
  intro h
  obtain ⟨c, -, hc⟩ := List.mem_flatMap.mp h
  split_ifs at hc with hcase
  · exact absurd hc (by decide)
  · exact hcase (List.mem_singleton.mp hc).symm

theorem space_not_mem_amountText
    (n : ℕ) :
    ' ' ∉ amountText n := by
  have hkey : ' ' ∉ ['a', 'm', 'o', 'u', 'n', 't'] := by decide
  have hvalue : ' ' ∉ '=' :: convertToBTC n :=
    List.not_mem_cons_of_ne_of_not_mem (by decide) (fun h => (convertToBTC_chars h).2.1 rfl)
  exact List.not_mem_cons_of_ne_of_not_mem (by decide)
    (fun h => (List.mem_append.mp h).elim hkey hvalue)

/-- The URL of a request. -/
theorem urlString_request
    (a : List Char) (n : ℕ) :
    urlString (urlScheme ++ ':' :: (a ++ amountText n)) =
      urlScheme ++ ':' :: (escapeSpaces a ++ amountText n) := by
  obtain ⟨l, d, hlast⟩ := (List.eq_nil_or_concat' (convertToBTC n)).resolve_left
    (convertToBTC_ne_nil n)
  have hmem : d ∈ convertToBTC n := by
    rw [hlast]
    exact List.mem_append_right l List.mem_cons_self
  have hd := (convertToBTC_chars hmem).1
  have htrim : trimmed (urlScheme ++ ':' :: (a ++ amountText n)) =
      urlScheme ++ ':' :: (a ++ amountText n) := by
    refine trimmed_eq (c := 'b') (d := d) (l := urlScheme ++ ':' :: (a ++
      ('?' :: (['a', 'm', 'o', 'u', 'n', 't'] ++ '=' :: l)))) (by decide) hd ?_
    rw [amountText, hlast]
    simp [urlScheme]
  rw [urlString, htrim, escapeSpaces_append, escapeSpaces_eq (by decide : ' ' ∉ urlScheme),
    ← List.singleton_append, escapeSpaces_append, escapeSpaces_append,
    escapeSpaces_eq (by decide : ' ' ∉ [':']), escapeSpaces_eq (space_not_mem_amountText n)]
  rfl

theorem isScheme_urlScheme : Uri.IsScheme urlScheme := by
  refine ⟨by decide, ?_⟩
  simp [urlScheme, Uri.endsScheme]

/-- A request for an amount, read back. -/
def RequestReadsBack (env : PaymentEnv) (a : List Char) (n : ℕ) : Prop :=
  ∃ req, requestOfString env (requestString env a n) = some (some req) ∧ req.type = .local ∧
    req.toAddress = some a ∧ req.amount = some n

/-- Whether an address can stand in a URL: it is its own host, and the two strings are
URLs. -/
structure AddressReads (env : PaymentEnv) (a : List Char) (n : ℕ) : Prop where
  space : ' ' ∉ a
  host : Uri.IsHost a
  first : env.isURL (urlScheme ++ ':' :: (a ++ amountText n)) = true
  second : env.isURL (urlScheme ++ ':' :: '/' :: '/' :: (a ++ amountText n)) = true

theorem readComponent_toAddress
    {req req' : PaymentRequest} {component : List Char}
    (h : req.readComponent env component = some req') :
    req'.toAddress = req.toAddress := by
  rw [PaymentRequest.readComponent] at h
  split at h
  · next key _ _ _ =>
      obtain ⟨value, -, hvalue⟩ := Option.bind_eq_some_iff.mp h
      rw [← Option.some.inj hvalue, PaymentRequest.setValue]
      split_ifs <;> rfl
  · rw [Option.some.inj h]

theorem foldlM_readComponent_toAddress
    {components : List (List Char)} {req req' : PaymentRequest}
    (h : components.foldlM (PaymentRequest.readComponent env) req = some req') :
    req'.toAddress = req.toAddress := by
  induction components generalizing req with
  | nil =>
      rw [Option.some.inj h]
  | cons component components ih =>
      rw [List.foldlM_cons] at h
      obtain ⟨next, hnext, hrest⟩ := Option.bind_eq_some_iff.mp h
      exact (ih hrest).trans (readComponent_toAddress hnext)

theorem requestOfURL_toAddress
    {url : List Char} {req : PaymentRequest}
    (h : requestOfURL env url = some (some req)) :
    req.toAddress = Uri.host url := by
  rw [requestOfURL] at h
  cases hquery : Uri.query url with
  | none =>
      rw [hquery] at h
      rw [← Option.some.inj (Option.some.inj h)]
  | some query =>
      rw [hquery] at h
      obtain ⟨last, hlast, hreq⟩ := Option.bind_eq_some_iff.mp h
      by_cases hmissing : last.r = none ∧ last.toAddress = none
      · rw [if_pos hmissing] at hreq
        exact absurd (Option.some.inj hreq).symm (Option.some_ne_none _)
      · rw [if_neg hmissing] at hreq
        rw [← Option.some.inj (Option.some.inj hreq)]
        exact foldlM_readComponent_toAddress hlast

/-- The component with the amount. -/
theorem readComponent_amount
    (req : PaymentRequest) {n : ℕ}
    (hn : n < 2 ^ 64) :
    req.readComponent env (['a', 'm', 'o', 'u', 'n', 't'] ++ '=' :: convertToBTC n) =
      some { req with amount := some n } := by
  have hequals : '=' ∉ convertToBTC n := fun h => (convertToBTC_chars h).2.2.2.1 rfl
  have hplus : (convertToBTC n).map plusToSpace = convertToBTC n :=
    (List.map_congr_left (fun c hc => if_neg (convertToBTC_chars hc).2.2.2.2.2.2.1)).trans
      (List.map_id _)
  have hencodes : ∀ s : List Char, '%' ∉ s → Encodes s s := by
    intro s hs
    induction s with
    | nil =>
        exact encodes_nil
    | cons c s ih =>
        rw [List.mem_cons, not_or] at hs
        exact (encodes_char (fun h => hs.1 h.symm)).append (ih hs.2)
  have hunescape : unescape (convertToBTC n) = some (convertToBTC n) :=
    (hencodes _ (fun h => (convertToBTC_chars h).2.2.2.2.2.1 rfl)).unescape
  have hsplit : (['a', 'm', 'o', 'u', 'n', 't'] ++ '=' :: convertToBTC n).splitOn '=' =
      [['a', 'm', 'o', 'u', 'n', 't'], convertToBTC n] := by
    rw [List.splitOn_append_cons_self_of_not_mem (by decide), List.splitOn_eq_singleton hequals]
  rw [PaymentRequest.readComponent, hsplit]
  dsimp only
  have hdrop : (['a', 'm', 'o', 'u', 'n', 't'] ++ '=' :: convertToBTC n).drop
      (['a', 'm', 'o', 'u', 'n', 't'].length + 1) = convertToBTC n := rfl
  rw [hdrop, hplus, hunescape, Option.bind_eq_bind, Option.bind_some, PaymentRequest.setValue,
    if_pos rfl, satoshis_convertToBTC hn]

/-- The URL of a request, with its address as the host. -/
theorem requestOfURL_request
    {a : List Char} {n : ℕ}
    (hn : n < 2 ^ 64)
    (ha : Uri.IsHost a) :
    requestOfURL env (urlScheme ++ ':' :: '/' :: '/' :: (a ++ amountText n)) =
      some (some { toAddress := some a, amount := some n }) := by
  have hhost : Uri.host (urlScheme ++ ':' :: '/' :: '/' :: (a ++ amountText n)) = some a := by
    rw [Uri.host_append _ isScheme_urlScheme]
    exact congrArg some ((Uri.isHost_iff (amountText n) rfl).mpr ha)
  have hquery : Uri.query (urlScheme ++ ':' :: '/' :: '/' :: (a ++ amountText n)) =
      some (['a', 'm', 'o', 'u', 'n', 't'] ++ '=' :: convertToBTC n) := by
    have hpath : ∀ c ∈ a, Uri.endsPath c = false := fun c hc =>
      Uri.endsPath_of_endsAuthority (ha.plain c hc)
    have hfragment : '#' ∉ ['a', 'm', 'o', 'u', 'n', 't'] ++ '=' :: convertToBTC n := by
      have hkey : '#' ∉ ['a', 'm', 'o', 'u', 'n', 't'] := by decide
      have hvalue : '#' ∉ '=' :: convertToBTC n :=
        List.not_mem_cons_of_ne_of_not_mem (by decide)
          (fun h => (convertToBTC_chars h).2.2.2.2.1 rfl)
      exact fun h => (List.mem_append.mp h).elim hkey hvalue
    rw [query_authority _ isScheme_urlScheme, Uri.query_append _ hpath, amountText,
      Uri.query_cons hfragment]
  have hsplit : (['a', 'm', 'o', 'u', 'n', 't'] ++ '=' :: convertToBTC n).splitOn '&' =
      [['a', 'm', 'o', 'u', 'n', 't'] ++ '=' :: convertToBTC n] := by
    have hkey : '&' ∉ ['a', 'm', 'o', 'u', 'n', 't'] := by decide
    have hvalue : '&' ∉ '=' :: convertToBTC n :=
      List.not_mem_cons_of_ne_of_not_mem (by decide) (fun h => (convertToBTC_chars h).2.2.1 rfl)
    exact List.splitOn_eq_singleton (fun h => (List.mem_append.mp h).elim hkey hvalue)
  rw [requestOfURL, hquery, hhost]
  dsimp only
  rw [hsplit, List.foldlM_cons, readComponent_amount _ hn]
  rfl

/-- A string that is longer than an address is not that address. -/
theorem requestOfAddress_ne
    {a : List Char} {n : ℕ} {req : PaymentRequest}
    (h : some (requestOfAddress env (urlScheme ++ ':' :: (a ++ amountText n))) =
      some (some req)) :
    req.toAddress ≠ some a := by
  intro haddress
  rw [requestOfAddress] at h
  split_ifs at h
  · rw [← Option.some.inj (Option.some.inj h)] at haddress
    have hlen := congrArg List.length (Option.some.inj haddress)
    rw [List.length_append, List.length_cons, List.length_append] at hlen
    omega
  · exact absurd (Option.some.inj h).symm (Option.some_ne_none req)

/-- What becomes of the string of a request. -/
theorem requestOfString_request
    {a : List Char} (n : ℕ)
    (hvalid : env.isValidAddress a = true) :
    requestOfString env (requestString env a n) =
      if env.isURL (urlScheme ++ ':' :: (escapeSpaces a ++ amountText n)) = true then
        if Uri.host (urlScheme ++ ':' :: (escapeSpaces a ++ amountText n)) = none then
          if env.isURL (urlScheme ++ ':' :: '/' :: '/' :: (escapeSpaces a ++ amountText n)) =
              true then
            requestOfURL env (urlScheme ++ ':' :: '/' :: '/' :: (escapeSpaces a ++ amountText n))
          else none
        else some (requestOfAddress env (urlScheme ++ ':' :: (a ++ amountText n)))
      else some (requestOfAddress env (urlScheme ++ ':' :: (a ++ amountText n))) := by
  have hsplit := Uri.splitScheme_append (escapeSpaces a ++ amountText n) isScheme_urlScheme
  have hsecond := Uri.scheme_append ('/' :: '/' :: (escapeSpaces a ++ amountText n))
    isScheme_urlScheme
  rw [requestString, if_pos hvalid, requestOfString, urlString_request]
  dsimp only
  rw [hsplit]
  dsimp only
  rw [hsecond, if_pos rfl, @if_neg (urlScheme = _ ∨ urlScheme = _) _ (by decide)]

theorem requestReadsBack_iff
    {a : List Char} {n : ℕ}
    (hvalid : env.isValidAddress a = true)
    (hn : n < 2 ^ 64) :
    RequestReadsBack env a n ↔ AddressReads env a n := by
  have hrun := requestOfString_request n hvalid
  constructor
  · rintro ⟨req, hreq, -, haddress, -⟩
    rw [hrun] at hreq
    split_ifs at hreq with hfirst hhost hagain
    · have hown := requestOfURL_toAddress hreq
      rw [haddress, Uri.host_append _ isScheme_urlScheme] at hown
      have hspace : ' ' ∉ a := by
        intro hmem
        rw [Option.some.inj hown] at hmem
        have hmem' := (List.takeWhile_sublist _).subset (Uri.mem_of_mem_hostOf hmem)
        exact (List.mem_append.mp hmem').elim (space_not_mem_escapeSpaces a)
          (space_not_mem_amountText n)
      rw [escapeSpaces_eq hspace] at hown hfirst hagain
      exact ⟨hspace, (Uri.isHost_iff (amountText n) rfl).mp (Option.some.inj hown).symm, hfirst,
        hagain⟩
    · exact absurd haddress (requestOfAddress_ne hreq)
    · exact absurd haddress (requestOfAddress_ne hreq)
  · intro h
    have hauthority : ¬ ['/', '/'] <+: escapeSpaces a ++ amountText n := by
      rw [escapeSpaces_eq h.space]
      intro hprefix
      cases a with
      | nil =>
          exact absurd (List.cons_prefix_cons.mp hprefix).1 (by decide)
      | cons c a =>
          have hslash := h.host.plain c List.mem_cons_self
          rw [← (List.cons_prefix_cons.mp hprefix).1] at hslash
          exact absurd hslash (by decide)
    refine ⟨{ toAddress := some a, amount := some n }, ?_, rfl, rfl, rfl⟩
    have hhost := (Uri.host_eq_none_iff
      (Uri.splitScheme_append _ isScheme_urlScheme)).mpr hauthority
    rw [hrun, if_pos hhost, escapeSpaces_eq h.space, if_pos h.first, if_pos h.second]
    exact requestOfURL_request hn h.host

/-- What is accepted at least: an address of letters and digits, in front of a query of
letters, digits, points and equals signs. -/
def PlainURLs (env : PaymentEnv) : Prop :=
  ∀ a q : List Char, (∀ c ∈ a, c.isAlphanum = true) →
    (∀ c ∈ q, c.isAlphanum = true ∨ c = '=' ∨ c = '.') →
      env.isURL (urlScheme ++ ':' :: (a ++ '?' :: q)) = true ∧
        env.isURL (urlScheme ++ ':' :: '/' :: '/' :: (a ++ '?' :: q)) = true

/-- Every address of letters and digits can be read back. -/
theorem addressReads_of_alphanum
    {a : List Char} {n : ℕ}
    (hplain : PlainURLs env)
    (ha : ∀ c ∈ a, c.isAlphanum = true) :
    AddressReads env a n := by
  have hne : ∀ c ∈ a, ∀ d : Char, d.isAlphanum = false → c ≠ d := by
    rintro c hc d hd rfl
    exact absurd ((ha c hc).symm.trans hd) (by decide)
  have hquery : ∀ c ∈ ['a', 'm', 'o', 'u', 'n', 't'] ++ '=' :: convertToBTC n,
      c.isAlphanum = true ∨ c = '=' ∨ c = '.' := by
    intro c hc
    rcases List.mem_append.mp hc with hc | hc
    · have hkey : ∀ c ∈ ['a', 'm', 'o', 'u', 'n', 't'], c.isAlphanum = true :=
        List.all_eq_true.mp (by decide)
      exact Or.inl (hkey c hc)
    · rcases List.mem_cons.mp hc with hc | hc
      · exact Or.inr (Or.inl hc)
      · exact (convertToBTC_chars hc).2.2.2.2.2.2.2.imp_right Or.inr
  have haccepted := hplain a _ ha hquery
  refine ⟨fun h => hne _ h ' ' (by decide) rfl, Uri.isHost_of_forall (fun c hc => ?_),
    haccepted.1, haccepted.2⟩
  refine ⟨hne c hc _ (by decide), hne c hc _ (by decide), hne c hc _ (by decide), ?_⟩
  rw [Uri.endsAuthority, decide_eq_false (hne c hc '/' (by decide)),
    decide_eq_false (hne c hc '?' (by decide)), decide_eq_false (hne c hc '#' (by decide))]
  rfl

/-! ## Requests that are fetched -/

/-- The completion is called exactly once. -/
def CompletesOnce (env : PaymentEnv) (self : PaymentRequest) (reply : PaymentReply) : Prop :=
  ∃ request, self.fetchRemoteRequest env reply = some [request]

/-- Whether a reply is handled: there is something to fetch, and a list of URIs is in
UTF-8 and has comments only. -/
def ReplyReads (env : PaymentEnv) (self : PaymentRequest) (reply : PaymentReply) : Prop :=
  ¬ (self.r = none ∧ self.remoteRequest = none) ∧
    (reply.error = false → ∀ data mimeType, reply.data = some data →
      reply.response = some (some mimeType) → mimeType.map Char.toLower = uriListType →
        ∃ text, data = utf8 text ∧ ∀ line ∈ text.splitOn '\n', isComment env line = true)

theorem uriListCalls_eq_nil_iff
    (lines : List (List Char)) :
    uriListCalls env lines = some [] ↔ ∀ line ∈ lines, isComment env line = true := by
  induction lines with
  | nil =>
      exact ⟨fun _ _ h => absurd h List.not_mem_nil, fun _ => rfl⟩
  | cons line lines ih =>
      rw [uriListCalls, List.forall_mem_cons]
      split_ifs with hcomment
      · exact ⟨fun h => ⟨hcomment, ih.mp h⟩, fun h => ih.mpr h.2⟩
      · refine ⟨fun h => ?_, fun h => absurd h.1 hcomment⟩
        obtain ⟨request, -, hcalls⟩ := Option.map_eq_some_iff.mp h
        exact absurd hcalls (List.cons_ne_nil _ _)

/-- A list of URIs is completed once if it has comments only. -/
theorem uriList_once_iff
    (data : List UInt8) :
    (∃ request, (do
        let text ← decode data
        let calls ← uriListCalls env (text.splitOn '\n')
        some (calls ++ [none])) = some [request]) ↔
      ∃ text, data = utf8 text ∧ ∀ line ∈ text.splitOn '\n', isComment env line = true := by
  constructor
  · rintro ⟨request, h⟩
    obtain ⟨text, htext, h⟩ := Option.bind_eq_some_iff.mp h
    obtain ⟨calls, hcalls, h⟩ := Option.bind_eq_some_iff.mp h
    have hlen := congrArg List.length (Option.some.inj h)
    rw [List.length_append, List.length_singleton, List.length_singleton] at hlen
    rw [List.eq_nil_of_length_eq_zero (by omega : calls.length = 0)] at hcalls
    exact ⟨text, decode_eq_some htext, (uriListCalls_eq_nil_iff _).mp hcalls⟩
  · rintro ⟨text, rfl, hcomments⟩
    refine ⟨none, ?_⟩
    rw [decode_utf8, Option.bind_eq_bind, Option.bind_some,
      (uriListCalls_eq_nil_iff _).mpr hcomments]
    rfl

theorem completesOnce_iff
    (self : PaymentRequest) (reply : PaymentReply) :
    CompletesOnce env self reply ↔ ReplyReads env self reply := by
  rw [CompletesOnce, ReplyReads, PaymentRequest.fetchRemoteRequest]
  by_cases hnothing : self.r = none ∧ self.remoteRequest = none
  · rw [if_pos hnothing]
    exact ⟨fun ⟨_, h⟩ => absurd h.symm (Option.some_ne_none _), fun h => absurd hnothing h.1⟩
  · rw [if_neg hnothing]
    by_cases herror : reply.error = true
    · rw [if_pos herror]
      refine ⟨fun _ => ⟨hnothing, fun h => ?_⟩, fun _ => ⟨none, rfl⟩⟩
      rw [herror] at h
      exact absurd h (by decide)
    · rw [if_neg herror]
      have hfalse : reply.error = false := by rwa [Bool.not_eq_true] at herror
      cases hdata : reply.data with
      | none =>
          exact ⟨fun _ => ⟨hnothing, fun _ data _ h => absurd h.symm (Option.some_ne_none data)⟩,
            fun _ => ⟨none, rfl⟩⟩
      | some data =>
          cases hresponse : reply.response with
          | none =>
              exact ⟨fun _ => ⟨hnothing,
                fun _ _ mimeType _ h => absurd h.symm (Option.some_ne_none (some mimeType))⟩,
                fun _ => ⟨none, rfl⟩⟩
          | some mimeType =>
              dsimp only
              by_cases hlist :
                  mimeType.map (fun t => t.map Char.toLower) = some uriListType
              · obtain ⟨t, ht, hlower⟩ := Option.map_eq_some_iff.mp hlist
                have hne : mimeType.map (fun t => t.map Char.toLower) ≠
                    some paymentRequestType := by
                  rw [hlist]
                  decide
                rw [if_neg hne, if_pos hlist, uriList_once_iff]
                refine ⟨fun h => ⟨hnothing, fun _ data' t' hdata' _ _ => ?_⟩, fun h => ?_⟩
                · rw [← Option.some.inj hdata']
                  exact h
                · exact h.2 hfalse data t rfl (congrArg some ht) hlower
              · have hother : ∀ t, mimeType = some t → t.map Char.toLower ≠ uriListType := by
                  rintro t rfl h
                  exact hlist (congrArg some h)
                rw [if_neg hlist]
                refine ⟨fun _ => ⟨hnothing, fun _ _ t _ ht hlower => ?_⟩, fun _ => ?_⟩
                · exact absurd hlower (hother t (Option.some.inj ht))
                · split_ifs
                  · exact ⟨_, rfl⟩
                  · exact ⟨_, rfl⟩

/-! ## The codec -/

/-- What payment URIs should do: a request for an amount is read back, no string traps, and
a fetch is completed once for every reply.  It holds exactly if the address can stand in a
URL, the string can be read and the reply is handled; the first is so for every address of
letters and digits. -/
theorem payment_codec_iff
    {a s : List Char} {n : ℕ} {self : PaymentRequest} {reply : PaymentReply}
    (hvalid : env.isValidAddress a = true)
    (hn : n < 2 ^ 63) :
    ((RequestReadsBack env a n ∧ (∃ result, requestOfString env s = some result) ∧
        CompletesOnce env self reply) ↔
      AddressReads env a n ∧ StringReads env s ∧ ReplyReads env self reply) ∧
    (PlainURLs env → (∀ c ∈ a, c.isAlphanum = true) → AddressReads env a n) := by
  refine ⟨?_, addressReads_of_alphanum⟩
  rw [requestReadsBack_iff hvalid (hn.trans (by decide)), completesOnce_iff,
    ← requestOfString_isSome_iff, Option.isSome_iff_exists]

/-- Strings of the characters of a URL, and one address. -/
def sampleEnv : PaymentEnv where
  isURL s := s.all (fun c => c.isAlphanum || [':', '/', '?', '=', '.', '&', '%'].contains c)
  joins c := 0x300 ≤ c.toNat && c.toNat ≤ 0x36f
  isValidAddress a := a = ['2', 'B', 'x']

theorem plainURLs_sampleEnv : PlainURLs sampleEnv := by
  intro a q ha hq
  have htail : ∀ front : List Char, sampleEnv.isURL front = true →
      sampleEnv.isURL (front ++ (a ++ '?' :: q)) = true := by
    intro front hfront
    refine List.all_eq_true.mpr (fun c hc => ?_)
    rcases List.mem_append.mp hc with hc | hc
    · exact List.all_eq_true.mp hfront c hc
    · rcases List.mem_append.mp hc with hc | hc
      · rw [ha c hc, Bool.true_or]
      · rcases List.mem_cons.mp hc with rfl | hc
        · decide
        · rcases hq c hc with hc | rfl | rfl
          · rw [hc, Bool.true_or]
          · decide
          · decide
  exact ⟨htail (urlScheme ++ [':']) (by decide), htail (urlScheme ++ [':', '/', '/']) (by decide)⟩

theorem payment_codec_sample :
    RequestReadsBack sampleEnv ['2', 'B', 'x'] 150000001 ∧
      (∃ result, requestOfString sampleEnv ['2', 'B', 'x'] = some result) ∧
        CompletesOnce sampleEnv { remoteRequest := some ['h'] } { error := true } := by
  have hcodec := @payment_codec_iff sampleEnv ['2', 'B', 'x'] ['2', 'B', 'x'] 150000001
    { remoteRequest := some ['h'] } { error := true } (by decide) (by decide)
  exact hcodec.1.mpr ⟨hcodec.2 plainURLs_sampleEnv (List.all_eq_true.mp (by decide)),
    requestOfString_isSome_iff _ |>.mp (by decide), by decide, fun h => absurd h (by decide)⟩

/-- A value that is not UTF-8 traps, and a list with a URI is completed twice. -/
theorem payment_codec_twice :
    ¬ (∃ result, requestOfString sampleEnv
        (urlScheme ++ [':', '?', 'r', '=', '%', 'F', 'F']) = some result) ∧
      ¬ CompletesOnce sampleEnv { remoteRequest := some ['h'] }
        { data := some [0x78], response := some (some uriListType) } := by
  constructor
  · rw [← Option.isSome_iff_exists, requestOfString_isSome_iff]
    intro h
    have hread := (h urlScheme ['?', 'r', '=', '%', 'F', 'F'] (by decide) isScheme_urlScheme
      (by decide) (by decide)).2 rfl _ rfl _ List.mem_cons_self ['r'] ['%', 'F', 'F'] rfl (by decide)
    have hnot : ¬ WellEscaped ['%', 'F', 'F'] := by
      rw [← isSome_unescape_iff]
      decide +kernel
    exact hnot hread
  · rw [completesOnce_iff]
    rintro ⟨-, h⟩
    obtain ⟨text, htext, hcomments⟩ := h rfl _ _ rfl rfl (by decide)
    have hx : text = ['x'] := by
      have hdecode := decode_utf8 text
      rw [← htext] at hdecode
      exact (Option.some.inj ((decode_utf8 ['x']).symm.trans hdecode)).symm
    rw [hx] at hcomments
    exact absurd (hcomments ['x'] (by decide)) (by decide)

end Results

end BreadwalletCore
