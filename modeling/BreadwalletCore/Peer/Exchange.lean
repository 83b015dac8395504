import BreadwalletCore.MerkleBlock.Codec
import BreadwalletCore.Peer.Payload

/-!
# Two peers that exchange transactions

The inv, getdata, tx and notfound messages between the two ends of a connection,
from `BRPeerSendInv` and `BRPeerSendGetdata` to the handlers at the other end.
Messages in one direction arrive in the order in which they were sent; apart
from that, calls and deliveries come in any order.

* What is written as an inventory is read as the items it was written from.
* `Link` is the connection: two contexts and the messages on the way.
* Every transaction that is announced or requested is at exactly one place, in
  every state of every run: on the way, or known, delivered or not found at the
  end that it was announced to.

The other messages have no part in this and are not put on the way.
-/

namespace BreadwalletCore

open Machine
open Segment (slice At at_append at_zero_iff)

/-! ## Inventories -/

/-- An item of an inventory. -/
def inventoryItem (item : ℕ × UInt256) : List UInt8 :=
  LittleEndian.bytes 4 item.1 ++ hashBytes item.2

/-- A count with the items behind it. -/
def inventory (items : List (List UInt8)) : List UInt8 :=
  varIntSet items.length ++ items.flatten

/-- The message of `BRPeerSendInv`. -/
def invMessage (txHashes : List UInt256) : List UInt8 :=
  inventory ((txHashes.map (invTx, ·)).map inventoryItem)

/-- The message of `BRPeerSendGetdata`. -/
def getdataMessage (txHashes blockHashes : List UInt256) : List UInt8 :=
  inventory ((txHashes.map (invTx, ·) ++ blockHashes.map (invFilteredBlock, ·)).map inventoryItem)

/-- An inventory that the handlers take. -/
structure Listable (items : List (ℕ × UInt256)) : Prop where
  count : items.length ≤ maxGetdataHashes
  types : ∀ item ∈ items, item.1 < 2 ^ 32

/-- The hashes of the items of one type. -/
def itemHashes (type : ℕ) (items : List (ℕ × UInt256)) : List UInt256 :=
  (items.filter (fun item => item.1 = type)).map Prod.snd

@[simp] theorem itemHashes_append
    (type : ℕ) (items items' : List (ℕ × UInt256)) :
    itemHashes type (items ++ items') = itemHashes type items ++ itemHashes type items' := by
  rw [itemHashes, List.filter_append, List.map_append]
  rfl

@[simp] theorem itemHashes_same
    (type : ℕ) (hashes : List UInt256) :
    itemHashes type (hashes.map (type, ·)) = hashes := by
  simp [itemHashes, List.filter_map, Function.comp_def]

theorem itemHashes_other
    {type other : ℕ} (hne : other ≠ type) (hashes : List UInt256) :
    itemHashes type (hashes.map (other, ·)) = [] := by
  simp [itemHashes, List.filter_map, Function.comp_def, hne]

section Read

variable {items : List (ℕ × UInt256)}

theorem length_inventoryItem
    (item : ℕ × UInt256) :
    (inventoryItem item).length = 36 := by
  rw [inventoryItem, List.length_append, LittleEndian.length_bytes, length_hashBytes]

theorem length_inventory
    (items : List (ℕ × UInt256)) :
    (inventory (items.map inventoryItem)).length = varIntSize items.length + 36 * items.length := by
  have hitems : ((items.map inventoryItem).flatten).length = 36 * items.length := by
    induction items with
    | nil =>
        rfl
    | cons item items ih =>
        rw [List.map_cons, List.flatten_cons, List.length_append, length_inventoryItem, ih,
          List.length_cons]
        omega
  rw [inventory, List.length_append, hitems, RawTransaction.length_varIntSet_eq, List.length_map]

/-- The items stand one behind the other. -/
theorem at_item
    {buf : List UInt8} {off i : ℕ}
    (h : At buf off (items.map inventoryItem).flatten)
    (hi : i < items.length) :
    At buf (off + 36 * i) (inventoryItem items[i]) := by
  induction items generalizing off i with
  | nil =>
      cases hi
  | cons item items ih =>
      rw [List.map_cons, List.flatten_cons, at_append, length_inventoryItem] at h
      cases i with
      | zero =>
          exact h.1
      | succ i =>
          have hrest := ih h.2 (Nat.lt_of_succ_lt_succ hi)
          rw [List.getElem_cons_succ, show off + 36 * (i + 1) = off + 36 + 36 * i by omega]
          exact hrest

/-- What stands in a written inventory. -/
theorem at_inventory
    (l : List (List UInt8)) :
    At (inventory l) 0 (varIntSet l.length) ∧
      At (inventory l) (varIntSize l.length) l.flatten := by
  have hall : At (inventory l) 0 (varIntSet l.length ++ l.flatten) :=
    at_zero_iff.mpr ⟨[], (List.append_nil _).symm⟩
  rw [at_append, RawTransaction.length_varIntSet_eq, Nat.zero_add] at hall
  exact hall

theorem Listable.count_read
    (h : Listable items) :
    varInt (inventory (items.map inventoryItem)) 0 = (items.length, varIntSize items.length) := by
  have hcount := h.count
  have hread := RawMerkleBlock.varInt_of_at_varIntSet (at_inventory (items.map inventoryItem)).1 (by
    rw [List.length_map]
    exact lt_of_le_of_lt hcount (by decide))
  rwa [List.length_map] at hread

/-- The item at a position is read. -/
theorem Listable.read
    (h : Listable items)
    {i : ℕ}
    (hi : i < items.length) :
    let msg := inventory (items.map inventoryItem)
    let off := varIntSize items.length + 36 * i
    LittleEndian.value (slice msg off 4) = items[i].1 ∧
      BitVec.ofNat 256 (LittleEndian.value (slice msg (off + 4) 32)) = items[i].2 ∧
      slice msg off 36 = inventoryItem items[i] := by
  intro msg off
  have hitems := (at_inventory (items.map inventoryItem)).2
  rw [List.length_map] at hitems
  have hat : At msg off (inventoryItem items[i]) := at_item hitems hi
  have hparts := hat
  rw [inventoryItem, at_append, LittleEndian.length_bytes] at hparts
  refine ⟨value_slice_of_at hparts.1 ?_, RawMerkleBlock.hash_of_at hparts.2, ?_⟩
  · exact lt_of_lt_of_eq (h.types _ (List.getElem_mem hi)) (by norm_num)
  · have hslice := hat.2
    rwa [length_inventoryItem] at hslice

/-- The items are read in their order. -/
theorem Listable.items_read
    (h : Listable items) :
    (List.range items.length).map (fun i =>
      (LittleEndian.value (slice (inventory (items.map inventoryItem))
        (varIntSize items.length + 36 * i) 4),
      BitVec.ofNat 256 (LittleEndian.value (slice (inventory (items.map inventoryItem))
        (varIntSize items.length + 36 * i + 4) 32)))) = items := by
  refine List.ext_getElem (by simp) ?_
  intro i hi hi'
  obtain ⟨htype, hhash, -⟩ := h.read hi'
  rw [List.getElem_map, List.getElem_range]
  exact Prod.ext htype hhash

/-- No sum wraps. -/
theorem Listable.fits
    (h : Listable items) :
    wrap (varIntSize items.length + 36 * items.length) =
      (inventory (items.map inventoryItem)).length := by
  have hcount := h.count
  have hsize := (varIntSize_le items.length).2.1
  rw [maxGetdataHashes] at hcount
  rw [length_inventory, wrap_of_lt (by omega)]

theorem varIntSize_ne_zero
    (n : ℕ) :
    varIntSize n ≠ 0 := by
  rw [varIntSize]
  split_ifs <;> simp

/-- The hashes that the handler of an inv message finds. -/
theorem Listable.invHashes
    (h : Listable items) (type : ℕ) :
    PeerContext.invHashes (inventory (items.map inventoryItem)) (varIntSize items.length)
      items.length type = itemHashes type items := by
  conv_rhs => rw [← h.items_read]
  rw [PeerContext.invHashes, itemHashes, List.filter_map, List.map_map]
  rfl

/-- The length is as announced. -/
theorem Listable.not_malformed
    (h : Listable items) :
    ¬ (varIntSize items.length = 0 ∨ wrap (varIntSize items.length + 36 * items.length) >
      (inventory (items.map inventoryItem)).length) := by
  rw [h.fits]
  exact not_or.mpr ⟨varIntSize_ne_zero _, lt_irrefl _⟩

/-- What the handler of a notfound message reports. -/
theorem Listable.notfound
    (h : Listable items) :
    (Payload.acceptNotfound (inventory (items.map inventoryItem))).value =
      ((itemHashes invTx items,
        (items.filter (fun item => item.1 = invFilteredBlock ∨ item.1 = invBlock)).map Prod.snd),
        true) := by
  have hcount : (Payload.readVarInt (inventory (items.map inventoryItem)) 0).value =
      (items.length, varIntSize items.length) := h.count_read
  have hread := h.items_read
  rw [Payload.acceptNotfound]
  simp only [Traced.value_bind, Payload.lengthNeeded, apply_ite Traced.value, hcount]
  rw [if_neg h.not_malformed, if_neg (not_lt.mpr h.count)]
  exact congrArg (fun items : List (ℕ × UInt256) => ((itemHashes invTx items,
    (items.filter (fun item => item.1 = invFilteredBlock ∨ item.1 = invBlock)).map Prod.snd),
    true)) hread

/-! ## The answer to a getdata message -/

variable {requestedTx : UInt256 → Option RawTransaction}

/-- The transaction that is sent for an item. -/
def served (requestedTx : UInt256 → Option RawTransaction) (item : ℕ × UInt256) :
    Option RawTransaction :=
  if item.1 = invTx then (requestedTx item.2).filter (fun tx => tx.size < txMaxSize) else none

/-- The items without a transaction. -/
def unserved (requestedTx : UInt256 → Option RawTransaction) (items : List (ℕ × UInt256)) :
    List (ℕ × UInt256) :=
  items.filter (fun item => served requestedTx item = none)

theorem Listable.answerItem
    (h : Listable items)
    {i : ℕ} (hi : i < items.length) (answer : Payload.GetdataAnswer) :
    (Payload.answerItem requestedTx (inventory (items.map inventoryItem))
      (varIntSize items.length) answer i).value =
      ⟨answer.published ++ (served requestedTx items[i]).toList,
        answer.notfound ++ (unserved requestedTx [items[i]]).map inventoryItem⟩ := by
  obtain ⟨htype, hhash, hitem⟩ := h.read hi
  rw [Payload.answerItem]
  have hfold : (if items[i].1 = invTx then
      (requestedTx items[i].2).filter (fun tx => tx.size < txMaxSize) else none) =
      served requestedTx items[i] := rfl
  simp only [Traced.value_bind, Payload.readLE, Payload.readHash, htype, hhash, hfold]
  cases hserved : served requestedTx items[i] with
  | none =>
      simp [unserved, hserved, Payload.readBytes, hitem]
  | some tx =>
      simp [unserved, hserved]

theorem Listable.answerItems
    (h : Listable items)
    (n i : ℕ) (hn : i + n = items.length) (answer : Payload.GetdataAnswer) :
    (Payload.answerItems requestedTx (inventory (items.map inventoryItem))
      (varIntSize items.length) n i answer).value =
      ⟨answer.published ++ (items.drop i).filterMap (served requestedTx),
        answer.notfound ++ (unserved requestedTx (items.drop i)).map inventoryItem⟩ := by
  induction n generalizing i answer with
  | zero =>
      rw [List.drop_of_length_le (by omega)]
      simp [Payload.answerItems, unserved]
  | succ n ih =>
      have hi : i < items.length := by omega
      rw [Payload.answerItems, Traced.value_bind, h.answerItem hi, ih (i + 1) (by omega),
        List.drop_eq_getElem_cons hi]
      simp only [unserved, List.filterMap_cons, List.filter_cons, List.append_assoc]
      cases served requestedTx items[i] <;> simp

/-- What the handler of a getdata message sends. -/
theorem Listable.getdata
    (h : Listable items) :
    (Payload.acceptGetdata requestedTx (inventory (items.map inventoryItem))).value =
      (⟨items.filterMap (served requestedTx), (unserved requestedTx items).map inventoryItem⟩,
        true) := by
  have hcount : (Payload.readVarInt (inventory (items.map inventoryItem)) 0).value =
      (items.length, varIntSize items.length) := h.count_read
  rw [Payload.acceptGetdata]
  simp only [Traced.value_bind, Payload.lengthNeeded, apply_ite Traced.value, hcount]
  rw [if_neg h.not_malformed, if_neg (not_lt.mpr h.count), Traced.value_pure,
    h.answerItems _ 0 (Nat.zero_add _)]
  rfl

end Read

/-! ## The connection -/

/-- A message on its way, with its type. -/
abbrev Packet := MessageType × List UInt8

/-- The message of an event, if it has a part in the exchange. -/
def PeerEvent.packets : PeerEvent → List Packet
  | .sentInv txHashes => [(.inv, invMessage txHashes)]
  | .sentGetdata txHashes blockHashes => [(.getdata, getdataMessage txHashes blockHashes)]
  | _ => []

/-- The messages in answer to a getdata message. -/
def Payload.GetdataAnswer.packets (answer : Payload.GetdataAnswer) : List Packet :=
  answer.published.map (fun tx => (.tx, tx.serialize)) ++
    if answer.notfound = [] then [] else [(.notfound, inventory answer.notfound)]

/-- What becomes of a transaction at one side. -/
inductive NoteKind
  /-- sent by `BRPeerSendInv` -/
  | announced
  /-- sent by `BRPeerSendGetdata` when the application calls it -/
  | requested
  /-- `hasTx` is called -/
  | known
  /-- `relayedTx` is called -/
  | delivered
  /-- `notfound` is called -/
  | missing
deriving DecidableEq

structure Note where
  side : Bool
  kind : NoteKind
  txHash : UInt256

/-- Notes of one kind. -/
def notes (side : Bool) (kind : NoteKind) (hashes : List UInt256) : List Note :=
  hashes.map (fun h => ⟨side, kind, h⟩)

/-- The notes of a call. -/
def PeerEvent.callNotes (side : Bool) : PeerEvent → List Note
  | .sentInv txHashes => notes side .announced txHashes
  | .sentGetdata txHashes _ => notes side .requested txHashes
  | _ => []

/-- The notes of a message. -/
def PeerEvent.messageNotes (side : Bool) : PeerEvent → List Note
  | .hasTx txHash => notes side .known [txHash]
  | .relayedTx tx => notes side .delivered [tx.txHash]
  | _ => []

/-- Two peers, and the messages on the way to each of them. -/
structure Link where
  ctx : Bool → PeerContext
  queue : Bool → List Packet

/-- A call at one side, or the arrival of the first message on the way to it. -/
structure LinkInput where
  side : Bool
  /-- `requestedTx` -/
  requestedTx : UInt256 → Option RawTransaction
  call : Option PeerCall

namespace Link

/-- The handlers of the getdata and notfound messages among the others. -/
def handlers (env : PeerEnv) (requestedTx : UInt256 → Option RawTransaction) : PeerEnv :=
  { env with
    accepts := fun type msg =>
      match type with
      | .getdata => (Payload.acceptGetdata requestedTx msg).value.2
      | .notfound => (Payload.acceptNotfound msg).value.2
      | type => env.accepts type msg }

/-- What a getdata message makes a peer send. -/
def answers (requestedTx : UInt256 → Option RawTransaction) : Packet → List Packet
  | (.getdata, msg) => (Payload.acceptGetdata requestedTx msg).value.1.packets
  | _ => []

/-- The transactions that an inventory lists. -/
def listed (msg : List UInt8) : List UInt256 :=
  (Payload.acceptNotfound msg).value.1.1

/-- What a notfound message reports. -/
def reports : Packet → List UInt256
  | (.notfound, msg) => listed msg
  | _ => []

/-- A peer goes on with `ctx` and sends some messages. -/
def send (s : Link) (side : Bool) (ctx : PeerContext) (packets : List Packet) : Link where
  ctx := Function.update s.ctx side ctx
  queue := Function.update s.queue (!side) (s.queue (!side) ++ packets)

/-- One step of the connection.  A peer that has refused a message reads no
other. -/
def step (env : PeerEnv) (s : Link) (i : LinkInput) : Except PeerFault (Link × List Note) :=
  match i.call with
  | some call => do
      let r ← (s.ctx i.side).step ⟨env, call⟩
      pure (s.send i.side r.1 (r.2.flatMap PeerEvent.packets),
        r.2.flatMap (PeerEvent.callNotes i.side))
  | none =>
      match s.queue i.side with
      | [] => pure (s, [])
      | packet :: rest =>
          if (s.ctx i.side).isReading then do
            let r ← (s.ctx i.side).step ⟨handlers env i.requestedTx, .message packet.1 packet.2⟩
            let taken : Link := { s with queue := Function.update s.queue i.side rest }
            if r.1.isReading then
              pure (taken.send i.side r.1
                  (r.2.flatMap PeerEvent.packets ++ answers i.requestedTx packet),
                r.2.flatMap (PeerEvent.messageNotes i.side) ++
                  notes i.side .missing (reports packet))
            else
              pure (taken.send i.side r.1 (r.2.flatMap PeerEvent.packets),
                r.2.flatMap (PeerEvent.messageNotes i.side))
          else pure (s, [])

/-- The filter of a peer has been sent, and it waits for no block. -/
structure Ready (ctx : PeerContext) : Prop where
  sentFilter : ctx.sentFilter = true
  currentBlock : ctx.currentBlock = none
  isReading : ctx.isReading = true

/-- A transaction that is sent can be read, and is the one that was asked for. -/
def Serves (env : PeerEnv) (requestedTx : UInt256 → Option RawTransaction) : Prop :=
  ∀ h tx, requestedTx h = some tx → ∃ tx' n,
    parse env.codec env.sha256d tx.serialize = .ok (some (tx', n)) ∧ tx'.txHash = h

/-- What the steps of a run have to observe. -/
structure Fair (env : PeerEnv) (s : Link) (i : LinkInput) : Prop where
  /-- messages come from the other side -/
  call : ∀ type msg, i.call ≠ some (.message type msg)
  /-- no more is announced at once than the other side takes -/
  short : ∀ txHashes, i.call = some (.sendInv txHashes) →
    (((s.ctx i.side).addKnownTxHashes txHashes).newKnown (s.ctx i.side)).length ≤ 10000
  serves : Serves env i.requestedTx

/-- A message that is on the way arrives. -/
structure Arrives (env : PeerEnv) (s : Link) (i : LinkInput) : Prop where
  call : i.call = none
  queue : s.queue i.side ≠ []
  serves : Serves env i.requestedTx

/-- The hashes noted at one side. -/
def noted (side : Bool) (kind : NoteKind) (log : List Note) : List UInt256 :=
  (log.filter (fun n => n.side = side ∧ n.kind = kind)).map Note.txHash

/-- The transactions that a message tells its receiver about. -/
def told (env : PeerEnv) : Packet → List UInt256
  | (.inv, msg) => listed msg
  | (.notfound, msg) => listed msg
  | (.tx, msg) =>
      match parse env.codec env.sha256d msg with
      | .ok (some (tx, _)) => [tx.txHash]
      | _ => []
  | _ => []

/-- The transactions that a message asks for. -/
def asked : Packet → List UInt256
  | (.getdata, msg) => listed msg
  | _ => []

/-- A bound on the arrivals that a message leads to. -/
def weight : Packet → ℕ
  | (.inv, msg) => (listed msg).length + 3
  | (.getdata, msg) => (listed msg).length + 2
  | _ => 1

/-- A bound on the arrivals that some messages lead to. -/
def load (packets : List Packet) : ℕ :=
  (packets.map weight).sum

/-- A bound on the arrivals that the messages on the way lead to. -/
def pending (s : Link) : ℕ :=
  load (s.queue false) + load (s.queue true)

/-- A message that the other side takes. -/
inductive Sound (env : PeerEnv) : Packet → Prop where
  | inv {txHashes : List UInt256} :
      txHashes.length ≤ 10000 → Sound env (.inv, invMessage txHashes)
  | getdata {txHashes blockHashes : List UInt256} :
      txHashes.length + blockHashes.length ≤ maxGetdataHashes →
      Sound env (.getdata, getdataMessage txHashes blockHashes)
  | tx {msg : List UInt8} {tx : RawTransaction} {n : ℕ} :
      parse env.codec env.sha256d msg = .ok (some (tx, n)) → Sound env (.tx, msg)
  | notfound {items : List (ℕ × UInt256)} :
      Listable items → Sound env (.notfound, inventory (items.map inventoryItem))

/-! ## Notes -/

@[simp] theorem noted_append
    (side : Bool) (kind : NoteKind) (log log' : List Note) :
    noted side kind (log ++ log') = noted side kind log ++ noted side kind log' := by
  rw [noted, List.filter_append, List.map_append]
  rfl

@[simp] theorem noted_nil
    (side : Bool) (kind : NoteKind) :
    noted side kind [] = [] := by
  rfl

@[simp] theorem noted_notes
    (side : Bool) (kind kind' : NoteKind) (hashes : List UInt256) :
    noted side kind (notes side kind' hashes) = if kind' = kind then hashes else [] := by
  by_cases hkind : kind' = kind <;>
    simp [noted, notes, List.filter_map, Function.comp_def, hkind]

/-- Nothing is noted at the other side. -/
theorem noted_other
    {side : Bool} {log : List Note}
    (h : ∀ n ∈ log, n.side = side) (kind : NoteKind) :
    noted (!side) kind log = [] := by
  rw [noted, List.filter_eq_nil_iff.mpr, List.map_nil]
  intro n hn
  simp [h n hn]

/-! ## What is listed -/

theorem listable_inv
    {txHashes : List UInt256}
    (h : txHashes.length ≤ maxGetdataHashes) :
    Listable (txHashes.map (invTx, ·)) where
  count := by rwa [List.length_map]
  types := by simp [invTx]

theorem listable_getdata
    {txHashes blockHashes : List UInt256}
    (h : txHashes.length + blockHashes.length ≤ maxGetdataHashes) :
    Listable (txHashes.map (invTx, ·) ++ blockHashes.map (invFilteredBlock, ·)) where
  count := by rwa [List.length_append, List.length_map, List.length_map]
  types := by
    intro item hitem
    rw [List.mem_append, List.mem_map, List.mem_map] at hitem
    rcases hitem with ⟨_, _, rfl⟩ | ⟨_, _, rfl⟩ <;> norm_num [invTx, invFilteredBlock]

theorem listed_inventory
    {items : List (ℕ × UInt256)}
    (h : Listable items) :
    listed (inventory (items.map inventoryItem)) = itemHashes invTx items := by
  rw [listed, h.notfound]

theorem listed_invMessage
    {txHashes : List UInt256}
    (h : txHashes.length ≤ maxGetdataHashes) :
    listed (invMessage txHashes) = txHashes := by
  rw [invMessage, listed_inventory (listable_inv h), itemHashes_same]

theorem listed_getdataMessage
    {txHashes blockHashes : List UInt256}
    (h : txHashes.length + blockHashes.length ≤ maxGetdataHashes) :
    listed (getdataMessage txHashes blockHashes) = txHashes := by
  rw [getdataMessage, listed_inventory (listable_getdata h), itemHashes_append, itemHashes_same,
    itemHashes_other (by decide), List.append_nil]

/-! ## One step -/

section Step

variable {env : PeerEnv} {side : Bool} {ctx ctx' : PeerContext}

/-- What a step at one side does.  It takes `taken` off the queue and sends
`sent`, and every transaction it learns about or sends is noted or sent on. -/
structure Effect (env : PeerEnv) (side : Bool) (ctx ctx' : PeerContext)
    (taken sent : List Packet) (log : List Note) : Prop where
  ready : Ready ctx'
  sound : ∀ p ∈ sent, Sound env p
  side_eq : ∀ n ∈ log, n.side = side
  told_eq : (sent.flatMap (told env)).Perm (noted side .announced log ++ taken.flatMap asked)
  asked_eq : (noted side .requested log ++ taken.flatMap (told env)).Perm
    (noted side .known log ++ noted side .delivered log ++ noted side .missing log ++
      sent.flatMap asked)
  known : ctx.knownTxHashes ⊆ ctx'.knownTxHashes
  nodup : (noted side .announced log).Nodup
  fresh : ∀ h ∈ noted side .announced log, h ∉ ctx.knownTxHashes ∧ h ∈ ctx'.knownTxHashes
  lighter : taken ≠ [] → load sent < load taken

/-- Nothing that has a part in the exchange. -/
theorem Effect.quiet
    (hready : Ready ctx') (hknown : ctx.knownTxHashes ⊆ ctx'.knownTxHashes) :
    Effect env side ctx ctx' [] [] [] where
  ready := hready
  sound := by simp
  side_eq := by simp
  told_eq := .refl _
  asked_eq := .refl _
  known := hknown
  nodup := .nil
  fresh := by simp
  lighter := by simp

/-- What `_BRPeerAddKnownTxHashes` adds. -/
theorem addKnown_foldl
    (txHashes known : List UInt256) :
    ∃ new, txHashes.foldl PeerContext.addKnown known = known ++ new ∧ new.Nodup ∧
      ∀ h ∈ new, h ∉ known := by
  induction txHashes generalizing known with
  | nil =>
      exact ⟨[], (List.append_nil _).symm, .nil, by simp⟩
  | cons h txHashes ih =>
      rw [List.foldl_cons, PeerContext.addKnown]
      split
      · exact ih known
      · rename_i hnew
        obtain ⟨new, heq, hnodup, hfresh⟩ := ih (known ++ [h])
        refine ⟨h :: new, by rw [heq, List.append_assoc]; rfl, ?_, ?_⟩
        · refine List.nodup_cons.mpr ⟨fun hmem => ?_, hnodup⟩
          exact hfresh h hmem (by simp)
        · intro x hx
          rcases List.mem_cons.mp hx with rfl | hx
          · exact hnew
          · exact fun hmem => hfresh x hx (by simp [hmem])

theorem known_addKnownTxHashes
    (ctx : PeerContext) (txHashes : List UInt256) :
    ctx.knownTxHashes ⊆ (ctx.addKnownTxHashes txHashes).knownTxHashes := by
  obtain ⟨new, heq, -⟩ := addKnown_foldl txHashes ctx.knownTxHashes
  rw [PeerContext.addKnownTxHashes, heq]
  exact List.subset_append_left _ _

/-- A request by the application. -/
theorem sendGetdata_effect
    (hready : Ready ctx) (txHashes blockHashes : List UInt256) :
    Effect env side ctx (ctx.sendGetdata txHashes blockHashes).1 []
      ((ctx.sendGetdata txHashes blockHashes).2.flatMap PeerEvent.packets)
      ((ctx.sendGetdata txHashes blockHashes).2.flatMap (PeerEvent.callNotes side)) := by
  rw [PeerContext.sendGetdata]
  split_ifs with hmany hsome
  · exact .quiet hready (List.Subset.refl _)
  · rw [not_lt] at hmany
    refine ⟨⟨hready.sentFilter, hready.currentBlock, hready.isReading⟩, ?_, ?_, ?_, ?_,
      List.Subset.refl _, ?_, ?_, by simp⟩
    · simpa [PeerEvent.packets] using Sound.getdata hmany
    · simp [PeerEvent.callNotes, notes]
    · simp [PeerEvent.packets, PeerEvent.callNotes, told]
    · simp [PeerEvent.packets, PeerEvent.callNotes, asked, listed_getdataMessage hmany]
    · simp [PeerEvent.callNotes]
    · simp [PeerEvent.callNotes]
  · exact .quiet hready (List.Subset.refl _)

/-- An announcement. -/
theorem sendInv_effect
    (hready : Ready ctx) (txHashes : List UInt256)
    (hshort : ((ctx.addKnownTxHashes txHashes).newKnown ctx).length ≤ 10000) :
    Effect env side ctx (ctx.sendInv txHashes).1 []
      ((ctx.sendInv txHashes).2.flatMap PeerEvent.packets)
      ((ctx.sendInv txHashes).2.flatMap (PeerEvent.callNotes side)) := by
  obtain ⟨new, heq, hnodup, hfresh⟩ := addKnown_foldl txHashes ctx.knownTxHashes
  have hknown : (ctx.addKnownTxHashes txHashes).knownTxHashes = ctx.knownTxHashes ++ new := heq
  have hnew : (ctx.addKnownTxHashes txHashes).newKnown ctx = new := by
    rw [PeerContext.newKnown, hknown, List.drop_left]
  have hready' : Ready (ctx.addKnownTxHashes txHashes) :=
    ⟨hready.sentFilter, hready.currentBlock, hready.isReading⟩
  rw [hnew] at hshort
  rw [PeerContext.sendInv, hnew]
  split_ifs with hnone
  · exact .quiet hready' (known_addKnownTxHashes ctx txHashes)
  · have hlisted : listed (invMessage new) = new :=
      listed_invMessage (hshort.trans (by decide))
    refine ⟨hready', ?_, ?_, ?_, ?_, known_addKnownTxHashes ctx txHashes, ?_, ?_, by simp⟩
    · simpa [PeerEvent.packets] using Sound.inv hshort
    · simp [PeerEvent.callNotes, notes]
    · simp [PeerEvent.packets, PeerEvent.callNotes, told, hlisted]
    · simp [PeerEvent.packets, PeerEvent.callNotes, asked]
    · simpa [PeerEvent.callNotes] using hnodup
    · intro h hh
      have hmem : h ∈ new := by simpa [PeerEvent.callNotes] using hh
      exact ⟨hfresh h hmem, by rw [hknown]; exact List.mem_append_right _ hmem⟩

/-- A call of the application. -/
theorem call_effect
    {call : PeerCall}
    (hready : Ready ctx)
    (hcall : ∀ type msg, call ≠ .message type msg)
    (hshort : ∀ txHashes, call = .sendInv txHashes →
      ((ctx.addKnownTxHashes txHashes).newKnown ctx).length ≤ 10000) :
    ∃ r, ctx.step ⟨env, call⟩ = .ok r ∧
      Effect env side ctx r.1 [] (r.2.flatMap PeerEvent.packets)
        (r.2.flatMap (PeerEvent.callNotes side)) := by
  have hsame : ∀ ctx' : PeerContext, Ready ctx' → ctx'.knownTxHashes = ctx.knownTxHashes →
      Effect env side ctx ctx' [] [] [] := by
    intro ctx' hready' heq
    exact .quiet hready' (by rw [heq]; exact List.Subset.refl _)
  cases call with
  | message type msg =>
      exact absurd rfl (hcall type msg)
  | sendInv txHashes =>
      exact ⟨_, rfl, sendInv_effect hready txHashes (hshort txHashes rfl)⟩
  | sendMempool knownTxHashes callback =>
      refine ⟨_, rfl, ?_⟩
      rw [PeerContext.sendMempool]
      dsimp only
      split_ifs
      · exact .quiet ⟨hready.sentFilter, hready.currentBlock, hready.isReading⟩
          (known_addKnownTxHashes ctx knownTxHashes)
      · have hquiet := hsame { ctx with sentMempool := true }
          ⟨hready.sentFilter, hready.currentBlock, hready.isReading⟩ rfl
        cases callback <;> exact hquiet
  | sendFilterload =>
      exact ⟨_, rfl, hsame _ ⟨rfl, hready.currentBlock, hready.isReading⟩ rfl⟩
  | sendGetdata txHashes blockHashes =>
      exact ⟨_, rfl, sendGetdata_effect hready txHashes blockHashes⟩
  | rerequestBlocks fromBlock =>
      refine ⟨_, rfl, ?_⟩
      rw [PeerContext.rerequestBlocks]
      split_ifs
      · have heffect := @sendGetdata_effect env side { ctx with knownBlockHashes := fromBlock ::
          (ctx.knownBlockHashes.reverse.takeWhile (· ≠ fromBlock)).reverse }
          ⟨hready.sentFilter, hready.currentBlock, hready.isReading⟩ [] (fromBlock ::
          (ctx.knownBlockHashes.reverse.takeWhile (· ≠ fromBlock)).reverse)
        exact { heffect with known := heffect.known, fresh := heffect.fresh }
      · exact hsame _ hready rfl
  | setCurrentBlockHeight height =>
      exact ⟨_, rfl, hsame _ ⟨hready.sentFilter, hready.currentBlock, hready.isReading⟩ rfl⟩
  | setNeedsFilterUpdate needsFilterUpdate =>
      exact ⟨_, rfl, hsame _ ⟨hready.sentFilter, hready.currentBlock, hready.isReading⟩ rfl⟩
  | mempoolTimeout =>
      exact ⟨_, rfl, hsame _ ⟨hready.sentFilter, hready.currentBlock, hready.isReading⟩ rfl⟩

/-! ## Arrivals -/

variable {requestedTx : UInt256 → Option RawTransaction}

/-- An inventory of transactions passes the checks. -/
theorem acceptInv_invMessage
    (hready : Ready ctx) {txHashes : List UInt256} (hshort : txHashes.length ≤ 10000) :
    ctx.acceptInv (invMessage txHashes) =
      ((ctx.takeInv txHashes []).1, (ctx.takeInv txHashes []).2, true) := by
  have hfit : txHashes.length ≤ maxGetdataHashes := hshort.trans (by decide)
  have hlist := listable_inv hfit
  have hcount := hlist.count_read
  have hchecks := hlist.not_malformed
  have htx := hlist.invHashes invTx
  have hblock := hlist.invHashes invBlock
  rw [List.length_map] at hcount hchecks htx hblock
  rw [itemHashes_same] at htx
  rw [itemHashes_other (by decide)] at hblock
  have hwrap : wrap (varIntSize txHashes.length + wrap (txHashes.length * 36)) =
      wrap (varIntSize txHashes.length + 36 * txHashes.length) := by
    rw [Nat.mul_comm 36]
    exact Nat.add_mod_mod _ _ _
  rw [← hwrap, gt_iff_lt] at hchecks
  rw [PeerContext.acceptInv, invMessage]
  simp only [hcount, htx, hblock]
  rw [if_neg hchecks, if_neg (not_lt.mpr hfit), if_neg (by simp [hready.sentFilter]),
    if_neg (not_lt.mpr hshort), if_neg (by simp [PeerContext.isShortInv])]

theorem sendGetdata_fits
    {txHashes : List UInt256} (h : txHashes.length ≤ maxGetdataHashes) :
    ctx.sendGetdata txHashes [] =
      if txHashes = [] then (ctx, [])
      else ({ ctx with sentGetdata := true }, [.sentGetdata txHashes []]) := by
  rw [PeerContext.sendGetdata]
  simp only [List.length_nil, Nat.add_zero, if_neg (not_lt.mpr h), List.length_pos_iff]
  split_ifs <;> simp_all

/-- What is taken from an inventory of transactions: they are known, or asked
for.  A ping may follow. -/
theorem takeInv_eq
    (hready : Ready ctx) {txHashes : List UInt256} (hshort : txHashes.length ≤ 10000) :
    let wanted := txHashes.filter (· ∉ ctx.knownTxHashes)
    ∃ ctx' pings, ctx.takeInv txHashes [] =
        (ctx', (txHashes.filter (· ∈ ctx.knownTxHashes)).map .hasTx ++
          (if wanted = [] then [] else [.sentGetdata wanted []]) ++ pings) ∧
      (∀ e ∈ pings, ∃ callback, e = .sentPing callback) ∧ Ready ctx' ∧
      ctx.knownTxHashes ⊆ ctx'.knownTxHashes := by
  intro wanted
  have hblocks : ctx.invBlocks [] = [] := by
    rw [PeerContext.invBlocks]
    split_ifs <;> rfl
  have hwanted : wanted.length ≤ maxGetdataHashes :=
    (List.length_filter_le _ _).trans (hshort.trans (by decide))
  have hknown := known_addKnownTxHashes (ctx.rememberBlocks []) wanted
  have hasked : ∃ ctx₁, ((ctx.rememberBlocks []).addKnownTxHashes wanted).sendGetdata wanted [] =
      (ctx₁, if wanted = [] then [] else [.sentGetdata wanted []]) ∧ Ready ctx₁ ∧
      ctx.knownTxHashes ⊆ ctx₁.knownTxHashes := by
    rw [sendGetdata_fits hwanted]
    split_ifs
    · exact ⟨_, rfl, ⟨hready.sentFilter, hready.currentBlock, hready.isReading⟩, hknown⟩
    · exact ⟨_, rfl, ⟨hready.sentFilter, hready.currentBlock, hready.isReading⟩, hknown⟩
  obtain ⟨ctx₁, hsend, hready₁, hknown₁⟩ := hasked
  have hnext : PeerContext.nextGetblocks [] = [] := rfl
  rw [PeerContext.takeInv, hblocks, ite_self, hsend, hnext, List.append_nil,
    PeerContext.mempoolAnswered]
  by_cases hping : txHashes ≠ [] ∧ ctx₁.mempoolCallback ≠ none
  · rw [if_pos hping]
    exact ⟨_, [.sentPing ctx₁.mempoolCallback], rfl, by simp,
      ⟨hready₁.sentFilter, hready₁.currentBlock, hready₁.isReading⟩, hknown₁⟩
  · rw [if_neg hping]
    exact ⟨_, [], rfl, by simp, hready₁, hknown₁⟩

/-- Announced transactions are known, or asked for. -/
theorem takeInv_effect
    (hready : Ready ctx) {txHashes : List UInt256} (hshort : txHashes.length ≤ 10000) :
    Effect env side ctx (ctx.takeInv txHashes []).1 [(.inv, invMessage txHashes)]
      ((ctx.takeInv txHashes []).2.flatMap PeerEvent.packets)
      ((ctx.takeInv txHashes []).2.flatMap (PeerEvent.messageNotes side)) := by
  have hlisted := listed_invMessage (hshort.trans (by decide : 10000 ≤ maxGetdataHashes))
  have hwanted : (txHashes.filter (· ∉ ctx.knownTxHashes)).length ≤ maxGetdataHashes :=
    (List.length_filter_le _ _).trans (hshort.trans (by decide))
  have hperm := (List.filter_append_perm (· ∈ ctx.knownTxHashes) txHashes).symm
  simp only [← decide_not] at hperm
  have hlisted' := @listed_getdataMessage _ [] hwanted
  obtain ⟨ctx', pings, heq, hpings, hready', hknown⟩ := takeInv_eq hready hshort
  have hpackets : pings.flatMap PeerEvent.packets = [] := by
    rw [List.flatMap_eq_nil_iff]
    intro e he
    obtain ⟨callback, rfl⟩ := hpings e he
    rfl
  have hnotes : pings.flatMap (PeerEvent.messageNotes side) = [] := by
    rw [List.flatMap_eq_nil_iff]
    intro e he
    obtain ⟨callback, rfl⟩ := hpings e he
    rfl
  rw [heq]
  generalize txHashes.filter (· ∈ ctx.knownTxHashes) = known at *
  generalize txHashes.filter (· ∉ ctx.knownTxHashes) = wanted at *
  have hlog : ((known.map PeerEvent.hasTx ++
      (if wanted = [] then [] else [PeerEvent.sentGetdata wanted []]) ++ pings).flatMap
        (PeerEvent.messageNotes side)) = notes side .known known := by
    rw [List.flatMap_append, List.flatMap_append, hnotes, List.flatMap_map]
    split_ifs <;> simp [PeerEvent.messageNotes, notes, List.map_eq_flatMap]
  have hsent : ((known.map PeerEvent.hasTx ++
      (if wanted = [] then [] else [PeerEvent.sentGetdata wanted []]) ++ pings).flatMap
        PeerEvent.packets) = if wanted = [] then [] else [(.getdata, getdataMessage wanted [])] := by
    rw [List.flatMap_append, List.flatMap_append, hpackets, List.flatMap_map]
    split_ifs <;> simp [PeerEvent.packets]
  rw [hlog, hsent]
  refine ⟨hready', ?_, by simp [notes], ?_, ?_, hknown, by simp, by simp, fun _ => ?_⟩
  · split_ifs
    · simp
    · simpa using Sound.getdata (by simpa using hwanted)
  · split_ifs <;> simp [told, asked]
  · split_ifs with hnone
    · simpa [told, hlisted, hnone] using hperm
    · simpa [told, asked, hlisted, hlisted'] using hperm
  · have hlen := hperm.length_eq
    rw [List.length_append] at hlen
    split_ifs <;> simp only [load, weight, hlisted, hlisted', List.map_cons, List.map_nil,
      List.sum_cons, List.sum_nil] <;> omega

/-- An accepted message leaves the thread reading. -/
theorem Effect.reading
    {taken sent : List Packet} {log : List Note}
    (h : Effect env side ctx ctx' taken sent log) :
    Effect env side ctx { ctx' with isReading := true } taken sent log :=
  { h with ready := ⟨h.ready.sentFilter, h.ready.currentBlock, rfl⟩ }

theorem weight_pos
    (packet : Packet) :
    0 < weight packet := by
  obtain ⟨type, msg⟩ := packet
  cases type <;> simp [weight]

/-- A message that is reported, and answered by nothing. -/
theorem Effect.heard
    (hready : Ready ctx) {packet : Packet} {hashes : List UInt256} {kind : NoteKind}
    (hkind : kind = .delivered ∨ kind = .missing)
    (htold : told env packet = hashes) (hasked : asked packet = []) :
    Effect env side ctx ctx [packet] [] (notes side kind hashes) := by
  refine ⟨hready, by simp, by simp [notes], ?_, ?_, List.Subset.refl _, ?_, ?_,
    fun _ => by simp [load, weight_pos]⟩ <;>
    rcases hkind with rfl | rfl <;> simp [htold, hasked]

theorem step_message
    (hready : Ready ctx) {env' : PeerEnv} {type : MessageType} {msg : List UInt8}
    {r : PeerContext × List PeerEvent × Bool}
    (h : ctx.acceptMessage env' type msg = .ok r) :
    ctx.step ⟨env', .message type msg⟩ = .ok ({ r.1 with isReading := r.2.2 }, r.2.1) := by
  rw [PeerContext.step]
  dsimp only
  rw [if_pos hready.isReading, h]
  rfl

theorem not_waiting
    (hready : Ready ctx) (type : MessageType) :
    ¬ (ctx.currentBlock.isSome ∧ type ≠ .tx) := by
  simp [hready.currentBlock]

/-- The handlers that leave the context alone. -/
theorem acceptMessage_other
    (hready : Ready ctx) {env' : PeerEnv} {type : MessageType}
    (hother : type = .getdata ∨ type = .notfound) (msg : List UInt8) :
    ctx.acceptMessage env' type msg = .ok (ctx, [], env'.accepts type msg) := by
  rcases hother with rfl | rfl <;> simp [PeerContext.acceptMessage, hready.currentBlock] <;> rfl

/-- What a peer answers: each transaction that it is asked for is sent or
reported. -/
theorem told_served
    (hserves : Serves env requestedTx)
    (items : List (ℕ × UInt256)) :
    ((items.filterMap (served requestedTx)).flatMap (fun tx => told env (.tx, tx.serialize)) ++
      itemHashes invTx (unserved requestedTx items)).Perm (itemHashes invTx items) := by
  induction items with
  | nil =>
      exact .refl _
  | cons item items ih =>
      rw [List.filterMap_cons, unserved, List.filter_cons]
      cases hserved : served requestedTx item with
      | none =>
          by_cases htype : item.1 = invTx
          · simpa [itemHashes, htype, unserved] using List.perm_middle.trans (ih.cons item.2)
          · simpa [itemHashes, htype, unserved] using ih
      | some tx =>
          rw [served] at hserved
          split at hserved
          · rename_i htype
            obtain ⟨tx', n, hparse, hhash⟩ := hserves item.2 tx (Option.filter_eq_some_iff.mp hserved).1
            simpa [itemHashes, htype, unserved, told, hparse, hhash] using ih.cons item.2
          · cases hserved

theorem length_served_le
    (items : List (ℕ × UInt256)) :
    (items.filterMap (served requestedTx)).length ≤ (itemHashes invTx items).length := by
  rw [itemHashes, List.length_map, ← List.countP_eq_length_filter, List.length_filterMap_eq_countP]
  refine List.countP_mono_left ?_
  intro item _ hserved
  rw [served] at hserved
  split at hserved
  · simpa
  · cases hserved

theorem unserved_listable
    {items : List (ℕ × UInt256)}
    (h : Listable items) :
    Listable (unserved requestedTx items) where
  count := (List.length_filter_le _ _).trans h.count
  types item hitem := h.types item (List.mem_of_mem_filter hitem)

/-- A getdata message is answered. -/
theorem answers_effect
    (hready : Ready ctx)
    (hserves : Serves env requestedTx)
    {items : List (ℕ × UInt256)} (hlist : Listable items) :
    Effect env side ctx ctx [(.getdata, inventory (items.map inventoryItem))]
      (answers requestedTx (.getdata, inventory (items.map inventoryItem))) [] := by
  have hunserved := @unserved_listable requestedTx _ hlist
  have htold := told_served hserves items
  have hlisted := listed_inventory hlist
  have hmissing := listed_inventory hunserved
  rw [answers, hlist.getdata, Payload.GetdataAnswer.packets]
  refine ⟨hready, ?_, by simp, ?_, ?_, List.Subset.refl _, by simp, by simp, fun _ => ?_⟩
  · intro p hp
    rcases List.mem_append.mp hp with hp | hp
    · obtain ⟨tx, htx, rfl⟩ := List.mem_map.mp hp
      obtain ⟨item, -, hserved⟩ := List.mem_filterMap.mp htx
      rw [served] at hserved
      split at hserved
      · obtain ⟨tx', n, hparse, -⟩ := hserves _ _ (Option.filter_eq_some_iff.mp hserved).1
        exact .tx hparse
      · cases hserved
    · split_ifs at hp
      · cases hp
      · rw [List.mem_singleton.mp hp]
        exact .notfound hunserved
  · rw [List.flatMap_append, List.flatMap_map]
    split_ifs with hnone
    · rw [List.map_eq_nil_iff] at hnone
      rw [hnone] at htold
      simpa [asked, hlisted, itemHashes] using htold
    · simpa [told, asked, hlisted, hmissing] using htold
  · rw [List.flatMap_append, List.flatMap_map]
    split_ifs <;> simp [told, asked]
  · have hcount := @length_served_le requestedTx items
    split_ifs <;> simp [load, weight, hlisted, Function.comp_def] <;> omega

/-- Every message on the way is accepted, and what it says is noted or answered. -/
theorem arrival_effect
    (hready : Ready ctx) {packet : Packet} (hsound : Sound env packet)
    (hserves : Serves env requestedTx) :
    ∃ r, ctx.step ⟨handlers env requestedTx, .message packet.1 packet.2⟩ = .ok r ∧
      Effect env side ctx r.1 [packet] (r.2.flatMap PeerEvent.packets ++ answers requestedTx packet)
        (r.2.flatMap (PeerEvent.messageNotes side) ++ notes side .missing (reports packet)) := by
  cases hsound with
  | @inv txHashes hshort =>
      have haccept : ctx.acceptMessage (handlers env requestedTx) .inv (invMessage txHashes) =
          .ok ((ctx.takeInv txHashes []).1, (ctx.takeInv txHashes []).2, true) := by
        rw [PeerContext.acceptMessage, if_neg (not_waiting hready _)]
        exact congrArg Except.ok (acceptInv_invMessage hready hshort)
      refine ⟨_, step_message hready haccept, ?_⟩
      have heffect := (@takeInv_effect env side ctx hready txHashes hshort).reading
      simpa [answers, reports, notes] using heffect
  | @getdata txHashes blockHashes hfits =>
      have hlist := listable_getdata hfits
      have haccept : ctx.acceptMessage (handlers env requestedTx) .getdata
          (getdataMessage txHashes blockHashes) = .ok (ctx, [], true) := by
        have haccepts : (handlers env requestedTx).accepts .getdata
            (getdataMessage txHashes blockHashes) = true := congrArg Prod.snd hlist.getdata
        rw [acceptMessage_other hready (by simp), haccepts]
      refine ⟨_, step_message hready haccept, ?_⟩
      have heffect := (@answers_effect env side ctx _ hready hserves _ hlist).reading
      rw [← getdataMessage] at heffect
      simpa [reports, notes] using heffect
  | @tx msg tx n hparse =>
      have hparse' : parse (handlers env requestedTx).codec (handlers env requestedTx).sha256d msg =
        .ok (some (tx, n)) := hparse
      have haccept : ctx.acceptMessage (handlers env requestedTx) .tx msg =
          .ok (ctx, [.relayedTx tx], true) := by
        rw [PeerContext.acceptMessage, if_neg (not_waiting hready _)]
        rw [PeerContext.acceptTx, hparse']
        simp [Except.mapError, ok_bind, hready.sentFilter, PeerContext.deliverTx,
          hready.currentBlock]
        rfl
      refine ⟨_, step_message hready haccept, ?_⟩
      have htold : told env (.tx, msg) = [tx.txHash] := by rw [told, hparse]
      have heffect := (@Effect.heard env side ctx hready _ _ .delivered (Or.inl rfl) htold rfl).reading
      simpa [answers, reports, notes, PeerEvent.packets, PeerEvent.messageNotes] using heffect
  | @notfound items hlist =>
      have hlisted := listed_inventory hlist
      have haccept : ctx.acceptMessage (handlers env requestedTx) .notfound
          (inventory (items.map inventoryItem)) = .ok (ctx, [], true) := by
        have haccepts : (handlers env requestedTx).accepts .notfound
            (inventory (items.map inventoryItem)) = true := congrArg Prod.snd hlist.notfound
        rw [acceptMessage_other hready (by simp), haccepts]
      refine ⟨_, step_message hready haccept, ?_⟩
      have htold : told env (.notfound, inventory (items.map inventoryItem)) =
          itemHashes invTx items := hlisted
      have heffect := (@Effect.heard env side ctx hready _ _ .missing (Or.inr rfl) htold rfl).reading
      simpa [answers, reports, hlisted] using heffect

end Step

/-! ## Runs -/

section Run

variable {env : PeerEnv} {s s' : Link} {log : List Note} {i : LinkInput}

/-- Everything that one side has announced, or the other side has asked for, is
at one place: on the way, or noted at the other side. -/
def Placed (env : PeerEnv) (s : Link) (log : List Note) (side : Bool) : Prop :=
  (noted side .announced log ++ noted (!side) .requested log).Perm
    (noted (!side) .known log ++ noted (!side) .delivered log ++ noted (!side) .missing log ++
      (s.queue (!side)).flatMap (told env) ++ (s.queue side).flatMap asked)

/-- The invariant of a connection. -/
structure Sane (env : PeerEnv) (s : Link) (log : List Note) : Prop where
  ready : ∀ side, Ready (s.ctx side)
  sound : ∀ side, ∀ p ∈ s.queue side, Sound env p
  placed : ∀ side, Placed env s log side
  nodup : ∀ side, (noted side .announced log).Nodup
  known : ∀ side, noted side .announced log ⊆ (s.ctx side).knownTxHashes

/-- The effect of a step at one side on the connection. -/
theorem Sane.advance
    {side : Bool} {ctx' : PeerContext} {taken rest sent : List Packet} {o : List Note}
    (h : Sane env s log)
    (hqueue : s.queue side = taken ++ rest)
    (heffect : Effect env side (s.ctx side) ctx' taken sent o) :
    Sane env (Link.send { s with queue := Function.update s.queue side rest } side ctx' sent)
      (log ++ o) := by
  have hother := noted_other heffect.side_eq
  have htold := heffect.told_eq
  have hasked := heffect.asked_eq
  have hne : (!side) ≠ side := by simp
  have hcases : ∀ b, b = side ∨ b = !side := by cases side <;> simp
  set t := Link.send { s with queue := Function.update s.queue side rest } side ctx' sent
  have hqueue' : t.queue side = rest := by
    simp [t, Link.send, hne.symm]
  have hqueue'' : t.queue (!side) = s.queue (!side) ++ sent := by
    simp [t, Link.send]
  have hctx : t.ctx side = ctx' := by
    simp [t, Link.send]
  have hctx' : t.ctx (!side) = s.ctx (!side) := by
    simp [t, Link.send]
  refine ⟨?_, ?_, ?_, ?_, ?_⟩
  · intro b
    rcases hcases b with rfl | rfl
    · rw [hctx]
      exact heffect.ready
    · rw [hctx']
      exact h.ready _
  · intro b p hp
    rcases hcases b with rfl | rfl
    · rw [hqueue'] at hp
      exact h.sound b p (by rw [hqueue]; exact List.mem_append_right _ hp)
    · rw [hqueue''] at hp
      rcases List.mem_append.mp hp with hp | hp
      · exact h.sound _ p hp
      · exact heffect.sound p hp
  · intro b
    have hplaced := h.placed b
    rw [Placed, List.perm_iff_count] at hplaced ⊢
    rw [List.perm_iff_count] at htold hasked
    intro x
    have hp := hplaced x
    have ht := htold x
    have ha := hasked x
    rcases hcases b with rfl | rfl
    · rw [hqueue', hqueue'']
      rw [hqueue] at hp
      simp only [noted_append, hother, List.append_nil, List.flatMap_append, List.count_append]
        at hp ht ha ⊢
      omega
    · rw [Bool.not_not, hqueue', hqueue'']
      rw [Bool.not_not, hqueue] at hp
      simp only [noted_append, hother, List.append_nil, List.flatMap_append, List.count_append]
        at hp ht ha ⊢
      omega
  · intro b
    rcases hcases b with rfl | rfl
    · rw [noted_append, List.nodup_append]
      refine ⟨h.nodup b, heffect.nodup, ?_⟩
      rintro x hx _ hy rfl
      exact (heffect.fresh x hy).1 (h.known b hx)
    · rw [noted_append, hother, List.append_nil]
      exact h.nodup _
  · intro b x hx
    rcases hcases b with rfl | rfl
    · rw [hctx]
      rw [noted_append, List.mem_append] at hx
      rcases hx with hx | hx
      · exact heffect.known (h.known b hx)
      · exact (heffect.fresh x hx).2
    · rw [hctx']
      rw [noted_append, hother, List.append_nil] at hx
      exact h.known _ hx

/-- What a step takes off the queue outweighs what it sends. -/
theorem pending_advance
    {side : Bool} {ctx' : PeerContext} {taken rest sent : List Packet}
    (hqueue : s.queue side = taken ++ rest)
    (hlighter : load sent < load taken) :
    pending (Link.send { s with queue := Function.update s.queue side rest } side ctx' sent) <
      pending s := by
  have hload : load (s.queue side) = load taken + load rest := by
    rw [hqueue, load, load, load, List.map_append, List.sum_append]
  have hsent : load (s.queue (!side) ++ sent) = load (s.queue (!side)) + load sent := by
    rw [load, load, load, List.map_append, List.sum_append]
  rw [pending, pending]
  cases side <;> simp [Link.send] at hload hsent ⊢ <;> omega

/-- An arrival keeps the invariant, and leaves less on the way. -/
theorem Sane.arrival
    (h : Sane env s log)
    (harrives : Arrives env s i) :
    ∃ s' o, Link.step env s i = .ok (s', o) ∧ Sane env s' (log ++ o) ∧ pending s' < pending s := by
  have hready := h.ready i.side
  obtain ⟨packet, rest, hqueue⟩ := List.exists_cons_of_ne_nil harrives.queue
  have hsound := h.sound i.side packet (by simp [hqueue])
  obtain ⟨r, hr, heffect⟩ := @arrival_effect env i.side _ i.requestedTx hready _ hsound
    harrives.serves
  have htaken : s.queue i.side = [packet] ++ rest := hqueue
  refine ⟨_, _, ?_, h.advance htaken heffect, pending_advance htaken (heffect.lighter (by simp))⟩
  rw [Link.step, harrives.call, hqueue]
  dsimp only
  rw [if_pos hready.isReading, hr, ok_bind, if_pos heffect.ready.isReading]
  rfl

/-- No step fails, and every step keeps the invariant. -/
theorem Sane.step
    (h : Sane env s log)
    (hfair : Fair env s i) :
    ∃ s' o, Link.step env s i = .ok (s', o) ∧ Sane env s' (log ++ o) := by
  cases hcall : i.call with
  | some call =>
      obtain ⟨r, hr, heffect⟩ := @call_effect env i.side _ call (h.ready i.side)
        (fun type msg heq => hfair.call type msg (by rw [hcall, heq]))
        (fun txHashes heq => hfair.short txHashes (by rw [hcall, heq]))
      have hsane := h.advance (List.nil_append _).symm heffect
      rw [Function.update_eq_self] at hsane
      exact ⟨_, _, by rw [Link.step, hcall]; dsimp only; rw [hr]; rfl, hsane⟩
  | none =>
      by_cases hqueue : s.queue i.side = []
      · exact ⟨_, _, by rw [Link.step, hcall, hqueue]; rfl, by simpa using h⟩
      · obtain ⟨s', o, hstep, hsane, -⟩ := h.arrival ⟨hcall, hqueue, hfair.serves⟩
        exact ⟨s', o, hstep, hsane⟩

/-- A run of the connection ends, and keeps the invariant. -/
theorem Sane.run
    {is : List LinkInput}
    (h : Sane env s log)
    (hguard : Guarded (Link.step env) (Fair env) s is) :
    ∃ s' o, Machine.run (Link.step env) s is = .ok (s', o) ∧ Sane env s' (log ++ o) := by
  induction is generalizing s log with
  | nil =>
      exact ⟨s, [], rfl, by simpa using h⟩
  | cons i is ih =>
      obtain ⟨t, o, hstep, ht⟩ := h.step hguard.1
      obtain ⟨s', os, hrun, hs'⟩ := ih ht (hguard.2 t o hstep)
      refine ⟨s', o ++ os, by rw [Machine.run, hstep]; dsimp only; rw [hrun], ?_⟩
      rwa [← List.append_assoc]

end Run

end Link

end BreadwalletCore
