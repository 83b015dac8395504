import BreadwalletCore.Data.KeyedList
import BreadwalletCore.Data.Machine
import BreadwalletCore.Transaction.RoundTrip

/-!
# The transaction database

`txAdded`, `txUpdated`, `txDeleted` and `loadTransactions` of
`CoreDatabase.swift` on the table `ZBRTXMETADATAENTITY`.  A blob is the
serialized transaction with the block height and the timestamp in its last
eight bytes, the timestamp counted from the year 2001.

* The calls run one after the other and all statements succeed; an `insert`
  still fails where its primary key is taken.
* The conversions to `Int32` trap, and `txUpdated` ends the process when it
  finds fewer rows than hashes; the table stays as it is then.
-/

namespace BreadwalletCore

open LittleEndian

/-- `UInt32(NSTimeIntervalSince1970)`. -/
def nsTimeIntervalSince1970 : UInt32 := 978307200

/-- A row; `ztype` is 1 for transactions. -/
structure TxMetadataRow where
  pk : ℕ
  ztype : ℕ
  blob : List UInt8
  txHash : UInt256
deriving DecidableEq

/-- The table and the largest primary key given out. -/
structure CoreDatabase where
  rows : List TxMetadataRow := []
  zMax : ℕ := 0
deriving DecidableEq

inductive CoreDatabaseCall where
  | txAdded (tx : RawTransaction)
  | txUpdated (txHashes : List UInt256) (blockHeight timestamp : UInt32)
  | txDeleted (txHash : UInt256)

/-- How a call ends. -/
inductive CoreDatabaseOutcome where
  | done (call : CoreDatabaseCall)
  /-- written, then `exit(0)` -/
  | exited (call : CoreDatabaseCall)
  | failed
  | trapped

namespace CoreDatabase

/-- A timestamp as it is stored. -/
def rebase (timestamp : UInt32) : UInt32 :=
  if timestamp > nsTimeIntervalSince1970 then timestamp - nsTimeIntervalSince1970 else 0

/-- The last eight bytes of a blob. -/
def blockBytes (blockHeight timestamp : UInt32) : List UInt8 :=
  bytes 4 blockHeight.toNat ++ bytes 4 (rebase timestamp).toNat

def txAdded (db : CoreDatabase) (tx : RawTransaction) : CoreDatabase × CoreDatabaseOutcome :=
  let buf := tx.serialize ++ blockBytes tx.blockHeight tx.timestamp
  let pk := db.zMax
  if pk + 1 < 2 ^ 31 ∧ buf.length < 2 ^ 31 then
    if db.rows.any (fun row => row.pk = pk + 1) then
      (db, .failed)
    else
      ({ rows := db.rows ++ [{ pk := pk + 1, ztype := 1, blob := buf, txHash := tx.txHash }],
         zMax := pk + 1 }, .done (.txAdded tx))
  else
    (db, .trapped)

/-- `blob.replaceSubrange` of the last eight bytes. -/
def restamp (blockHeight timestamp : UInt32) (blob : List UInt8) : List UInt8 :=
  blob.take (blob.length - 8) ++ blockBytes blockHeight timestamp

/-- `update ZBRTXMETADATAENTITY set ZBLOB = ? where ZTXHASH = ?`. -/
def setBlob (rows : List TxMetadataRow) (blob : List UInt8) (txHash : UInt256) :
    List TxMetadataRow :=
  rows.map (fun row => if row.txHash = txHash then { row with blob := blob } else row)

/-- The rows of the given transactions. -/
def selected (db : CoreDatabase) (txHashes : List UInt256) : List TxMetadataRow :=
  db.rows.filter (fun row => row.ztype = 1 ∧ row.txHash ∈ txHashes)

/-- The loop over the rows selected. -/
def restampAll (blockHeight timestamp : UInt32) (rows selected : List TxMetadataRow) :
    List TxMetadataRow :=
  selected.foldl (fun rows row =>
    if row.blob.length > 8 then
      setBlob rows (restamp blockHeight timestamp row.blob) row.txHash
    else
      rows) rows

def txUpdated (db : CoreDatabase) (txHashes : List UInt256) (blockHeight timestamp : UInt32) :
    CoreDatabase × CoreDatabaseOutcome :=
  if txHashes.length > 0 then
    let found := db.selected txHashes
    let db' := { db with rows := restampAll blockHeight timestamp db.rows found }
    let call := .txUpdated txHashes blockHeight timestamp
    if found.length ≠ txHashes.length then (db', .exited call) else (db', .done call)
  else
    (db, .done (.txUpdated txHashes blockHeight timestamp))

def txDeleted (db : CoreDatabase) (txHash : UInt256) : CoreDatabase × CoreDatabaseOutcome :=
  ({ db with rows := db.rows.filter (fun row => ¬ (row.ztype = 1 ∧ row.txHash = txHash)) },
    .done (.txDeleted txHash))

def step (db : CoreDatabase) (call : CoreDatabaseCall) :
    Except Empty (CoreDatabase × List CoreDatabaseOutcome) :=
  let r := match call with
    | .txAdded tx => db.txAdded tx
    | .txUpdated txHashes blockHeight timestamp => db.txUpdated txHashes blockHeight timestamp
    | .txDeleted txHash => db.txDeleted txHash
  .ok (r.1, [r.2])

section Load

variable (codec : ScriptCodec) (sha256d : List UInt8 → UInt256)

/-- `tx->blockHeight` and `tx->timestamp` from the last eight bytes. -/
def readBlock (tx : RawTransaction) (stamp : List UInt8) : RawTransaction :=
  let blockHeight := UInt32.ofNat (value (stamp.take 4))
  let timestamp := UInt32.ofNat (value ((stamp.drop 4).take 4))
  { tx with
    blockHeight := blockHeight
    timestamp := if timestamp = 0 then timestamp else timestamp + nsTimeIntervalSince1970 }

/-- The loop of `loadTransactions`, which ends at a blob it cannot read. -/
def loadLoop : List (List UInt8) → Except MemoryFault (List RawTransaction)
  | [] => .ok []
  | blob :: blobs =>
      if blob.length < 8 then
        .ok []
      else
        match parse codec sha256d (blob.take (blob.length - 8)) with
        | .error e => .error e
        | .ok none => .ok []
        | .ok (some parsed) => do
            let rest ← loadLoop blobs
            .ok (readBlock parsed.1 (blob.drop (blob.length - 8)) :: rest)

def loadTransactions (db : CoreDatabase) : Except MemoryFault (List RawTransaction) :=
  loadLoop codec sha256d ((db.rows.filter (fun row => row.ztype = 1)).map TxMetadataRow.blob)

/-! ## What the database stands for -/

/-- `BRTransactionParse` undoes `BRTransactionSerialize`, up to the block. -/
def Undone (tx : RawTransaction) : Prop :=
  ∃ n, parse codec sha256d tx.serialize =
    .ok (some ({ tx with blockHeight := txUnconfirmed, timestamp := 0 }, n))

end Load

/-- A timestamp that comes back: 0 up to the beginning of 2001. -/
def clamp (timestamp : UInt32) : UInt32 :=
  if timestamp > nsTimeIntervalSince1970 then timestamp else 0

/-- The transactions stored, by their hashes. -/
abbrev Replica : Type := UInt256 → Option RawTransaction

/-- What a call means. -/
def Replica.apply (stored : Replica) : CoreDatabaseCall → Replica
  | .txAdded tx =>
      Function.update stored tx.txHash (some { tx with timestamp := clamp tx.timestamp })
  | .txUpdated txHashes blockHeight timestamp => fun h =>
      if h ∈ txHashes then
        (stored h).map (fun tx =>
          { tx with blockHeight := blockHeight, timestamp := clamp timestamp })
      else stored h
  | .txDeleted txHash => Function.update stored txHash none

/-- What a call that ended so has changed. -/
def Replica.after (stored : Replica) : CoreDatabaseOutcome → Replica
  | .done call => stored.apply call
  | .exited call => stored.apply call
  | .failed => stored
  | .trapped => stored

/-- A transaction is added whose hash is not stored and that can be read back. -/
def Adds (codec : ScriptCodec) (sha256d : List UInt8 → UInt256) (db : CoreDatabase) :
    CoreDatabaseCall → Prop
  | .txAdded tx => tx.txHash ∉ db.rows.map TxMetadataRow.txHash ∧ Undone codec sha256d tx
  | _ => True

/-! ## One call -/

section Blob

theorem ofNat_value_bytes
    (x : UInt32) :
    UInt32.ofNat (value (bytes 4 x.toNat)) = x := by
  rw [value_bytes (by have := x.toNat_lt; omega), UInt32.ofNat_toNat]

theorem restore_rebase
    (timestamp : UInt32) :
    (if rebase timestamp = 0 then rebase timestamp
      else rebase timestamp + nsTimeIntervalSince1970) = clamp timestamp := by
  rw [rebase, clamp]
  by_cases hlater : timestamp > nsTimeIntervalSince1970
  · rw [if_pos hlater, if_pos hlater]
    have hne : timestamp - nsTimeIntervalSince1970 ≠ 0 := by
      intro hzero
      have heq : timestamp = nsTimeIntervalSince1970 := by
        rw [← UInt32.sub_add_cancel timestamp nsTimeIntervalSince1970, hzero, UInt32.zero_add]
      exact UInt32.lt_irrefl _ (heq ▸ hlater)
    rw [if_neg hne, UInt32.sub_add_cancel]
  · rw [if_neg hlater, if_neg hlater, if_pos rfl]

@[simp] theorem length_blockBytes
    (blockHeight timestamp : UInt32) :
    (blockBytes blockHeight timestamp).length = 8 := by
  simp [blockBytes]

/-- Height and timestamp are read back as they were written. -/
theorem readBlock_blockBytes
    (tx : RawTransaction) (blockHeight timestamp : UInt32) :
    readBlock tx (blockBytes blockHeight timestamp) =
      { tx with blockHeight := blockHeight, timestamp := clamp timestamp } := by
  have hlen : (bytes 4 blockHeight.toNat).length = 4 := length_bytes 4 _
  have hrest : (bytes 4 (rebase timestamp).toNat).take 4 = bytes 4 (rebase timestamp).toNat :=
    List.take_of_length_le (length_bytes 4 _).le
  rw [readBlock, blockBytes, List.take_left' hlen, List.drop_left' hlen, hrest,
    ofNat_value_bytes, ofNat_value_bytes, restore_rebase]

theorem take_blob
    (front stamp : List UInt8)
    (hstamp : stamp.length = 8) :
    (front ++ stamp).take ((front ++ stamp).length - 8) = front := by
  apply List.take_left'
  rw [List.length_append, hstamp, Nat.add_sub_cancel]

theorem drop_blob
    (front stamp : List UInt8)
    (hstamp : stamp.length = 8) :
    (front ++ stamp).drop ((front ++ stamp).length - 8) = stamp := by
  apply List.drop_left'
  rw [List.length_append, hstamp, Nat.add_sub_cancel]

theorem restamp_blob
    (front stamp : List UInt8) (blockHeight timestamp : UInt32)
    (hstamp : stamp.length = 8) :
    restamp blockHeight timestamp (front ++ stamp) = front ++ blockBytes blockHeight timestamp := by
  rw [restamp, take_blob front stamp hstamp]

/-- The loop over selected rows with distinct hashes rewrites each row once. -/
theorem restampAll_eq
    (blockHeight timestamp : UInt32) (rows found : List TxMetadataRow)
    (hnodup : (found.map TxMetadataRow.txHash).Nodup) :
    restampAll blockHeight timestamp rows found =
      rows.map (fun row => (KeyedList.get TxMetadataRow.txHash found row.txHash).elim row
        (fun r => if r.blob.length > 8 then
            { row with blob := restamp blockHeight timestamp r.blob }
          else row)) := by
  induction found generalizing rows with
  | nil =>
      exact (List.map_id rows).symm
  | cons r found ih =>
      rw [List.map_cons, List.nodup_cons] at hnodup
      have hnone : KeyedList.get TxMetadataRow.txHash found r.txHash = none := by
        rw [Option.eq_none_iff_forall_ne_some]
        intro r' hr'
        apply hnodup.1
        rw [← KeyedList.key_of_get hr']
        exact List.mem_map_of_mem (KeyedList.mem_of_get hr')
      have hstep : restampAll blockHeight timestamp rows (r :: found) =
          restampAll blockHeight timestamp
            (if r.blob.length > 8 then
              setBlob rows (restamp blockHeight timestamp r.blob) r.txHash
            else rows) found := rfl
      rw [hstep, ih _ hnodup.2]
      by_cases hlong : r.blob.length > 8
      · rw [if_pos hlong, setBlob, List.map_map]
        apply List.map_congr_left
        intro row _
        rw [Function.comp_apply, KeyedList.get_cons]
        by_cases heq : row.txHash = r.txHash
        · rw [if_pos heq, if_pos heq.symm]
          dsimp only
          rw [heq, hnone, Option.elim_none, Option.elim_some, if_pos hlong]
        · rw [if_neg heq, if_neg (fun h => heq h.symm)]
      · rw [if_neg hlong]
        apply List.map_congr_left
        intro row _
        rw [KeyedList.get_cons]
        by_cases heq : row.txHash = r.txHash
        · rw [heq, hnone, if_pos rfl, Option.elim_none, Option.elim_some, if_neg hlong]
        · rw [if_neg (fun h => heq h.symm)]

end Blob

section Step

variable (codec : ScriptCodec) (sha256d : List UInt8 → UInt256)

/-- The row of a stored transaction. -/
structure Encodes (row : TxMetadataRow) (tx : RawTransaction) : Prop where
  ztype : row.ztype = 1
  txHash : tx.txHash = row.txHash
  blob : ∃ timestamp, tx.timestamp = clamp timestamp ∧
    row.blob = tx.serialize ++ blockBytes tx.blockHeight timestamp
  undone : Undone codec sha256d tx

/-- The table holds the transactions stored, one row for each. -/
structure Holds (db : CoreDatabase) (stored : Replica) : Prop where
  nodup : (db.rows.map TxMetadataRow.txHash).Nodup
  encodes : ∀ row ∈ db.rows, ∃ tx, stored row.txHash = some tx ∧ Encodes codec sha256d row tx
  complete : ∀ h tx, stored h = some tx → h ∈ db.rows.map TxMetadataRow.txHash
  keys : ∀ row ∈ db.rows, row.pk ≤ db.zMax

variable {codec sha256d} {db : CoreDatabase} {stored : Replica}

theorem serialize_ne_nil
    (tx : RawTransaction) :
    0 < tx.serialize.length := by
  rw [RawTransaction.length_serialize]
  omega

theorem Holds.txAdded
    {tx : RawTransaction}
    (h : Holds codec sha256d db stored)
    (hnew : tx.txHash ∉ db.rows.map TxMetadataRow.txHash)
    (hundone : Undone codec sha256d tx) :
    Holds codec sha256d (db.txAdded tx).1 (stored.after (db.txAdded tx).2) ∧
      (db.txAdded tx).2 ≠ .failed := by
  rw [CoreDatabase.txAdded]
  split
  · split
    · -- a primary key above all others is free
      rename_i htaken
      obtain ⟨row, hrow, hpk⟩ := List.any_eq_true.mp htaken
      have hle := h.keys row hrow
      rw [of_decide_eq_true hpk] at hle
      omega
    · refine ⟨⟨?_, ?_, ?_, ?_⟩, fun hfailed => nomatch hfailed⟩
      · rw [List.map_append, List.nodup_append]
        refine ⟨h.nodup, List.nodup_singleton _, ?_⟩
        rintro a ha b hb rfl
        have hhash : a = tx.txHash := List.mem_singleton.mp hb
        exact hnew (hhash ▸ ha)
      · intro row hrow
        rcases List.mem_append.mp hrow with hrow | hrow
        · obtain ⟨tx', htx', hencodes⟩ := h.encodes row hrow
          have hne : row.txHash ≠ tx.txHash :=
            fun heq => hnew (heq ▸ List.mem_map_of_mem hrow)
          refine ⟨tx', ?_, hencodes⟩
          change Function.update stored tx.txHash _ row.txHash = some tx'
          rw [Function.update_of_ne hne, htx']
        · rw [List.mem_singleton.mp hrow]
          exact ⟨_, Function.update_self .., rfl, rfl, ⟨tx.timestamp, rfl, rfl⟩, hundone⟩
      · intro k tx' hk
        rw [List.map_append, List.mem_append]
        change Function.update stored tx.txHash _ k = some tx' at hk
        by_cases heq : k = tx.txHash
        · exact .inr (List.mem_singleton.mpr heq)
        · rw [Function.update_of_ne heq] at hk
          exact .inl (h.complete k tx' hk)
      · intro row hrow
        rcases List.mem_append.mp hrow with hrow | hrow
        · exact (h.keys row hrow).trans (Nat.le_succ _)
        · rw [List.mem_singleton.mp hrow]
  · exact ⟨h, fun hfailed => nomatch hfailed⟩

theorem Holds.txDeleted
    (h : Holds codec sha256d db stored)
    (txHash : UInt256) :
    Holds codec sha256d (db.txDeleted txHash).1 (stored.after (db.txDeleted txHash).2) := by
  have hmem : ∀ row, row ∈ (db.txDeleted txHash).1.rows ↔ row ∈ db.rows ∧ row.txHash ≠ txHash := by
    intro row
    rw [CoreDatabase.txDeleted, List.mem_filter]
    refine and_congr_right (fun hrow => ?_)
    obtain ⟨tx, -, hencodes⟩ := h.encodes row hrow
    simp [hencodes.ztype]
  have hafter : stored.after (db.txDeleted txHash).2 = Function.update stored txHash none := rfl
  rw [hafter]
  refine ⟨h.nodup.sublist (List.filter_sublist.map _), ?_, ?_, ?_⟩
  · intro row hrow
    obtain ⟨hrow, hne⟩ := (hmem row).mp hrow
    rw [Function.update_of_ne hne]
    exact h.encodes row hrow
  · intro k tx hk
    by_cases heq : k = txHash
    · rw [heq, Function.update_self] at hk
      cases hk
    · rw [Function.update_of_ne heq] at hk
      obtain ⟨row, hrow, hhash⟩ := List.mem_map.mp (h.complete k tx hk)
      exact List.mem_map.mpr ⟨row, (hmem row).mpr ⟨hrow, hhash ▸ heq⟩, hhash⟩
  · intro row hrow
    exact h.keys row ((hmem row).mp hrow).1

/-- The rows that an update leaves behind. -/
theorem Holds.restamped
    (h : Holds codec sha256d db stored)
    (txHashes : List UInt256) (blockHeight timestamp : UInt32) :
    restampAll blockHeight timestamp db.rows (db.selected txHashes) =
      db.rows.map (fun row => if row.txHash ∈ txHashes then
          { row with blob := restamp blockHeight timestamp row.blob }
        else row) := by
  have hsub : (db.selected txHashes).Sublist db.rows := List.filter_sublist
  rw [restampAll_eq _ _ _ _ (h.nodup.sublist (hsub.map _))]
  apply List.map_congr_left
  intro row hrow
  obtain ⟨tx, -, hencodes⟩ := h.encodes row hrow
  by_cases hin : row.txHash ∈ txHashes
  · have hfound : row ∈ db.selected txHashes :=
      List.mem_filter.mpr ⟨hrow, by simp [hencodes.ztype, hin]⟩
    have hlong : row.blob.length > 8 := by
      obtain ⟨time, -, hblob⟩ := hencodes.blob
      have hpos := serialize_ne_nil tx
      rw [hblob, List.length_append, length_blockBytes]
      omega
    rw [KeyedList.get_eq_some_of_mem (h.nodup.sublist (hsub.map _)) hfound, Option.elim_some,
      if_pos hlong, if_pos hin]
  · have hnone : KeyedList.get TxMetadataRow.txHash (db.selected txHashes) row.txHash = none := by
      rw [Option.eq_none_iff_forall_ne_some]
      intro r hr
      have hmem := KeyedList.mem_of_get hr
      rw [CoreDatabase.selected, List.mem_filter] at hmem
      have hhash : r.txHash ∈ txHashes := by
        simpa using (of_decide_eq_true hmem.2).2
      exact hin (KeyedList.key_of_get hr ▸ hhash)
    rw [hnone, Option.elim_none, if_neg hin]

theorem Holds.update
    (h : Holds codec sha256d db stored)
    (txHashes : List UInt256) (blockHeight timestamp : UInt32) :
    Holds codec sha256d
      { db with rows := restampAll blockHeight timestamp db.rows (db.selected txHashes) }
      (stored.apply (.txUpdated txHashes blockHeight timestamp)) := by
  have hhashes : (restampAll blockHeight timestamp db.rows (db.selected txHashes)).map
      TxMetadataRow.txHash = db.rows.map TxMetadataRow.txHash := by
    rw [h.restamped, List.map_map]
    apply List.map_congr_left
    intro row _
    rw [Function.comp_apply]
    split <;> rfl
  refine ⟨?_, ?_, ?_, ?_⟩
  · rw [hhashes]
    exact h.nodup
  · intro row hrow
    rw [h.restamped] at hrow
    obtain ⟨old, hold, rfl⟩ := List.mem_map.mp hrow
    obtain ⟨tx, htx, hencodes⟩ := h.encodes old hold
    by_cases hin : old.txHash ∈ txHashes
    · rw [if_pos hin]
      refine ⟨{ tx with blockHeight := blockHeight, timestamp := clamp timestamp }, ?_, ?_⟩
      · rw [Replica.apply]
        dsimp only
        rw [if_pos hin, htx, Option.map_some]
      · obtain ⟨time, -, hblob⟩ := hencodes.blob
        refine ⟨hencodes.ztype, hencodes.txHash, ⟨timestamp, rfl, ?_⟩, hencodes.undone⟩
        dsimp only
        rw [hblob, restamp_blob _ _ _ _ (length_blockBytes _ _)]
        rfl
    · rw [if_neg hin]
      refine ⟨tx, ?_, hencodes⟩
      rw [Replica.apply]
      dsimp only
      rw [if_neg hin, htx]
  · intro k tx hk
    rw [hhashes]
    rw [Replica.apply] at hk
    dsimp only at hk
    split at hk
    · obtain ⟨old, hold, -⟩ := Option.map_eq_some_iff.mp hk
      exact h.complete k old hold
    · exact h.complete k tx hk
  · intro row hrow
    rw [h.restamped] at hrow
    obtain ⟨old, hold, rfl⟩ := List.mem_map.mp hrow
    have hkey := h.keys old hold
    split <;> exact hkey

theorem Holds.txUpdated
    (h : Holds codec sha256d db stored)
    (txHashes : List UInt256) (blockHeight timestamp : UInt32) :
    Holds codec sha256d (db.txUpdated txHashes blockHeight timestamp).1
        (stored.after (db.txUpdated txHashes blockHeight timestamp).2) ∧
      (db.txUpdated txHashes blockHeight timestamp).2 ≠ .failed := by
  have hupdate := h.update txHashes blockHeight timestamp
  rw [CoreDatabase.txUpdated]
  split
  · dsimp only
    split <;> exact ⟨hupdate, fun hfailed => nomatch hfailed⟩
  · -- without hashes nothing is done
    rename_i hempty
    have hnil : txHashes = [] := by
      rw [← List.length_eq_zero_iff]
      omega
    refine ⟨?_, fun hfailed => nomatch hfailed⟩
    have hsame : stored.apply (.txUpdated txHashes blockHeight timestamp) = stored := by
      funext k
      rw [hnil, Replica.apply]
      exact if_neg List.not_mem_nil
    rw [Replica.after, hsame]
    exact h

/-- **Step lemma**: each call does to the table what it means. -/
theorem Holds.step
    {db' : CoreDatabase} {call : CoreDatabaseCall} {o : List CoreDatabaseOutcome}
    (h : Holds codec sha256d db stored)
    (hadds : Adds codec sha256d db call)
    (hstep : db.step call = .ok (db', o)) :
    Holds codec sha256d db' (o.foldl Replica.after stored) ∧ ∀ outcome ∈ o, outcome ≠ .failed := by
  cases call with
  | txAdded tx =>
      cases hstep
      obtain ⟨hholds, hok⟩ := h.txAdded hadds.1 hadds.2
      exact ⟨hholds, List.forall_mem_singleton.mpr hok⟩
  | txUpdated txHashes blockHeight timestamp =>
      cases hstep
      obtain ⟨hholds, hok⟩ := h.txUpdated txHashes blockHeight timestamp
      exact ⟨hholds, List.forall_mem_singleton.mpr hok⟩
  | txDeleted txHash =>
      cases hstep
      exact ⟨h.txDeleted txHash, List.forall_mem_singleton.mpr (fun hfailed => nomatch hfailed)⟩

/-! ## Loading -/

/-- Every row is loaded, as the transaction it stands for. -/
theorem loadLoop_ok
    (rows : List TxMetadataRow)
    (hrows : ∀ row ∈ rows, ∃ tx, stored row.txHash = some tx ∧ Encodes codec sha256d row tx) :
    ∃ txs, loadLoop codec sha256d (rows.map TxMetadataRow.blob) = .ok txs ∧
      txs.map RawTransaction.txHash = rows.map TxMetadataRow.txHash ∧
      ∀ tx ∈ txs, stored tx.txHash = some tx := by
  induction rows with
  | nil =>
      exact ⟨[], rfl, rfl, List.forall_mem_nil _⟩
  | cons row rows ih =>
      rw [List.forall_mem_cons] at hrows
      obtain ⟨⟨tx, htx, hencodes⟩, hrest⟩ := hrows
      obtain ⟨txs, hload, hhashes, hstored⟩ := ih hrest
      obtain ⟨timestamp, htime, hblob⟩ := hencodes.blob
      obtain ⟨n, hparse⟩ := hencodes.undone
      have hlong : ¬ row.blob.length < 8 := by
        rw [hblob, List.length_append, length_blockBytes]
        omega
      have hread : readBlock { tx with blockHeight := txUnconfirmed, timestamp := 0 }
          (blockBytes tx.blockHeight timestamp) = tx := by
        rw [readBlock_blockBytes, ← htime]
      refine ⟨tx :: txs, ?_, ?_, ?_⟩
      · rw [List.map_cons, loadLoop, if_neg hlong, hblob,
          take_blob _ _ (length_blockBytes _ _), drop_blob _ _ (length_blockBytes _ _), hparse]
        dsimp only
        rw [hload, Machine.ok_bind, hread]
      · rw [List.map_cons, List.map_cons, hencodes.txHash, hhashes]
      · rw [List.forall_mem_cons, hencodes.txHash]
        exact ⟨htx, hstored⟩

theorem Holds.load
    (h : Holds codec sha256d db stored) :
    ∃ txs, db.loadTransactions codec sha256d = .ok txs ∧
      (txs.map RawTransaction.txHash).Nodup ∧
      ∀ k, KeyedList.get RawTransaction.txHash txs k = stored k := by
  have hall : db.rows.filter (fun row => row.ztype = 1) = db.rows := by
    rw [List.filter_eq_self]
    intro row hrow
    obtain ⟨tx, -, hencodes⟩ := h.encodes row hrow
    exact decide_eq_true hencodes.ztype
  obtain ⟨txs, hload, hhashes, hstored⟩ := loadLoop_ok db.rows h.encodes
  have hnodup : (txs.map RawTransaction.txHash).Nodup := hhashes ▸ h.nodup
  refine ⟨txs, ?_, hnodup, ?_⟩
  · rw [loadTransactions, hall, hload]
  · intro k
    cases hk : stored k with
    | none =>
        rw [Option.eq_none_iff_forall_ne_some]
        intro tx htx
        have hmem := hstored tx (KeyedList.mem_of_get htx)
        rw [KeyedList.key_of_get htx, hk] at hmem
        cases hmem
    | some tx =>
        have hmem := h.complete k tx hk
        rw [← hhashes] at hmem
        obtain ⟨tx', htx', hhash⟩ := List.mem_map.mp hmem
        have heq := hstored tx' htx'
        rw [hhash, hk] at heq
        cases heq
        rw [← hhash]
        exact KeyedList.get_eq_some_of_mem hnodup htx'

end Step

end CoreDatabase

end BreadwalletCore
