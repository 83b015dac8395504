import BreadwalletCore.Data.VersionedTable
import BreadwalletCore.Data.Machine

/-!
# The replicated key value store

`BRReplicatedKVStore.swift` up to the replication: the table `kvstore`, the
reads `get`, `_localVersion`, `remoteVersion` and `localKeys`, and the writes
`_set`, `_del` and `setRemoteVersion`.

* A transaction runs to its end or leaves the table as it was.  What it meets
  outside the table (result codes, clock, nonce) is a `TxnContext`.
* A result column that is read without a row is 0, `NULL` or empty.
* Keys are bound as C strings, so a column holds the key up to its first NUL.
* Times are whole milliseconds.
* The regular expression of the keys and the cipher are parameters.
-/

namespace BreadwalletCore

inductive BRReplicatedKVStoreError where
  | sqLiteError
  | replicationError
  | alreadyReplicating
  | conflict
  | notFound
  | invalidKey
  | unknown
  | malformedData
deriving DecidableEq, Repr

/-- How a call can fail to return: it throws, or a conversion traps and ends the
process. -/
inductive KVFault where
  | thrown (e : BRReplicatedKVStoreError)
  | trapped
deriving DecidableEq, Repr

/-- A row of the table `kvstore`. -/
structure KVRow where
  version : ℕ
  remoteVersion : ℕ := 0
  key : String
  value : List UInt8
  time : ℕ
  deleted : Bool
deriving DecidableEq

/-- What the store uses of the platform: how many matches `keyRegex` finds in a
key, and the cipher under the store's key, with the nonce as an argument; `decrypt`
is `none` where it throws `malformedData`. -/
structure KVPlatform where
  keyMatches : String → ℕ
  encrypt : List UInt8 → List UInt8 → List UInt8
  decrypt : List UInt8 → Option (List UInt8)

/-- Result codes of SQLite. -/
abbrev SQLITE_OK : ℕ := 0
abbrev SQLITE_NULL : ℕ := 5
abbrev SQLITE_BUSY : ℕ := 5
abbrev SQLITE_CONSTRAINT : ℕ := 19
abbrev SQLITE_ROW : ℕ := 100
abbrev SQLITE_DONE : ℕ := 101

theorem sqlite_ok_ne_busy : SQLITE_OK ≠ SQLITE_BUSY := by
  decide

/-- What a transaction meets outside the table.  `code` is the first code of its
statements that is not a success; `versionStep` and `rowStep` are the codes of
the two `SELECT` steps of a read, where they fail, and `keysRead` is the number
of rows that `localKeys` reads when its loop ends early.  `SQLITE_BUSY` needs a
second connection to the file. -/
structure TxnContext where
  code : ℕ := SQLITE_OK
  versionStep : Option ℕ := none
  rowStep : Option ℕ := none
  keysRead : Option ℕ := none
  now : ℕ := 0
  nonce : List UInt8 := []
  notBusy : code ≠ SQLITE_BUSY := by exact sqlite_ok_ne_busy

structure BRReplicatedKVStore where
  rows : List KVRow := []
  syncRunning : Bool := false
  syncImmediately : Bool := false
  encryptedReplication : Bool := true
  encrypted : Bool := true

namespace BRReplicatedKVStore

variable (kv : KVPlatform)

/-- The C string that is bound for a key. -/
def utf8String (key : String) : String :=
  String.ofList (key.toList.takeWhile (· ≠ '\x00'))

def checkKey (key : String) : Except KVFault Unit :=
  if kv.keyMatches key ≠ 1 then .error (.thrown .invalidKey) else .ok ()

/-- Ensure that a code is acceptable; `r` is `SQLITE_NULL` where the caller gives
none. -/
def checkErr (e r : ℕ) : Except KVFault Unit :=
  if (r = SQLITE_NULL ∧ (e ≠ SQLITE_OK ∧ e ≠ SQLITE_DONE ∧ e ≠ SQLITE_ROW)) ∧
      (e ≠ SQLITE_NULL ∧ e ≠ r) then
    .error (.thrown .sqLiteError)
  else
    .ok ()

/-- The conversion `Int64(v)`. -/
def int64 (v : ℕ) : Except KVFault ℕ :=
  if v < 2 ^ 63 then .ok v else .error .trapped

/-- The conversion `Int32(n)`. -/
def int32 (n : ℕ) : Except KVFault ℕ :=
  if n < 2 ^ 31 then .ok n else .error .trapped

/-- A function inside a transaction: it commits, or nothing is written. -/
def txn {α : Type} (ctx : TxnContext) (fn : Except KVFault α) : Except KVFault α := do
  checkErr ctx.code SQLITE_NULL
  fn

/-- The step of a `SELECT … LIMIT 1`: its code and the row it stands on. -/
def stepSelect (failure : Option ℕ) (found : Option KVRow) : ℕ × Option KVRow :=
  match failure with
  | some e => (e, none)
  | none => (if found.isSome then SQLITE_ROW else SQLITE_DONE, found)

/-- `sqlite3_column_int64`, which is 0 without a row. -/
def columnInt64 (row : Option KVRow) (column : KVRow → ℕ) : ℕ :=
  row.elim 0 column

/-- `WHERE key = ? ORDER BY version DESC LIMIT 1`. -/
def selectLatest (rows : List KVRow) (text : String) : Option KVRow :=
  (rows.filter (fun row => row.key = text)).argmax KVRow.version

/-- `WHERE key = ? AND version = ?`. -/
def selectVersion (rows : List KVRow) (text : String) (version : ℕ) : List KVRow :=
  rows.filter (fun row => row.key = text ∧ row.version = version)

/-- `INSERT` of one row; the primary key is `(key, version)`. -/
def insert (rows : List KVRow) (row : KVRow) : Except KVFault (List KVRow) := do
  checkErr (if (selectVersion rows row.key row.version).isEmpty then SQLITE_DONE
    else SQLITE_CONSTRAINT) SQLITE_NULL
  .ok (rows ++ [row])

/-- Gets the local version and time of the key, or 0 and 0 if it does not exist. -/
def _localVersion (store : BRReplicatedKVStore) (ctx : TxnContext) (key : String) :
    Except KVFault (ℕ × ℕ) := do
  let step := stepSelect ctx.versionStep (selectLatest store.rows (utf8String key))
  checkErr step.1 SQLITE_ROW
  .ok (columnInt64 step.2 KVRow.version, columnInt64 step.2 KVRow.time)

/-- The version that `get` looks up: the current one for 0, else the given one
if it exists. -/
def getVersion (store : BRReplicatedKVStore) (ctx : TxnContext) (key : String)
    (version : ℕ) : Except KVFault ℕ := do
  if version = 0 then
    let cur ← store._localVersion ctx key
    .ok cur.1
  else
    let v ← int64 version
    let step := stepSelect ctx.versionStep (selectVersion store.rows (utf8String key) v).head?
    checkErr step.1 SQLITE_ROW
    .ok (columnInt64 step.2 KVRow.version)

/-- The row that `get` reads, before decryption: version, time, deleted and value. -/
def getRow (store : BRReplicatedKVStore) (ctx : TxnContext) (key : String) (version : ℕ) :
    Except KVFault (ℕ × ℕ × Bool × List UInt8) :=
  txn ctx do
    let curVer ← store.getVersion ctx key version
    if curVer = 0 then
      .error (.thrown .notFound)
    else
      let v ← int64 curVer
      let step := stepSelect ctx.rowStep (selectVersion store.rows (utf8String key) v).head?
      checkErr step.1 SQLITE_ROW
      .ok (curVer, columnInt64 step.2 KVRow.time, step.2.elim false KVRow.deleted,
        step.2.elim [] KVRow.value)

/-- A value as it is stored. -/
def sealValue (store : BRReplicatedKVStore) (nonce value : List UInt8) : List UInt8 :=
  if store.encrypted then kv.encrypt nonce value else value

/-- A stored value as it is returned. -/
def openValue (store : BRReplicatedKVStore) (value : List UInt8) :
    Except KVFault (List UInt8) :=
  if store.encrypted then
    match kv.decrypt value with
    | some plain => .ok plain
    | none => .error (.thrown .malformedData)
  else
    .ok value

/-- Get a key, optionally specifying a version: version, time, deleted, value. -/
def get (store : BRReplicatedKVStore) (ctx : TxnContext) (key : String)
    (version : ℕ) : Except KVFault (ℕ × ℕ × Bool × List UInt8) := do
  checkKey kv key
  let row ← store.getRow ctx key version
  let value ← store.openValue kv row.2.2.2
  .ok (row.1, row.2.1, row.2.2.1, value)

/-- The table of the store after a write, with the new version and its time. -/
abbrev Written : Type :=
  BRReplicatedKVStore × ℕ × ℕ

/-- The version check that the three writes share. -/
def checkVersion (store : BRReplicatedKVStore) (ctx : TxnContext) (key : String)
    (localVer : ℕ) : Except KVFault ℕ := do
  let cur ← store._localVersion ctx key
  if cur.1 ≠ localVer then .error (.thrown .conflict) else .ok cur.1

def _set (store : BRReplicatedKVStore) (ctx : TxnContext) (key : String)
    (value : List UInt8) (localVer : ℕ) : Except KVFault Written :=
  txn ctx do
    let curVer ← store.checkVersion ctx key localVer
    let newVer ← int64 (curVer + 1)
    let encryptedData := store.sealValue kv ctx.nonce value
    let _ ← int32 encryptedData.length
    let rows ← insert store.rows
      { version := newVer, key := utf8String key, value := encryptedData, time := ctx.now,
        deleted := false }
    .ok ({ store with rows := rows }, newVer, ctx.now)

/-- `INSERT … SELECT … WHERE key=? AND version=?`: a changed copy of the rows
selected. -/
def insertSelect (rows : List KVRow) (text : String) (version : ℕ) (copy : KVRow → KVRow) :
    Except KVFault (List KVRow) :=
  (selectVersion rows text version).foldlM (fun rows row => insert rows (copy row)) rows

def _del (store : BRReplicatedKVStore) (ctx : TxnContext) (key : String)
    (localVer : ℕ) : Except KVFault Written :=
  if localVer = 0 then
    .error (.thrown .notFound)
  else
    txn ctx do
      let curVer ← store.checkVersion ctx key localVer
      let newVer ← int64 (curVer + 1)
      let v ← int64 curVer
      let rows ← insertSelect store.rows (utf8String key) v (fun row =>
        { version := newVer, key := row.key, value := row.value, time := ctx.now,
          deleted := true })
      .ok ({ store with rows := rows }, newVer, ctx.now)

/-- Get the remote version for the key for its most recent local version. -/
def remoteVersion (store : BRReplicatedKVStore) (ctx : TxnContext) (key : String) :
    Except KVFault ℕ := do
  checkKey kv key
  txn ctx do
    let step := stepSelect ctx.versionStep (selectLatest store.rows (utf8String key))
    checkErr step.1 SQLITE_ROW
    .ok (columnInt64 step.2 KVRow.remoteVersion)

/-- Record the remote version for the object in a new version of the local key. -/
def setRemoteVersion (store : BRReplicatedKVStore) (ctx : TxnContext) (key : String)
    (localVer remoteVer : ℕ) : Except KVFault Written := do
  checkKey kv key
  if localVer < 1 then
    .error (.thrown .conflict)
  else
    txn ctx do
      let curVer ← store.checkVersion ctx key localVer
      let newVer ← int64 (curVer + 1)
      let remote ← int64 remoteVer
      let v ← int64 curVer
      let rows ← insertSelect store.rows (utf8String key) v (fun row =>
        { version := newVer, key := row.key, value := row.value, time := ctx.now,
          deleted := row.deleted, remoteVersion := remote })
      .ok ({ store with rows := rows }, newVer, ctx.now)

/-- An entry of `localKeys`. -/
structure LocalKey where
  key : String
  localVer : ℕ
  localTime : ℕ
  remoteVer : ℕ
  deleted : Bool
deriving DecidableEq

/-- Every key with its latest row. -/
def localKeys (store : BRReplicatedKVStore) (ctx : TxnContext) :
    Except KVFault (List LocalKey) :=
  txn ctx do
    let found := VersionedTable.latestRows KVRow.key KVRow.version store.rows
    let read := match ctx.keysRead with
      | some n => found.take n
      | none => found
    .ok (read.map fun row =>
      { key := row.key, localVer := row.version, localTime := row.time,
        remoteVer := row.remoteVersion, deleted := row.deleted })

end BRReplicatedKVStore

end BreadwalletCore
