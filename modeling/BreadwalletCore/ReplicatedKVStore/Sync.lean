import BreadwalletCore.ReplicatedKVStore.Versions

/-!
# The exchange of one key with the server

`_syncKey` is cut at its transactions and its requests: a `SyncPoint` is a place
where the code runs a transaction next, a `SyncWait` one where it waits for an
answer of the server.  Between two pieces other code may write the table.
-/

namespace BreadwalletCore

inductive BRRemoteKVStoreError where
  | notFound
  | conflict
  | tombstone
  | unknown
deriving DecidableEq, Repr

/-- What the server says about a key: an answer to `ver` or an entry of `keys`. -/
structure RemoteReport where
  version : ℕ
  time : ℕ
  err : Option BRRemoteKVStoreError
deriving DecidableEq

/-- An answer to `put`, `del` or `get`; only `get` has data. -/
structure RemoteAnswer where
  version : ℕ
  data : List UInt8 := []
  err : Option BRRemoteKVStoreError
deriving DecidableEq

/-- A request to the server. -/
inductive RemoteCall where
  | put (key : String) (value : List UInt8) (version : ℕ)
  | del (key : String) (version : ℕ)
  | get (key : String) (version : ℕ)
deriving DecidableEq

/-- The transactions of `_syncKey`. -/
inductive SyncPoint where
  /-- read the recorded remote version -/
  | start (report : RemoteReport)
  /-- read the local row and decide -/
  | compare (report : RemoteReport) (recorded : ℕ)
  /-- record the remote version of a row that was pushed or is deleted on both sides -/
  | record (localVer remoteVer : ℕ)
  /-- the remote key is deleted: delete locally -/
  | remove (localVer remoteVer : ℕ)
  /-- record the remote version behind `remove` -/
  | recordRemoved (localVer remoteVer : ℕ)
  /-- the remote value is newer: store it locally -/
  | store (localVer : ℕ) (value : List UInt8) (remoteVer : ℕ)
  /-- the remote value does not decrypt: delete locally -/
  | discard (localVer : ℕ)
deriving DecidableEq

/-- The requests of `_syncKey` that wait for an answer, with the local version
they were made at. -/
inductive SyncWait where
  | deleting (localVer : ℕ)
  | putting (localVer : ℕ)
  | getting (localVer : ℕ)
deriving DecidableEq

/-- How a piece of `_syncKey` ends. -/
inductive SyncResult where
  | goto (point : SyncPoint)
  | ask (call : RemoteCall) (wait : SyncWait)
  | complete (e : Option BRReplicatedKVStoreError)
  | throws (e : BRReplicatedKVStoreError)
deriving DecidableEq

namespace BRReplicatedKVStore

variable (kv : KVPlatform)

/-- A stored value as it is sent to the server. -/
def sealRemote (store : BRReplicatedKVStore) (nonce value : List UInt8) : List UInt8 :=
  if store.encryptedReplication then kv.encrypt nonce value else value

/-- A value of the server as it is stored. -/
def openRemote (store : BRReplicatedKVStore) (data : List UInt8) :
    Option (List UInt8) :=
  if store.encryptedReplication then kv.decrypt data else some data

/-- The local side of an exchange: version, time, deleted and the value to send.
A missing key is version 0 at the time 0. -/
structure LocalSide where
  localVer : ℕ
  localTime : ℕ
  localDeleted : Bool
  localValue : List UInt8
deriving DecidableEq

/-- Read the local side of an exchange. -/
def localSide (store : BRReplicatedKVStore) (ctx : TxnContext) (key : String) :
    Except KVFault LocalSide :=
  match store.get kv ctx key 0 with
  | .ok row =>
      .ok { localVer := row.1, localTime := row.2.1, localDeleted := row.2.2.1,
            localValue := store.sealRemote kv ctx.nonce row.2.2.2 }
  | .error (.thrown .notFound) => .ok { localVer := 0, localTime := 0, localDeleted := false,
                                        localValue := [] }
  | .error e => .error e

/-- Compare both sides and take a branch. -/
def decideSync (key : String) (report : RemoteReport) (recorded : ℕ) (side : LocalSide) :
    SyncResult :=
  match report.err with
  | some .conflict => .complete (some .replicationError)
  | some .unknown => .complete (some .replicationError)
  | err =>
      if side.localDeleted = true ∧ err = some .tombstone then
        .goto (.record side.localVer report.version)
      else if side.localTime > report.time ∨ side.localTime = report.time then
        if side.localDeleted then
          .ask (.del key report.version) (.deleting side.localVer)
        else
          .ask (.put key side.localValue
              (if report.version = 0 ∨ report.version < recorded then 1 else report.version))
            (.putting side.localVer)
      else if err = some .tombstone then
        .goto (.remove side.localVer report.version)
      else
        .ask (.get key report.version) (.getting side.localVer)

/-- The end of an exchange that records a version in its last transaction. -/
def recorded (ignoresMissing : Bool) (store : BRReplicatedKVStore) :
    Except KVFault Written → Except KVFault (BRReplicatedKVStore × SyncResult)
  | .ok w => .ok (w.1, .complete none)
  | .error (.thrown e) =>
      if ignoresMissing = true ∧ e = .notFound then .ok (store, .complete none)
      else .ok (store, .complete (some e))
  | .error .trapped => .error .trapped

/-- One transaction of `_syncKey` with the code up to the next one.  The result is
an error only where a conversion traps. -/
def syncStep (store : BRReplicatedKVStore) (ctx : TxnContext) (key : String) :
    SyncPoint → Except KVFault (BRReplicatedKVStore × SyncResult)
  | .start report =>
      if store.syncRunning = false then
        .ok (store, .throws .unknown)
      else
        match store.remoteVersion kv ctx key with
        | .ok recorded =>
            if report.err ≠ some .notFound ∧ report.version > 0 ∧ recorded = report.version then
              .ok (store, .complete none)
            else
              .ok (store, .goto (.compare report recorded))
        | .error (.thrown e) => .ok (store, .throws e)
        | .error .trapped => .error .trapped
  | .compare report recorded =>
      match store.localSide kv ctx key with
      | .ok side => .ok (store, decideSync key report recorded side)
      | .error (.thrown e) => .ok (store, .throws e)
      | .error .trapped => .error .trapped
  | .record localVer remoteVer =>
      recorded false store (store.setRemoteVersion kv ctx key localVer remoteVer)
  | .remove localVer remoteVer =>
      match store._del ctx key localVer with
      | .ok w => .ok (w.1, .goto (.recordRemoved w.2.1 remoteVer))
      | .error fault => recorded true store (.error fault)
  | .recordRemoved localVer remoteVer =>
      recorded true store (store.setRemoteVersion kv ctx key localVer remoteVer)
  | .store localVer value remoteVer =>
      match store._set kv ctx key value localVer with
      | .ok w => .ok (w.1, .goto (.record w.2.1 remoteVer))
      | .error fault => recorded false store (.error fault)
  | .discard localVer =>
      -- `try? self.del`: the replication it may start is refused, since one is running
      match checkKey kv key >>= fun _ => store._del ctx key localVer with
      | .ok w => .ok (w.1, .complete (some .malformedData))
      | .error (.thrown _) => .ok (store, .complete (some .malformedData))
      | .error .trapped => .error .trapped

/-- The callback of a request. -/
def syncAnswer (store : BRReplicatedKVStore) (answer : RemoteAnswer) : SyncWait → SyncResult
  | .deleting localVer =>
      match answer.err with
      | some .notFound => .complete none
      | some _ => .complete (some .replicationError)
      | none => .goto (.record localVer answer.version)
  | .putting localVer =>
      match answer.err with
      | some _ => .complete (some .replicationError)
      | none => .goto (.record localVer answer.version)
  | .getting localVer =>
      match answer.err with
      | some _ => .complete (some .replicationError)
      | none =>
          match store.openRemote kv answer.data with
          | some value => .goto (.store localVer value answer.version)
          | none => .goto (.discard localVer)

/-- Behind an answer the exchange goes on or ends. -/
theorem syncAnswer_goes_on
    (store : BRReplicatedKVStore) (answer : RemoteAnswer) (wait : SyncWait) :
    (∃ point, syncAnswer kv store answer wait = .goto point) ∨
      ∃ e, syncAnswer kv store answer wait = .complete e := by
  cases wait with
  | deleting localVer =>
      rw [syncAnswer]
      split
      · exact .inr ⟨_, rfl⟩
      · exact .inr ⟨_, rfl⟩
      · exact .inl ⟨_, rfl⟩
  | putting localVer =>
      rw [syncAnswer]
      split
      · exact .inr ⟨_, rfl⟩
      · exact .inl ⟨_, rfl⟩
  | getting localVer =>
      rw [syncAnswer]
      split
      · exact .inr ⟨_, rfl⟩
      · split
        · exact .inl ⟨_, rfl⟩
        · exact .inl ⟨_, rfl⟩

/-- The beginning of `syncKey` up to its first request or, where the caller knows
the remote version, up to the call of `_syncKey`. -/
def beginSyncKey (store : BRReplicatedKVStore) (key : String) :
    Except KVFault BRReplicatedKVStore := do
  checkKey kv key
  if store.syncRunning then
    .error (.thrown .alreadyReplicating)
  else
    .ok { store with syncRunning := true }

/-! ## What the kernel leaves alone -/

section Frame

variable {kv} {store store' : BRReplicatedKVStore} {ctx : TxnContext} {key : String}

/-- Both stores differ at most in their rows. -/
def SameFlags (store store' : BRReplicatedKVStore) : Prop :=
  store' = { store with rows := store'.rows }

theorem SameFlags.syncRunning
    (h : SameFlags store store') :
    store'.syncRunning = store.syncRunning := by
  rw [h]

theorem _set_sameFlags
    {value : List UInt8} {localVer : ℕ} {w : Written}
    (hok : store._set kv ctx key value localVer = .ok w) :
    SameFlags store w.1 := by
  rw [_set, txn_eq_ok] at hok
  simp only [Machine.bind_eq_ok] at hok
  obtain ⟨-, cur, -, newVer, -, n, -, rows, -, hw⟩ := hok
  cases hw
  rfl

theorem _del_sameFlags
    {localVer : ℕ} {w : Written}
    (hok : store._del ctx key localVer = .ok w) :
    SameFlags store w.1 := by
  rw [_del] at hok
  split at hok
  · cases hok
  · rw [txn_eq_ok] at hok
    simp only [Machine.bind_eq_ok] at hok
    obtain ⟨-, cur, -, newVer, -, v, -, rows, -, hw⟩ := hok
    cases hw
    rfl

theorem setRemoteVersion_sameFlags
    {localVer remoteVer : ℕ} {w : Written}
    (hok : store.setRemoteVersion kv ctx key localVer remoteVer = .ok w) :
    SameFlags store w.1 := by
  rw [setRemoteVersion, Machine.bind_eq_ok] at hok
  obtain ⟨-, -, hok⟩ := hok
  split at hok
  · cases hok
  · rw [txn_eq_ok] at hok
    simp only [Machine.bind_eq_ok] at hok
    obtain ⟨-, cur, -, newVer, -, remote, -, v, -, rows, -, hw⟩ := hok
    cases hw
    rfl

theorem run_sameFlags
    {call : KVCall} {w : Written}
    (hrun : call.run kv store = .ok w) :
    SameFlags store w.1 := by
  cases call with
  | set ctx key value localVer =>
      exact _set_sameFlags hrun
  | del ctx key localVer =>
      exact _del_sameFlags hrun
  | setRemoteVersion ctx key localVer remoteVer =>
      exact setRemoteVersion_sameFlags hrun

/-- What the local side of an exchange says where every `SELECT` reads its row. -/
theorem localSide_ok
    {side : LocalSide}
    (h : store.Numbered)
    (hversion : ctx.versionStep = none)
    (hrow : ctx.rowStep = none)
    (hkeys : ctx.keysRead = none)
    (hok : store.localSide kv ctx key = .ok side) :
    (store.latest (utf8String key) = none ∧
        side = { localVer := 0, localTime := 0, localDeleted := false, localValue := [] }) ∨
      ∃ row plain, store.latest (utf8String key) = some row ∧
        store.openValue kv row.value = .ok plain ∧
        side = { localVer := row.version, localTime := row.time, localDeleted := row.deleted,
                 localValue := store.sealRemote kv ctx.nonce plain } := by
  have hkey : kv.keyMatches key = 1 := by
    by_contra hkey
    rw [localSide, get, checkKey_of_mismatch hkey] at hok
    cases hok
  have hcode : checkErr ctx.code SQLITE_NULL = .ok () := by
    rcases checkErr_cases ctx.code SQLITE_NULL with hcode | hcode
    · exact hcode
    · rw [localSide, get, checkKey_of_match hkey, Machine.ok_bind, getRow, txn, hcode] at hok
      cases hok
  have hctx : Succeeds ctx := ⟨hcode, hversion, hrow, hkeys⟩
  have hzero := getVersion_zero h hctx key
  cases hlast : store.latest (utf8String key) with
  | none =>
      have hcount : store.count (utf8String key) = 0 :=
        congrArg List.length (List.getLast?_eq_none_iff.mp hlast)
      rw [hcount] at hzero
      rw [localSide, get_notFound hctx hkey hzero] at hok
      cases hok
      exact .inl ⟨rfl, rfl⟩
  | some row =>
      obtain ⟨-, -, hrowVersion, hpos⟩ := latest_spec h hlast
      obtain ⟨i, hi⟩ : ∃ i, store.count (utf8String key) = i + 1 :=
        ⟨store.count (utf8String key) - 1, by omega⟩
      have hget := (getElem?_rowsOf_latest hi).trans hlast
      rw [hi] at hzero hrowVersion
      cases hopen : store.openValue kv row.value with
      | ok plain =>
          rw [localSide, get_of_version h hctx hkey hzero hget hopen] at hok
          cases hok
          exact .inr ⟨row, plain, rfl, hopen, by rw [hrowVersion]⟩
      | error fault =>
          have hfault : fault = .thrown .malformedData := by
            rw [openValue] at hopen
            split at hopen
            · split at hopen
              · cases hopen
              · cases hopen
                rfl
            · cases hopen
          rw [localSide, get, checkKey_of_match hkey, Machine.ok_bind,
            getRow_of_version h hctx hzero hget, Machine.ok_bind] at hok
          dsimp only at hok
          rw [hopen, hfault] at hok
          cases hok

/-- The end of an exchange keeps the store of its last transaction. -/
theorem recorded_ok
    {ignoresMissing : Bool} {written : Except KVFault Written}
    {r : BRReplicatedKVStore × SyncResult}
    (hok : recorded ignoresMissing store written = .ok r) :
    (∃ w, written = .ok w ∧ r = (w.1, .complete none)) ∨
      ∃ e, written = .error (.thrown e) ∧
        r = (store, .complete
          (if ignoresMissing = true ∧ e = .notFound then none else some e)) := by
  rcases written with (e | -) | w
  · rw [recorded] at hok
    split at hok
    · rename_i h
      cases hok
      exact .inr ⟨e, rfl, by rw [if_pos h]⟩
    · rename_i h
      cases hok
      exact .inr ⟨e, rfl, by rw [if_neg h]⟩
  · cases hok
  · cases hok
    exact .inl ⟨w, rfl, rfl⟩

/-- A transaction of the kernel changes at most the rows. -/
theorem syncStep_sameFlags
    {point : SyncPoint} {r : BRReplicatedKVStore × SyncResult}
    (hok : syncStep kv store ctx key point = .ok r) :
    SameFlags store r.1 := by
  cases point with
  | start report =>
      rw [syncStep] at hok
      split at hok
      · cases hok
        rfl
      · split at hok
        · split at hok <;> cases hok <;> rfl
        · cases hok
          rfl
        · cases hok
  | compare report recorded =>
      rw [syncStep] at hok
      split at hok <;> cases hok <;> rfl
  | record localVer remoteVer =>
      rcases recorded_ok hok with ⟨w, hw, rfl⟩ | ⟨e, -, rfl⟩
      · exact setRemoteVersion_sameFlags hw
      · rfl
  | remove localVer remoteVer =>
      rw [syncStep] at hok
      split at hok
      · rename_i w hw
        cases hok
        exact _del_sameFlags hw
      · rcases recorded_ok hok with ⟨w, hw, -⟩ | ⟨e, -, rfl⟩
        · cases hw
        · rfl
  | recordRemoved localVer remoteVer =>
      rcases recorded_ok hok with ⟨w, hw, rfl⟩ | ⟨e, -, rfl⟩
      · exact setRemoteVersion_sameFlags hw
      · rfl
  | store localVer value remoteVer =>
      rw [syncStep] at hok
      split at hok
      · rename_i w hw
        cases hok
        exact _set_sameFlags hw
      · rcases recorded_ok hok with ⟨w, hw, -⟩ | ⟨e, -, rfl⟩
        · cases hw
        · rfl
  | discard localVer =>
      rw [syncStep] at hok
      split at hok
      · rename_i w hw
        cases hok
        rw [Machine.bind_eq_ok] at hw
        obtain ⟨-, -, hdel⟩ := hw
        exact _del_sameFlags hdel
      · cases hok
        rfl
      · cases hok

end Frame

end BRReplicatedKVStore

end BreadwalletCore
