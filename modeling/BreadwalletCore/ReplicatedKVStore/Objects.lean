import BreadwalletCore.ReplicatedKVStore.Sync

/-!
# Objects that are written through their version

`set(_ object:)` and `del(_ object:)` write an object against the version it
carries and update that version.  The save commits before `syncKey` starts the
immediate replication, and `syncKey` may refuse.
-/

namespace BreadwalletCore

/-- `BRKVStoreObject`. -/
structure BRKVStoreObject where
  version : ℕ
  lastModified : ℕ
  deleted : Bool
  key : String
  data : List UInt8
deriving DecidableEq

namespace BRReplicatedKVStore

variable (kv : KVPlatform)

/-- The replication that `set` and `del` start behind a save. -/
def syncSaved (saved : Written) (key : String) : BRReplicatedKVStore × Except KVFault (ℕ × ℕ) :=
  if saved.1.syncImmediately then
    match saved.1.beginSyncKey kv key with
    | .ok store => (store, .ok saved.2)
    | .error fault => (saved.1, .error fault)
  else
    (saved.1, .ok saved.2)

/-- Set the value of a key.  A call that throws may have written the table. -/
def set (store : BRReplicatedKVStore) (ctx : TxnContext) (key : String)
    (value : List UInt8) (localVer : ℕ) : BRReplicatedKVStore × Except KVFault (ℕ × ℕ) :=
  match checkKey kv key >>= fun _ => store._set kv ctx key value localVer with
  | .ok saved => syncSaved kv saved key
  | .error fault => (store, .error fault)

/-- Mark a key as removed. -/
def del (store : BRReplicatedKVStore) (ctx : TxnContext) (key : String)
    (localVer : ℕ) : BRReplicatedKVStore × Except KVFault (ℕ × ℕ) :=
  match checkKey kv key >>= fun _ => store._del ctx key localVer with
  | .ok saved => syncSaved kv saved key
  | .error fault => (store, .error fault)

/-- What a call on an object leaves: the store, the object, and whether it threw. -/
abbrev ObjectOutcome : Type :=
  BRReplicatedKVStore × BRKVStoreObject × Except KVFault Unit

/-- `set(_ object:)`. -/
def setObject (store : BRReplicatedKVStore) (ctx : TxnContext) (object : BRKVStoreObject) :
    ObjectOutcome :=
  match set kv store ctx object.key object.data object.version with
  | (store', .ok (version, time)) =>
      (store', { object with version := version, lastModified := time }, .ok ())
  | (store', .error fault) => (store', object, .error fault)

/-- `del(_ object:)`. -/
def delObject (store : BRReplicatedKVStore) (ctx : TxnContext) (object : BRKVStoreObject) :
    ObjectOutcome :=
  match del kv store ctx object.key object.version with
  | (store', .ok (version, time)) =>
      (store', { object with version := version, lastModified := time, deleted := true }, .ok ())
  | (store', .error fault) => (store', object, .error fault)

/-! ## When a write can be saved -/

variable {kv} {store : BRReplicatedKVStore} {ctx : TxnContext} {object : BRKVStoreObject}

variable (kv) in
/-- `_set` saves the object: the key is valid, no statement fails, the version is
the current one, and version and value fit their columns. -/
structure CanSet (store : BRReplicatedKVStore) (ctx : TxnContext) (object : BRKVStoreObject) :
    Prop where
  key : kv.keyMatches object.key = 1
  code : checkErr ctx.code SQLITE_NULL = .ok ()
  version : object.version = store.count (utf8String object.key)
  read : ctx.versionStep = none ∨ object.version = 0
  version_lt : object.version + 1 < 2 ^ 63
  length_lt : (store.sealValue kv ctx.nonce object.data).length < 2 ^ 31

variable (kv) in
/-- `_del` marks the object as removed. -/
structure CanDel (store : BRReplicatedKVStore) (ctx : TxnContext) (object : BRKVStoreObject) :
    Prop where
  key : kv.keyMatches object.key = 1
  code : checkErr ctx.code SQLITE_NULL = .ok ()
  version : object.version = store.count (utf8String object.key)
  read : ctx.versionStep = none
  pos : 0 < object.version
  version_lt : object.version + 1 < 2 ^ 63

theorem checkKey_bind_eq_ok
    {α : Type} {key : String} {fn : Unit → Except KVFault α} {a : α} :
    (checkKey kv key >>= fn) = .ok a ↔ kv.keyMatches key = 1 ∧ fn () = .ok a := by
  by_cases hkey : kv.keyMatches key = 1
  · rw [checkKey_of_match hkey, Machine.ok_bind]
    exact (and_iff_right hkey).symm
  · rw [checkKey_of_mismatch hkey]
    constructor
    · intro h
      cases h
    · rintro ⟨h, -⟩
      exact absurd h hkey

theorem checkVersion_of_current
    {key : String} {localVer : ℕ}
    (h : store.Numbered)
    (hversion : localVer = store.count (utf8String key))
    (hread : ctx.versionStep = none ∨ localVer = 0) :
    store.checkVersion ctx key localVer = .ok localVer := by
  obtain ⟨cur, hcur, hnone, hsome⟩ := _localVersion_spec h ctx key
  have heq : cur.1 = localVer := by
    by_cases hstep : ctx.versionStep = none
    · rw [(hnone hstep).1, hversion]
    · rw [hsome hstep]
      exact (hread.resolve_left hstep).symm
  rw [checkVersion, hcur, Machine.ok_bind, if_neg (not_not.mpr heq), heq]

theorem checkVersion_read
    {key : String} {localVer : ℕ}
    (h : store.Numbered)
    (hok : store.checkVersion ctx key localVer = .ok localVer) :
    ctx.versionStep = none ∨ localVer = 0 := by
  by_cases hstep : ctx.versionStep = none
  · exact .inl hstep
  · obtain ⟨cur, hcur, -, hsome⟩ := _localVersion_spec h ctx key
    rw [checkVersion, hcur, hsome hstep, Machine.ok_bind] at hok
    split at hok
    · cases hok
    · cases hok
      exact .inr rfl

theorem int32_eq_ok
    {n m : ℕ} :
    int32 n = .ok m ↔ n < 2 ^ 31 ∧ m = n := by
  rw [int32]
  split
  · rename_i h
    constructor
    · intro hm
      cases hm
      exact ⟨h, rfl⟩
    · rintro ⟨-, rfl⟩
      rfl
  · rename_i h
    constructor
    · intro hm
      cases hm
    · rintro ⟨hlt, -⟩
      exact absurd hlt h

theorem selectVersion_next
    (h : store.Numbered)
    (text : String) :
    selectVersion store.rows text (store.count text + 1) = [] := by
  rw [selectVersion_succ h, Option.toList_eq_nil_iff]
  exact List.getElem?_eq_none le_rfl

theorem set_saves_iff
    (h : store.Numbered) :
    (∃ w, (checkKey kv object.key >>= fun _ =>
        store._set kv ctx object.key object.data object.version) = .ok w) ↔
      CanSet kv store ctx object := by
  simp only [checkKey_bind_eq_ok]
  constructor
  · rintro ⟨w, hkey, hset⟩
    have hadds := _set_ok h hset
    rw [_set, txn_eq_ok] at hset
    obtain ⟨hcode, hset⟩ := hset
    rw [Machine.bind_eq_ok] at hset
    obtain ⟨curVer, hcur, hset⟩ := hset
    obtain ⟨rfl, -⟩ := checkVersion_ok h hcur
    simp only [Machine.bind_eq_ok] at hset
    obtain ⟨newVer, hnew, n, hlength, -⟩ := hset
    exact ⟨hkey, hcode, hadds.current, checkVersion_read h hcur, (int64_eq_ok.mp hnew).1,
      (int32_eq_ok.mp hlength).1⟩
  · rintro ⟨hkey, hcode, hversion, hread, hlt, hlength⟩
    have hfree := selectVersion_next h (utf8String object.key)
    rw [← hversion] at hfree
    refine ⟨(store.push
      { version := object.version + 1, key := utf8String object.key,
        value := store.sealValue kv ctx.nonce object.data, time := ctx.now, deleted := false },
      object.version + 1, ctx.now), hkey, ?_⟩
    rw [_set, txn_eq_ok]
    refine ⟨hcode, ?_⟩
    rw [checkVersion_of_current h hversion hread, Machine.ok_bind,
      int64_eq_ok.mpr ⟨hlt, rfl⟩, Machine.ok_bind]
    dsimp only
    rw [int32_eq_ok.mpr ⟨hlength, rfl⟩, Machine.ok_bind, insert_eq_ok.mpr ⟨hfree, rfl⟩,
      Machine.ok_bind]
    rfl

theorem del_saves_iff
    (h : store.Numbered) :
    (∃ w, (checkKey kv object.key >>= fun _ =>
        store._del ctx object.key object.version) = .ok w) ↔
      CanDel kv store ctx object := by
  simp only [checkKey_bind_eq_ok]
  constructor
  · rintro ⟨w, hkey, hdel⟩
    obtain ⟨last, -, hadds⟩ := _del_ok h hdel
    rw [_del] at hdel
    split at hdel
    · cases hdel
    · rename_i hpos
      rw [txn_eq_ok] at hdel
      obtain ⟨hcode, hdel⟩ := hdel
      rw [Machine.bind_eq_ok] at hdel
      obtain ⟨curVer, hcur, hdel⟩ := hdel
      obtain ⟨rfl, -⟩ := checkVersion_ok h hcur
      exact ⟨hkey, hcode, hadds.current, (checkVersion_read h hcur).resolve_right hpos,
        Nat.pos_of_ne_zero hpos, hadds.version ▸ hadds.version_lt⟩
  · rintro ⟨hkey, hcode, hversion, hread, hpos, hlt⟩
    obtain ⟨i, hi⟩ : ∃ i, object.version = i + 1 := ⟨object.version - 1, by omega⟩
    have hcount : i < store.count (utf8String object.key) := by
      omega
    obtain ⟨row, hrow⟩ : ∃ row, (store.rowsOf (utf8String object.key))[i]? = some row :=
      ⟨_, List.getElem?_eq_getElem hcount⟩
    have hkeyRow := (VersionedTable.mem_rowsOf.mp (List.mem_of_getElem? hrow)).2
    have hfree := selectVersion_next h (utf8String object.key)
    rw [← hversion] at hfree
    refine ⟨(store.push
      { version := object.version + 1, key := row.key, value := row.value, time := ctx.now,
        deleted := true },
      object.version + 1, ctx.now), hkey, ?_⟩
    rw [_del, if_neg (Nat.pos_iff_ne_zero.mp hpos), txn_eq_ok]
    refine ⟨hcode, ?_⟩
    rw [checkVersion_of_current h hversion (.inl hread), Machine.ok_bind,
      int64_eq_ok.mpr ⟨hlt, rfl⟩, Machine.ok_bind,
      int64_eq_ok.mpr ⟨Nat.lt_of_succ_lt hlt, rfl⟩, Machine.ok_bind, insertSelect, hi,
      selectVersion_succ h, hrow, Option.toList_some, List.foldlM_cons, insert_eq_ok.mpr ⟨?_, rfl⟩]
    · rfl
    · dsimp only
      rw [hkeyRow, ← hi]
      exact hfree

/-! ## Traces of a failed write -/

/-- A call that throws leaves the table, and an object that was current stays current. -/
structure LeavesNoTrace (store : BRReplicatedKVStore) (object : BRKVStoreObject)
    (outcome : ObjectOutcome) : Prop where
  unchanged : ∀ fault, outcome.2.2 = .error fault → outcome.1.rows = store.rows
  current : object.version = store.count (utf8String object.key) →
    outcome.2.1.version = outcome.1.count (utf8String object.key)

variable (kv) in
/-- The shape that both object calls have: a save, the replication behind it, and
the update of the object. -/
def writeObject (store : BRReplicatedKVStore) (object : BRKVStoreObject)
    (saved : Except KVFault Written) (update : ℕ → ℕ → BRKVStoreObject) : ObjectOutcome :=
  match (match saved with
    | .ok saved => syncSaved kv saved object.key
    | .error fault => (store, .error fault)) with
  | (store', .ok (version, time)) => (store', update version time, .ok ())
  | (store', .error fault) => (store', object, .error fault)

/-- A write leaves a trace exactly if its save succeeds and the replication behind
it is refused. -/
theorem writeObject_leavesNoTrace_iff
    {saved : Except KVFault Written}
    (update : ℕ → ℕ → BRKVStoreObject)
    (hadds : ∀ w, saved = .ok w → kv.keyMatches object.key = 1 ∧
      ∃ row, store.Adds (utf8String object.key) object.version row w)
    (hupdate : ∀ version time, (update version time).version = version) :
    LeavesNoTrace store object (writeObject kv store object saved update) ↔
      ¬ ((∃ w, saved = .ok w) ∧ store.syncImmediately = true ∧ store.syncRunning = true) := by
  cases saved with
  | error fault =>
      refine iff_of_true ⟨fun _ _ => rfl, fun h => h⟩ ?_
      rintro ⟨⟨w, hw⟩, -⟩
      cases hw
  | ok w =>
      obtain ⟨hkey, row, hrow⟩ := hadds w rfl
      have hcount : (store.push row).count (utf8String object.key) = object.version + 1 := by
        rw [← hrow.key, hrow.current, ← hrow.key]
        exact VersionedTable.count_concat_self row
      have hwritten := hrow.written
      subst hwritten
      cases himmediately : store.syncImmediately with
      | false =>
          refine iff_of_true ?_ (by simp)
          have hsync : syncSaved kv (store.push row, object.version + 1, row.time) object.key =
              (store.push row, .ok (object.version + 1, row.time)) :=
            if_neg (by simp [push, himmediately])
          rw [writeObject]
          simp only [hsync]
          refine ⟨fun fault hfault => ?_, fun _ => ?_⟩
          · cases hfault
          · rw [hupdate]
            exact hcount.symm
      | true =>
          have hpush : (store.push row).syncImmediately = true := himmediately
          cases hrunning : store.syncRunning with
          | false =>
              refine iff_of_true ?_ (by simp)
              have hbegin : (store.push row).beginSyncKey kv object.key =
                  .ok { store.push row with syncRunning := true } := by
                rw [beginSyncKey, checkKey_of_match hkey, Machine.ok_bind]
                exact if_neg (by simp [push, hrunning])
              rw [writeObject, syncSaved]
              simp only [hpush, if_true, hbegin]
              refine ⟨fun fault hfault => ?_, fun _ => ?_⟩
              · cases hfault
              · rw [hupdate]
                exact hcount.symm
          | true =>
              refine iff_of_false ?_ (by simp)
              have hbegin : (store.push row).beginSyncKey kv object.key =
                  .error (.thrown .alreadyReplicating) := by
                rw [beginSyncKey, checkKey_of_match hkey, Machine.ok_bind]
                exact if_pos hrunning
              rw [writeObject, syncSaved]
              simp only [hpush, if_true, hbegin]
              intro hclean
              have hrows := hclean.unchanged _ rfl
              simp [push] at hrows

/-- **Failed writes**: `set` and `del` of an object leave no trace exactly when they
do not save the object while a replication is to be started and one is running. -/
theorem objectCalls_leaveNoTrace_iff
    (h : store.Numbered) :
    (LeavesNoTrace store object (setObject kv store ctx object) ↔
      ¬ (CanSet kv store ctx object ∧ store.syncImmediately = true ∧
        store.syncRunning = true)) ∧
    (LeavesNoTrace store object (delObject kv store ctx object) ↔
      ¬ (CanDel kv store ctx object ∧ store.syncImmediately = true ∧
        store.syncRunning = true)) := by
  rw [← set_saves_iff h, ← del_saves_iff h]
  constructor
  · refine writeObject_leavesNoTrace_iff
      (fun version time => { object with version := version, lastModified := time })
      ?_ (fun version time => rfl)
    intro w hw
    obtain ⟨hkey, hset⟩ := checkKey_bind_eq_ok.mp hw
    exact ⟨hkey, _, _set_ok h hset⟩
  · refine writeObject_leavesNoTrace_iff
      (fun version time =>
        { object with version := version, lastModified := time, deleted := true })
      ?_ (fun version time => rfl)
    intro w hw
    obtain ⟨hkey, hdel⟩ := checkKey_bind_eq_ok.mp hw
    obtain ⟨last, -, hadds⟩ := _del_ok h hdel
    exact ⟨hkey, _, hadds⟩

/-- A store that holds one key, with another replication running. -/
def busyStore : BRReplicatedKVStore where
  rows := [{ version := 1, key := "ab", value := [0, 7], time := 10, deleted := false }]
  syncRunning := true
  syncImmediately := true

def currentObject : BRKVStoreObject where
  version := 1
  lastModified := 10
  deleted := false
  key := "ab"
  data := [8]

theorem numbered_busyStore : busyStore.Numbered := by
  refine ⟨VersionedTable.numbered_nil.concat rfl, ?_⟩
  intro row hrow
  rw [List.mem_singleton.mp hrow]
  exact Nat.one_lt_two_pow (by omega)

theorem objectCalls_leaveNoTrace_idle :
    LeavesNoTrace { busyStore with syncRunning := false } currentObject
      (setObject samplePlatform { busyStore with syncRunning := false } {} currentObject) := by
  have hnumbered : Numbered { busyStore with syncRunning := false } :=
    ⟨numbered_busyStore.versions, numbered_busyStore.version_lt⟩
  exact (objectCalls_leaveNoTrace_iff hnumbered).1.mpr (fun hbad => Bool.noConfusion hbad.2.2)

/-- The save commits, the call throws, and the object keeps its old version. -/
theorem not_leavesNoTrace_busy :
    busyStore.count "ab" = currentObject.version ∧
      (setObject samplePlatform busyStore {} currentObject).2.2 =
        .error (.thrown .alreadyReplicating) ∧
      (setObject samplePlatform busyStore {} currentObject).1.count "ab" = 2 ∧
      (setObject samplePlatform busyStore {} currentObject).2.1.version = 1 := by
  decide

end BRReplicatedKVStore

end BreadwalletCore
