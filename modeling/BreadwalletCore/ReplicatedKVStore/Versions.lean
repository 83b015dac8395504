import BreadwalletCore.ReplicatedKVStore

/-!
# The local store as a versioned map

Every write adds one row under the next version of its key, and nothing else
changes the table.  So the table is numbered, its reads find the rows by their
position, and a run of calls behaves as a map from keys to histories with an
optimistic version check.
-/

namespace BreadwalletCore

namespace BRReplicatedKVStore

/-- A call of one of the three writes. -/
inductive KVCall where
  | set (ctx : TxnContext) (key : String) (value : List UInt8) (localVer : ℕ)
  | del (ctx : TxnContext) (key : String) (localVer : ℕ)
  | setRemoteVersion (ctx : TxnContext) (key : String) (localVer remoteVer : ℕ)

namespace KVCall

def ctx : KVCall → TxnContext
  | set ctx .. => ctx
  | del ctx .. => ctx
  | setRemoteVersion ctx .. => ctx

/-- The key as it is bound. -/
def text : KVCall → String
  | set _ key .. => utf8String key
  | del _ key _ => utf8String key
  | setRemoteVersion _ key .. => utf8String key

def localVer : KVCall → ℕ
  | set _ _ _ localVer => localVer
  | del _ _ localVer => localVer
  | setRemoteVersion _ _ localVer _ => localVer

/-- The value that a `_set` of the key stores. -/
def value? (text : String) : KVCall → Option (List UInt8)
  | set _ key value _ => if utf8String key = text then some value else none
  | _ => none

/-- The deleted flag that a `_set` or `_del` of the key stores. -/
def deleted? (text : String) : KVCall → Option Bool
  | set _ key .. => if utf8String key = text then some false else none
  | del _ key _ => if utf8String key = text then some true else none
  | _ => none

end KVCall

variable {kv : KVPlatform} {store : BRReplicatedKVStore} {ctx : TxnContext} {key text : String}

/-- The rows of a key, given as it is bound. -/
abbrev rowsOf (store : BRReplicatedKVStore) (text : String) : List KVRow :=
  VersionedTable.rowsOf KVRow.key store.rows text

/-- The number of versions of a key. -/
abbrev count (store : BRReplicatedKVStore) (text : String) : ℕ :=
  VersionedTable.count KVRow.key store.rows text

/-- The versions of every key are `1, …, n`, and each fits a column. -/
structure Numbered (store : BRReplicatedKVStore) : Prop where
  versions : VersionedTable.Numbered KVRow.key KVRow.version store.rows
  version_lt : ∀ row ∈ store.rows, row.version < 2 ^ 63

/-- The latest row of a key. -/
abbrev latest (store : BRReplicatedKVStore) (text : String) : Option KVRow :=
  (store.rowsOf text).getLast?

/-- The store with one more row. -/
def push (store : BRReplicatedKVStore) (row : KVRow) : BRReplicatedKVStore :=
  { store with rows := store.rows ++ [row] }

theorem rowsOf_push_self
    (row : KVRow) :
    (store.push row).rowsOf row.key = store.rowsOf row.key ++ [row] :=
  VersionedTable.rowsOf_concat_self row

theorem rowsOf_push_other
    {row : KVRow}
    (h : row.key ≠ text) :
    (store.push row).rowsOf text = store.rowsOf text :=
  VersionedTable.rowsOf_concat_other h

theorem latest_push_self
    (row : KVRow) :
    (store.push row).latest row.key = some row := by
  rw [latest, rowsOf_push_self, List.getLast?_concat]

theorem Numbered.push
    {row : KVRow}
    (h : store.Numbered)
    (hversion : row.version = store.count row.key + 1)
    (hlt : row.version < 2 ^ 63) :
    (store.push row).Numbered where
  versions := h.versions.concat hversion
  version_lt := by
    intro r hr
    rcases List.mem_append.mp hr with hr | hr
    · exact h.version_lt r hr
    · rw [List.mem_singleton.mp hr]
      exact hlt

/-! ## Queries -/

@[simp] theorem checkErr_row
    (e : ℕ) :
    checkErr e SQLITE_ROW = .ok () := by
  simp [checkErr]

theorem checkErr_cases
    (e r : ℕ) :
    checkErr e r = .ok () ∨ checkErr e r = .error (.thrown .sqLiteError) := by
  rw [checkErr]
  split
  · exact .inr rfl
  · exact .inl rfl

theorem txn_eq_ok
    {α : Type} {fn : Except KVFault α} {a : α} :
    txn ctx fn = .ok a ↔ checkErr ctx.code SQLITE_NULL = .ok () ∧ fn = .ok a := by
  rw [txn, Machine.bind_eq_ok]
  constructor
  · rintro ⟨_, hcode, hfn⟩
    exact ⟨hcode, hfn⟩
  · rintro ⟨hcode, hfn⟩
    exact ⟨(), hcode, hfn⟩

theorem int64_eq_ok
    {v w : ℕ} :
    int64 v = .ok w ↔ v < 2 ^ 63 ∧ w = v := by
  rw [int64]
  split
  · rename_i h
    constructor
    · intro hw
      cases hw
      exact ⟨h, rfl⟩
    · rintro ⟨-, rfl⟩
      rfl
  · rename_i h
    constructor
    · intro hw
      cases hw
    · rintro ⟨hlt, -⟩
      exact absurd hlt h

theorem selectLatest_eq
    (h : store.Numbered)
    (text : String) :
    selectLatest store.rows text = store.latest text :=
  h.versions.argmax_eq text

theorem selectVersion_succ
    (h : store.Numbered)
    (text : String) (i : ℕ) :
    selectVersion store.rows text (i + 1) = ((store.rowsOf text)[i]?).toList :=
  h.versions.filter_version text i

theorem latest_isSome
    (hpos : 0 < store.count text) :
    ∃ row, store.latest text = some row :=
  ⟨_, List.getLast?_eq_some_getLast (List.ne_nil_of_length_pos hpos)⟩

/-- The latest row is the one at the last place. -/
theorem getElem?_rowsOf_latest
    {i : ℕ}
    (hi : store.count text = i + 1) :
    (store.rowsOf text)[i]? = store.latest text := by
  rw [latest, List.getLast?_eq_getElem?]
  congr 1
  change i = store.count text - 1
  omega

theorem latest_spec
    {row : KVRow}
    (h : store.Numbered)
    (hrow : store.latest text = some row) :
    row ∈ store.rows ∧ row.key = text ∧ row.version = store.count text ∧
      0 < store.count text := by
  have hmem := List.mem_of_getLast? hrow
  have hmem' := VersionedTable.mem_rowsOf.mp hmem
  exact ⟨hmem'.1, hmem'.2, h.versions.getLast?_version hrow, List.length_pos_of_mem hmem⟩

/-- `_localVersion` never throws: it answers the current version, or 0 where the
step of its `SELECT` fails. -/
theorem _localVersion_spec
    (h : store.Numbered)
    (ctx : TxnContext) (key : String) :
    ∃ cur, store._localVersion ctx key = .ok cur ∧
      (ctx.versionStep = none → cur.1 = store.count (utf8String key) ∧
        cur.2 = columnInt64 (store.latest (utf8String key)) KVRow.time) ∧
      (ctx.versionStep ≠ none → cur = (0, 0)) := by
  refine ⟨_, by rw [_localVersion, checkErr_row, Machine.ok_bind], ?_, ?_⟩
  · intro hstep
    rw [hstep, stepSelect, selectLatest_eq h]
    refine ⟨?_, rfl⟩
    cases hlast : store.latest (utf8String key) with
    | none =>
        have hnil : store.rowsOf (utf8String key) = [] := List.getLast?_eq_none_iff.mp hlast
        exact (congrArg List.length hnil).symm
    | some row =>
        exact (latest_spec h hlast).2.2.1
  · intro hstep
    obtain ⟨e, he⟩ := Option.ne_none_iff_exists'.mp hstep
    rw [he]
    rfl

/-- The version check passes the current version, or 0 where it could not be read. -/
theorem checkVersion_ok
    {localVer v : ℕ}
    (h : store.Numbered)
    (hok : store.checkVersion ctx key localVer = .ok v) :
    v = localVer ∧ (localVer = store.count (utf8String key) ∨
      localVer = 0 ∧ ctx.versionStep ≠ none) := by
  obtain ⟨cur, hcur, hread, hfail⟩ := _localVersion_spec h ctx key
  rw [checkVersion, hcur, Machine.ok_bind] at hok
  split at hok
  · cases hok
  · rename_i heq
    cases hok
    rw [not_not] at heq
    refine ⟨heq, ?_⟩
    by_cases hstep : ctx.versionStep = none
    · exact .inl (heq.symm.trans (hread hstep).1)
    · rw [hfail hstep] at heq
      exact .inr ⟨heq.symm, hstep⟩

/-- A version that is not 0 passes the check only if it is the current one. -/
theorem checkVersion_ok_of_ne_zero
    {localVer v : ℕ}
    (h : store.Numbered)
    (hpos : localVer ≠ 0)
    (hok : store.checkVersion ctx key localVer = .ok v) :
    v = localVer ∧ localVer = store.count (utf8String key) := by
  obtain ⟨hv, hcount | ⟨hzero, -⟩⟩ := checkVersion_ok h hok
  · exact ⟨hv, hcount⟩
  · exact absurd hzero hpos

theorem checkVersion_conflict
    {localVer : ℕ}
    (h : store.Numbered)
    (hstep : ctx.versionStep = none)
    (hne : localVer ≠ store.count (utf8String key)) :
    store.checkVersion ctx key localVer = .error (.thrown .conflict) := by
  obtain ⟨cur, hcur, hread, -⟩ := _localVersion_spec h ctx key
  rw [checkVersion, hcur, Machine.ok_bind, if_pos]
  rw [(hread hstep).1]
  exact hne.symm

/-! ## Writes -/

theorem insert_eq_ok
    {rows rows' : List KVRow} {row : KVRow} :
    insert rows row = .ok rows' ↔
      selectVersion rows row.key row.version = [] ∧ rows' = rows ++ [row] := by
  rw [insert, Machine.bind_eq_ok]
  by_cases hfree : selectVersion rows row.key row.version = []
  · simp [hfree, checkErr, eq_comm]
  · simp [hfree, checkErr]

/-- The copy of the current row of a key. -/
theorem insertSelect_ok
    {rows' : List KVRow} {localVer : ℕ} {copy : KVRow → KVRow}
    (h : store.Numbered)
    (hversion : localVer = store.count text)
    (hpos : 0 < localVer)
    (hok : insertSelect store.rows text localVer copy = .ok rows') :
    ∃ last, store.latest text = some last ∧ rows' = store.rows ++ [copy last] := by
  obtain ⟨i, rfl⟩ : ∃ i, localVer = i + 1 := ⟨localVer - 1, by omega⟩
  obtain ⟨last, hlast⟩ := latest_isSome (hversion ▸ hpos)
  rw [insertSelect, selectVersion_succ h, getElem?_rowsOf_latest hversion.symm, hlast,
    Option.toList_some, List.foldlM_cons,
    Machine.bind_eq_ok] at hok
  obtain ⟨rows, hrows, hok⟩ := hok
  cases hok
  exact ⟨last, hlast, (insert_eq_ok.mp hrows).2⟩

/-- What a write adds: one row under the next version of the key. -/
structure Adds (store : BRReplicatedKVStore) (text : String) (localVer : ℕ) (row : KVRow)
    (w : Written) : Prop where
  current : localVer = store.count text
  written : w = (store.push row, localVer + 1, row.time)
  key : row.key = text
  version : row.version = localVer + 1
  version_lt : row.version < 2 ^ 63

theorem _set_ok
    {value : List UInt8} {localVer : ℕ} {w : Written}
    (h : store.Numbered)
    (hok : store._set kv ctx key value localVer = .ok w) :
    store.Adds (utf8String key) localVer
      { version := localVer + 1, key := utf8String key,
        value := store.sealValue kv ctx.nonce value, time := ctx.now, deleted := false } w := by
  rw [_set, txn_eq_ok] at hok
  obtain ⟨-, hok⟩ := hok
  rw [Machine.bind_eq_ok] at hok
  obtain ⟨curVer, hcur, hok⟩ := hok
  obtain ⟨rfl, hversion⟩ := checkVersion_ok h hcur
  rw [Machine.bind_eq_ok] at hok
  obtain ⟨newVer, hnew, hok⟩ := hok
  obtain ⟨hlt, rfl⟩ := int64_eq_ok.mp hnew
  rw [Machine.bind_eq_ok] at hok
  obtain ⟨-, -, hok⟩ := hok
  rw [Machine.bind_eq_ok] at hok
  obtain ⟨rows, hrows, hok⟩ := hok
  obtain ⟨hfree, rfl⟩ := insert_eq_ok.mp hrows
  cases hok
  refine ⟨?_, rfl, rfl, rfl, hlt⟩
  rcases hversion with hversion | ⟨rfl, -⟩
  · exact hversion
  · -- the read failed: the primary key lets version 1 in only where there is none
    rw [selectVersion_succ h, Option.toList_eq_nil_iff, List.getElem?_eq_none_iff] at hfree
    exact (Nat.le_zero.mp hfree).symm

theorem _del_ok
    {localVer : ℕ} {w : Written}
    (h : store.Numbered)
    (hok : store._del ctx key localVer = .ok w) :
    ∃ last, store.latest (utf8String key) = some last ∧
      store.Adds (utf8String key) localVer
        { version := localVer + 1, key := last.key, value := last.value, time := ctx.now,
          deleted := true } w := by
  rw [_del] at hok
  split at hok
  · cases hok
  · rename_i hpos
    rw [txn_eq_ok] at hok
    obtain ⟨-, hok⟩ := hok
    rw [Machine.bind_eq_ok] at hok
    obtain ⟨curVer, hcur, hok⟩ := hok
    obtain ⟨rfl, hcurrent⟩ := checkVersion_ok_of_ne_zero h hpos hcur
    rw [Machine.bind_eq_ok] at hok
    obtain ⟨newVer, hnew, hok⟩ := hok
    obtain ⟨hlt, rfl⟩ := int64_eq_ok.mp hnew
    rw [Machine.bind_eq_ok] at hok
    obtain ⟨v, hv, hok⟩ := hok
    obtain ⟨-, rfl⟩ := int64_eq_ok.mp hv
    rw [Machine.bind_eq_ok] at hok
    obtain ⟨rows, hrows, hok⟩ := hok
    obtain ⟨last, hlast, rfl⟩ := insertSelect_ok h hcurrent (Nat.pos_of_ne_zero hpos) hrows
    cases hok
    exact ⟨last, hlast, hcurrent, rfl, (latest_spec h hlast).2.1, rfl, hlt⟩

theorem setRemoteVersion_ok
    {localVer remoteVer : ℕ} {w : Written}
    (h : store.Numbered)
    (hok : store.setRemoteVersion kv ctx key localVer remoteVer = .ok w) :
    ∃ last, store.latest (utf8String key) = some last ∧
      store.Adds (utf8String key) localVer
        { version := localVer + 1, key := last.key, value := last.value, time := ctx.now,
          deleted := last.deleted, remoteVersion := remoteVer } w := by
  rw [setRemoteVersion, Machine.bind_eq_ok] at hok
  obtain ⟨-, -, hok⟩ := hok
  split at hok
  · cases hok
  · rename_i hpos
    rw [txn_eq_ok] at hok
    obtain ⟨-, hok⟩ := hok
    rw [Machine.bind_eq_ok] at hok
    obtain ⟨curVer, hcur, hok⟩ := hok
    obtain ⟨rfl, hcurrent⟩ := checkVersion_ok_of_ne_zero h (by omega) hcur
    rw [Machine.bind_eq_ok] at hok
    obtain ⟨newVer, hnew, hok⟩ := hok
    obtain ⟨hlt, rfl⟩ := int64_eq_ok.mp hnew
    rw [Machine.bind_eq_ok] at hok
    obtain ⟨remote, hremote, hok⟩ := hok
    obtain ⟨-, rfl⟩ := int64_eq_ok.mp hremote
    rw [Machine.bind_eq_ok] at hok
    obtain ⟨v, hv, hok⟩ := hok
    obtain ⟨-, rfl⟩ := int64_eq_ok.mp hv
    rw [Machine.bind_eq_ok] at hok
    obtain ⟨rows, hrows, hok⟩ := hok
    obtain ⟨last, hlast, rfl⟩ := insertSelect_ok h hcurrent (Nat.pos_of_ne_zero (by omega)) hrows
    cases hok
    exact ⟨last, hlast, hcurrent, rfl, (latest_spec h hlast).2.1, rfl, hlt⟩

/-! ## Reads -/

/-- No statement of the transaction fails. -/
structure Succeeds (ctx : TxnContext) : Prop where
  code : checkErr ctx.code SQLITE_NULL = .ok ()
  versionStep : ctx.versionStep = none
  rowStep : ctx.rowStep = none
  keysRead : ctx.keysRead = none

theorem txn_of_succeeds
    {α : Type}
    (hctx : Succeeds ctx)
    (fn : Except KVFault α) :
    txn ctx fn = fn := by
  rw [txn, hctx.code]
  rfl

/-- The current version of a key without failures. -/
theorem _localVersion_of_succeeds
    (h : store.Numbered)
    (hctx : Succeeds ctx)
    (key : String) :
    ∃ time, store._localVersion ctx key = .ok (store.count (utf8String key), time) := by
  obtain ⟨cur, hcur, hread, -⟩ := _localVersion_spec h ctx key
  exact ⟨cur.2, by rw [hcur, ← (hread hctx.versionStep).1]⟩

/-- The row that `getRow` answers for the version it has looked up. -/
theorem getRow_of_version
    {version i : ℕ} {row : KVRow}
    (h : store.Numbered)
    (hctx : Succeeds ctx)
    (hversion : store.getVersion ctx key version = .ok (i + 1))
    (hrow : (store.rowsOf (utf8String key))[i]? = some row) :
    store.getRow ctx key version = .ok (i + 1, row.time, row.deleted, row.value) := by
  have hmem := (VersionedTable.mem_rowsOf.mp (List.mem_of_getElem? hrow)).1
  have hlt := h.version_lt row hmem
  rw [h.versions.version_getElem hrow] at hlt
  rw [getRow, txn_of_succeeds hctx, hversion, Machine.ok_bind, if_neg (Nat.succ_ne_zero i),
    int64_eq_ok.mpr ⟨hlt, rfl⟩, Machine.ok_bind, selectVersion_succ h, hrow, hctx.rowStep]
  simp [stepSelect, columnInt64, Machine.ok_bind]

theorem getVersion_zero
    (h : store.Numbered)
    (hctx : Succeeds ctx)
    (key : String) :
    store.getVersion ctx key 0 = .ok (store.count (utf8String key)) := by
  obtain ⟨time, hcur⟩ := _localVersion_of_succeeds h hctx key
  rw [getVersion, if_pos rfl, hcur, Machine.ok_bind]

theorem getVersion_succ
    {i : ℕ}
    (h : store.Numbered)
    (hctx : Succeeds ctx)
    (hlt : i + 1 < 2 ^ 63) :
    store.getVersion ctx key (i + 1) =
      .ok (if i < store.count (utf8String key) then i + 1 else 0) := by
  rw [getVersion, if_neg (Nat.succ_ne_zero i), int64_eq_ok.mpr ⟨hlt, rfl⟩, Machine.ok_bind,
    selectVersion_succ h, hctx.versionStep, stepSelect]
  dsimp only
  rw [checkErr_row, Machine.ok_bind]
  split
  · rename_i hi
    have hrow := List.getElem?_eq_getElem (l := store.rowsOf (utf8String key)) hi
    simp [hrow, columnInt64, h.versions.version_getElem hrow]
  · rename_i hi
    have hrow : (store.rowsOf (utf8String key))[i]? = none :=
      List.getElem?_eq_none (Nat.le_of_not_lt hi)
    simp [hrow, columnInt64]

theorem checkKey_of_match
    (hkey : kv.keyMatches key = 1) :
    checkKey kv key = .ok () := by
  rw [checkKey, if_neg (not_not.mpr hkey)]

theorem checkKey_of_mismatch
    (hkey : kv.keyMatches key ≠ 1) :
    checkKey kv key = .error (.thrown .invalidKey) := by
  rw [checkKey, if_pos hkey]

/-- `get` answers the row at the version it has looked up. -/
theorem get_of_version
    {version i : ℕ} {row : KVRow} {value : List UInt8}
    (h : store.Numbered)
    (hctx : Succeeds ctx)
    (hkey : kv.keyMatches key = 1)
    (hversion : store.getVersion ctx key version = .ok (i + 1))
    (hrow : (store.rowsOf (utf8String key))[i]? = some row)
    (hopen : store.openValue kv row.value = .ok value) :
    store.get kv ctx key version = .ok (i + 1, row.time, row.deleted, value) := by
  rw [get, checkKey_of_match hkey, Machine.ok_bind, getRow_of_version h hctx hversion hrow,
    Machine.ok_bind]
  dsimp only
  rw [hopen, Machine.ok_bind]

theorem get_notFound
    {version : ℕ}
    (hctx : Succeeds ctx)
    (hkey : kv.keyMatches key = 1)
    (hversion : store.getVersion ctx key version = .ok 0) :
    store.get kv ctx key version = .error (.thrown .notFound) := by
  rw [get, checkKey_of_match hkey, Machine.ok_bind, getRow, txn_of_succeeds hctx, hversion,
    Machine.ok_bind, if_pos rfl]
  rfl

theorem mem_localKeys
    (h : store.Numbered)
    (hctx : Succeeds ctx) :
    ∃ entries, store.localKeys ctx = .ok entries ∧ (entries.map LocalKey.key).Nodup ∧
      ∀ entry, entry ∈ entries ↔ ∃ row, store.latest entry.key = some row ∧
        entry = { key := row.key, localVer := store.count entry.key, localTime := row.time,
                  remoteVer := row.remoteVersion, deleted := row.deleted } := by
  refine ⟨_, by rw [localKeys, txn_of_succeeds hctx, hctx.keysRead], ?_, ?_⟩
  · rw [List.map_map]
    exact h.versions.latestRows_nodup
  · intro entry
    rw [List.mem_map]
    constructor
    · rintro ⟨row, hrow, rfl⟩
      have hlatest := h.versions.mem_latestRows.mp hrow
      have hversion := h.versions.getLast?_version hlatest
      exact ⟨row, hlatest, congrArg
        (fun n => LocalKey.mk row.key n row.time row.remoteVersion row.deleted) hversion⟩
    · rintro ⟨row, hlatest, hentry⟩
      have hspec := latest_spec h hlatest
      refine ⟨row, ?_, ?_⟩
      · rw [h.versions.mem_latestRows, hspec.2.1]
        exact hlatest
      · rw [hentry, ← hspec.2.2.1]

/-! ## Runs of writes -/

variable (kv) in
def KVCall.run (store : BRReplicatedKVStore) : KVCall → Except KVFault Written
  | .set ctx key value localVer => store._set kv ctx key value localVer
  | .del ctx key localVer => store._del ctx key localVer
  | .setRemoteVersion ctx key localVer remoteVer =>
      store.setRemoteVersion kv ctx key localVer remoteVer

variable (kv) in
/-- One call on the store and the calls accepted so far. -/
def runCall (s : BRReplicatedKVStore × List KVCall) (call : KVCall) :
    BRReplicatedKVStore × List KVCall :=
  match call.run kv s.1 with
  | .ok w => (w.1, s.2 ++ [call])
  | .error _ => s

variable (kv) in
/-- A sequence of calls on a store. -/
def runCalls (store : BRReplicatedKVStore) (calls : List KVCall) :
    BRReplicatedKVStore × List KVCall :=
  calls.foldl (runCall kv) (store, [])

/-- The value of the last accepted `_set` of a key. -/
def lastValue (accepted : List KVCall) (text : String) : Option (List UInt8) :=
  (accepted.filterMap (KVCall.value? text)).getLast?

/-- The deleted flag of the last accepted `_set` or `_del` of a key. -/
def lastDeleted (accepted : List KVCall) (text : String) : Option Bool :=
  (accepted.filterMap (KVCall.deleted? text)).getLast?

theorem lastValue_concat
    (accepted : List KVCall) (call : KVCall) (text : String) :
    lastValue (accepted ++ [call]) text =
      (call.value? text).or (lastValue accepted text) := by
  rw [lastValue, List.filterMap_append, List.getLast?_append]
  cases h : call.value? text <;> simp [h, lastValue]

theorem lastDeleted_concat
    (accepted : List KVCall) (call : KVCall) (text : String) :
    lastDeleted (accepted ++ [call]) text =
      (call.deleted? text).or (lastDeleted accepted text) := by
  rw [lastDeleted, List.filterMap_append, List.getLast?_append]
  cases h : call.deleted? text <;> simp [h, lastDeleted]

theorem KVCall.value?_other
    {call : KVCall}
    (h : call.text ≠ text) :
    call.value? text = none := by
  cases call with
  | set ctx key value localVer =>
      exact if_neg h
  | del ctx key localVer =>
      rfl
  | setRemoteVersion ctx key localVer remoteVer =>
      rfl

theorem KVCall.deleted?_other
    {call : KVCall}
    (h : call.text ≠ text) :
    call.deleted? text = none := by
  cases call with
  | set ctx key value localVer =>
      exact if_neg h
  | del ctx key localVer =>
      exact if_neg h
  | setRemoteVersion ctx key localVer remoteVer =>
      rfl

variable (kv) in
/-- The table holds what the accepted calls wrote: the latest row of each key has
the value and the flag of the last calls, and every value opens. -/
structure Holds (store : BRReplicatedKVStore) (accepted : List KVCall) : Prop where
  numbered : store.Numbered
  latest : ∀ text row, store.latest text = some row →
    ∃ value, store.openValue kv row.value = .ok value ∧
      lastValue accepted text = some value ∧ lastDeleted accepted text = some row.deleted
  opens : ∀ row ∈ store.rows, ∃ value, store.openValue kv row.value = .ok value

/-- What an accepted call adds to the table. -/
theorem run_adds
    {call : KVCall} {w : Written}
    (h : store.Numbered)
    (hrun : call.run kv store = .ok w) :
    ∃ row, store.Adds call.text call.localVer row w := by
  cases call with
  | set ctx key value localVer =>
      exact ⟨_, _set_ok h hrun⟩
  | del ctx key localVer =>
      obtain ⟨last, -, hadds⟩ := _del_ok h hrun
      exact ⟨_, hadds⟩
  | setRemoteVersion ctx key localVer remoteVer =>
      obtain ⟨last, -, hadds⟩ := setRemoteVersion_ok h hrun
      exact ⟨_, hadds⟩

theorem Adds.numbered
    {localVer : ℕ} {row : KVRow} {w : Written}
    (hadds : store.Adds text localVer row w)
    (h : store.Numbered) :
    w.1.Numbered := by
  rw [hadds.written]
  refine h.push ?_ hadds.version_lt
  rw [hadds.version, hadds.key, hadds.current]

/-- Decryption undoes encryption. -/
def Deciphers (kv : KVPlatform) : Prop :=
  ∀ nonce value, kv.decrypt (kv.encrypt nonce value) = some value

theorem openValue_sealValue
    (hcipher : Deciphers kv)
    (nonce value : List UInt8) :
    store.openValue kv (store.sealValue kv nonce value) = .ok value := by
  rw [openValue, sealValue]
  split
  · rw [hcipher]
  · rfl

theorem Holds.push
    {accepted : List KVCall} {call : KVCall} {row : KVRow} {value : List UInt8}
    (h : store.Holds kv accepted)
    (hnumbered : (store.push row).Numbered)
    (hkey : row.key = call.text)
    (hopen : store.openValue kv row.value = .ok value)
    (hvalue : (call.value? call.text).or (lastValue accepted call.text) = some value)
    (hdeleted : (call.deleted? call.text).or (lastDeleted accepted call.text) =
      some row.deleted) :
    (store.push row).Holds kv (accepted ++ [call]) where
  numbered := hnumbered
  latest := by
    intro text r hr
    rw [lastValue_concat, lastDeleted_concat]
    by_cases htext : row.key = text
    · subst htext
      rw [latest_push_self] at hr
      cases hr
      rw [hkey]
      exact ⟨value, hopen, hvalue, hdeleted⟩
    · rw [hkey] at htext
      rw [BRReplicatedKVStore.latest, rowsOf_push_other (hkey ▸ htext)] at hr
      rw [KVCall.value?_other htext, KVCall.deleted?_other htext]
      exact h.latest text r hr
  opens := by
    intro r hr
    rcases List.mem_append.mp hr with hr | hr
    · exact h.opens r hr
    · rw [List.mem_singleton.mp hr]
      exact ⟨value, hopen⟩

/-- An accepted call keeps the account. -/
theorem Holds.run
    {accepted : List KVCall} {call : KVCall} {w : Written}
    (hcipher : Deciphers kv)
    (h : store.Holds kv accepted)
    (hrun : call.run kv store = .ok w) :
    w.1.Holds kv (accepted ++ [call]) := by
  cases call with
  | set ctx key value localVer =>
      have hadds := _set_ok h.numbered hrun
      have hnumbered := hadds.numbered h.numbered
      rw [hadds.written] at hnumbered ⊢
      exact h.push hnumbered rfl (openValue_sealValue hcipher _ _)
        (by simp [KVCall.value?, KVCall.text]) (by simp [KVCall.deleted?, KVCall.text])
  | del ctx key localVer =>
      obtain ⟨last, hlast, hadds⟩ := _del_ok h.numbered hrun
      have hnumbered := hadds.numbered h.numbered
      rw [hadds.written] at hnumbered ⊢
      obtain ⟨value, hopen, hvalue, -⟩ := h.latest _ _ hlast
      exact h.push hnumbered hadds.key hopen hvalue (by simp [KVCall.deleted?, KVCall.text])
  | setRemoteVersion ctx key localVer remoteVer =>
      obtain ⟨last, hlast, hadds⟩ := setRemoteVersion_ok h.numbered hrun
      have hnumbered := hadds.numbered h.numbered
      rw [hadds.written] at hnumbered ⊢
      obtain ⟨value, hopen, hvalue, hdeleted⟩ := h.latest _ _ hlast
      exact h.push hnumbered hadds.key hopen hvalue hdeleted

theorem holds_of_empty
    (hempty : store.rows = []) :
    store.Holds kv [] where
  numbered := by
    refine ⟨?_, ?_⟩
    · rw [hempty]
      exact VersionedTable.numbered_nil
    · rw [hempty]
      exact List.forall_mem_nil _
  latest := by
    intro text row hrow
    rw [BRReplicatedKVStore.latest, rowsOf, hempty] at hrow
    cases hrow
  opens := by
    rw [hempty]
    exact List.forall_mem_nil _

theorem runCalls_concat
    (calls : List KVCall) (call : KVCall) :
    runCalls kv store (calls ++ [call]) = runCall kv (runCalls kv store calls) call :=
  List.foldl_concat _ _ _ _

/-- The account holds after every sequence of calls. -/
theorem holds_runCalls
    (hcipher : Deciphers kv)
    (hempty : store.rows = [])
    (calls : List KVCall) :
    (runCalls kv store calls).1.Holds kv (runCalls kv store calls).2 := by
  induction calls using List.reverseRecOn with
  | nil =>
      exact holds_of_empty hempty
  | append_singleton calls call ih =>
      rw [runCalls_concat, runCall]
      split
      · rename_i w hw
        exact ih.run hcipher hw
      · exact ih

/-! ## The versioned map -/

/-- A call against another version than the current one fails, and throws if it
could read the table. -/
theorem run_of_stale
    {call : KVCall}
    (h : store.Numbered)
    (hstale : call.localVer ≠ store.count call.text) :
    ∃ fault, call.run kv store = .error fault ∧
      (call.ctx.versionStep = none → ∃ e, fault = .thrown e) := by
  cases hrun : call.run kv store with
  | ok w =>
      obtain ⟨row, hadds⟩ := run_adds h hrun
      exact absurd hadds.current hstale
  | error fault =>
      refine ⟨fault, rfl, ?_⟩
      intro hstep
      have hcheck : ∀ ctx key localVer (fn : ℕ → Except KVFault Written),
          ctx.versionStep = none → localVer ≠ store.count (utf8String key) →
          txn ctx (store.checkVersion ctx key localVer >>= fn) = .error fault →
          ∃ e, fault = .thrown e := by
        intro ctx key localVer fn hstep hne herror
        rw [checkVersion_conflict h hstep hne, txn] at herror
        rcases checkErr_cases ctx.code SQLITE_NULL with hcode | hcode
        · rw [hcode] at herror
          cases herror
          exact ⟨_, rfl⟩
        · rw [hcode] at herror
          cases herror
          exact ⟨_, rfl⟩
      cases call with
      | set ctx key value localVer =>
          exact hcheck ctx key localVer _ hstep hstale hrun
      | del ctx key localVer =>
          rw [KVCall.run, _del] at hrun
          split at hrun
          · cases hrun
            exact ⟨_, rfl⟩
          · exact hcheck ctx key localVer _ hstep hstale hrun
      | setRemoteVersion ctx key localVer remoteVer =>
          rw [KVCall.run, setRemoteVersion, checkKey] at hrun
          split at hrun
          · cases hrun
            exact ⟨_, rfl⟩
          · rw [Machine.ok_bind] at hrun
            split at hrun
            · cases hrun
              exact ⟨_, rfl⟩
            · exact hcheck ctx key localVer _ hstep hstale hrun

variable (kv) in
/-- What a store with its accepted calls shows to its users.  Keys are told apart
by the text that is bound for them, and `get` and `setRemoteVersion` only take the
keys that `checkKey` lets pass. -/
structure IsVersionedMap (store : BRReplicatedKVStore) (accepted : List KVCall) : Prop where
  versions : ∀ text,
    (store.rowsOf text).map KVRow.version = List.range' 1 (store.count text)
  stale : ∀ call : KVCall, call.localVer ≠ store.count call.text →
    runCall kv (store, accepted) call = (store, accepted) ∧
    ∃ fault, call.run kv store = .error fault ∧
      (call.ctx.versionStep = none → ∃ e, fault = .thrown e)
  failed : ∀ (call : KVCall) (fault : KVFault), call.run kv store = .error fault →
    runCall kv (store, accepted) call = (store, accepted)
  added : ∀ (call : KVCall) (w : Written), call.run kv store = .ok w →
    w.2.1 = store.count call.text + 1 ∧
    (∃ row, w.1.rowsOf call.text = store.rowsOf call.text ++ [row] ∧
      row.version = store.count call.text + 1) ∧
    ∀ text ≠ call.text, w.1.rowsOf text = store.rowsOf text
  current : ∀ ctx key, Succeeds ctx → kv.keyMatches key = 1 → 0 < store.count (utf8String key) →
    ∃ time deleted value,
      store.get kv ctx key 0 = .ok (store.count (utf8String key), time, deleted, value) ∧
      lastValue accepted (utf8String key) = some value ∧
      lastDeleted accepted (utf8String key) = some deleted
  missing : ∀ ctx key, Succeeds ctx → kv.keyMatches key = 1 → store.count (utf8String key) = 0 →
    store.get kv ctx key 0 = .error (.thrown .notFound)
  version : ∀ ctx key v, Succeeds ctx → kv.keyMatches key = 1 → 1 ≤ v →
    v ≤ store.count (utf8String key) →
    ∃ row ∈ store.rowsOf (utf8String key), row.version = v ∧ ∃ value,
      store.openValue kv row.value = .ok value ∧
      store.get kv ctx key v = .ok (v, row.time, row.deleted, value)
  beyond : ∀ ctx key v, Succeeds ctx → kv.keyMatches key = 1 →
    store.count (utf8String key) < v → v < 2 ^ 63 →
    store.get kv ctx key v = .error (.thrown .notFound)
  keys : ∀ ctx, Succeeds ctx → ∃ entries, store.localKeys ctx = .ok entries ∧
    (entries.map LocalKey.key).Nodup ∧
    ∀ entry, entry ∈ entries ↔ ∃ row, store.latest entry.key = some row ∧
      entry = { key := row.key, localVer := store.count entry.key, localTime := row.time,
                remoteVer := row.remoteVersion, deleted := row.deleted }
  invalid : ∀ ctx key v remoteVer, kv.keyMatches key ≠ 1 →
    store.get kv ctx key v = .error (.thrown .invalidKey) ∧
    store.setRemoteVersion kv ctx key v remoteVer = .error (.thrown .invalidKey)

/-- An accepted call adds the next version of its key and nothing else. -/
theorem Adds.effect
    {localVer : ℕ} {row : KVRow} {w : Written}
    (hadds : store.Adds text localVer row w) :
    w.2.1 = store.count text + 1 ∧
      (∃ row, w.1.rowsOf text = store.rowsOf text ++ [row] ∧
        row.version = store.count text + 1) ∧
      ∀ text' ≠ text, w.1.rowsOf text' = store.rowsOf text' := by
  have hkey := hadds.key
  rw [hadds.written, ← hadds.current]
  refine ⟨rfl, ⟨row, ?_, hadds.version⟩, ?_⟩
  · rw [← hkey]
    exact rowsOf_push_self row
  · intro text' htext
    exact rowsOf_push_other (fun heq => htext (heq.symm.trans hkey))

theorem Holds.get_current
    {accepted : List KVCall}
    (h : store.Holds kv accepted)
    (hctx : Succeeds ctx)
    (hkey : kv.keyMatches key = 1)
    (hpos : 0 < store.count (utf8String key)) :
    ∃ time deleted value,
      store.get kv ctx key 0 = .ok (store.count (utf8String key), time, deleted, value) ∧
      lastValue accepted (utf8String key) = some value ∧
      lastDeleted accepted (utf8String key) = some deleted := by
  obtain ⟨row, hrow⟩ := latest_isSome hpos
  obtain ⟨value, hopen, hvalue, hdeleted⟩ := h.latest _ row hrow
  obtain ⟨i, hi⟩ : ∃ i, store.count (utf8String key) = i + 1 :=
    ⟨store.count (utf8String key) - 1, by omega⟩
  have hget := (getElem?_rowsOf_latest hi).trans hrow
  have hversion := getVersion_zero h.numbered hctx key
  rw [hi] at hversion ⊢
  exact ⟨_, _, _, get_of_version h.numbered hctx hkey hversion hget hopen, hvalue, hdeleted⟩

theorem Holds.get_version
    {accepted : List KVCall} {v : ℕ}
    (h : store.Holds kv accepted)
    (hctx : Succeeds ctx)
    (hkey : kv.keyMatches key = 1)
    (hpos : 1 ≤ v)
    (hle : v ≤ store.count (utf8String key)) :
    ∃ row ∈ store.rowsOf (utf8String key), row.version = v ∧ ∃ value,
      store.openValue kv row.value = .ok value ∧
      store.get kv ctx key v = .ok (v, row.time, row.deleted, value) := by
  have hn := h.numbered
  obtain ⟨i, rfl⟩ : ∃ i, v = i + 1 := ⟨v - 1, by omega⟩
  have hrow := List.getElem?_eq_getElem (l := store.rowsOf (utf8String key)) hle
  have hmem := List.mem_of_getElem? hrow
  have hmem' := (VersionedTable.mem_rowsOf.mp hmem).1
  obtain ⟨value, hopen⟩ := h.opens _ hmem'
  have hv := hn.versions.version_getElem hrow
  have hlt := hn.version_lt _ hmem'
  rw [hv] at hlt
  have hversion : store.getVersion ctx key (i + 1) = _ := getVersion_succ hn hctx hlt
  rw [if_pos (Nat.lt_of_succ_le hle)] at hversion
  exact ⟨_, hmem, hv, value, hopen, get_of_version hn hctx hkey hversion hrow hopen⟩

theorem get_beyond
    {v : ℕ}
    (h : store.Numbered)
    (hctx : Succeeds ctx)
    (hkey : kv.keyMatches key = 1)
    (hlt : store.count (utf8String key) < v)
    (hbound : v < 2 ^ 63) :
    store.get kv ctx key v = .error (.thrown .notFound) := by
  obtain ⟨i, rfl⟩ : ∃ i, v = i + 1 := ⟨v - 1, by omega⟩
  have hversion : store.getVersion ctx key (i + 1) = _ := getVersion_succ h hctx hbound
  rw [if_neg (by omega)] at hversion
  exact get_notFound hctx hkey hversion

/-- **Versioned map**: after every sequence of writes on an empty table, the store
is a versioned map with optimistic locking. -/
theorem isVersionedMap_runCalls
    (hcipher : Deciphers kv)
    (hempty : store.rows = [])
    (calls : List KVCall) :
    (runCalls kv store calls).1.IsVersionedMap kv (runCalls kv store calls).2 := by
  have h := holds_runCalls hcipher hempty calls
  generalize (runCalls kv store calls).1 = s at h
  generalize (runCalls kv store calls).2 = accepted at h
  have hn := h.numbered
  have hfailed : ∀ (call : KVCall) (fault : KVFault), call.run kv s = .error fault →
      runCall kv (s, accepted) call = (s, accepted) := by
    intro call fault hrun
    rw [runCall, hrun]
  exact
    { versions := hn.versions
      stale := by
        intro call hstale
        obtain ⟨fault, hrun, hthrown⟩ : ∃ fault, call.run kv s = .error fault ∧ _ :=
          run_of_stale hn hstale
        exact ⟨hfailed call fault hrun, fault, hrun, hthrown⟩
      failed := hfailed
      added := by
        intro call w hrun
        obtain ⟨row, hadds⟩ := run_adds hn hrun
        exact hadds.effect
      current := fun ctx key hctx hkey => h.get_current hctx hkey
      missing := by
        intro ctx key hctx hkey hzero
        have hversion := getVersion_zero hn hctx key
        rw [hzero] at hversion
        exact get_notFound hctx hkey hversion
      version := fun ctx key v hctx hkey => h.get_version hctx hkey
      beyond := fun ctx key v hctx hkey => get_beyond hn hctx hkey
      keys := fun ctx hctx => mem_localKeys hn hctx
      invalid := by
        intro ctx key v remoteVer hkey
        rw [get, setRemoteVersion, checkKey_of_mismatch hkey]
        exact ⟨rfl, rfl⟩ }

/-! ## A sample store -/

/-- The rule of `keyRegex` for ASCII keys, and a cipher that writes a tag byte in
front of the plaintext. -/
def samplePlatform : KVPlatform where
  keyMatches key :=
    match key.toList with
    | [] => 0
    | c :: cs =>
        if c ≠ '_' ∧ cs ≠ [] ∧ cs.length ≤ 255 ∧
            cs.all (fun d => d.isAlphanum || d = '_' || d = '-') = true then
          1
        else
          0
  encrypt _ value := 0 :: value
  decrypt
    | [] => none
    | _ :: value => some value

theorem deciphers_sample : Deciphers samplePlatform := by
  intro nonce value
  rfl

/-- A key is set, exchanged with the server and deleted; a stale write is refused. -/
def sampleCalls : List KVCall :=
  [.set { now := 10 } "ab" [7] 0, .setRemoteVersion { now := 20 } "ab" 1 5,
    .set { now := 30 } "ab" [8] 1, .del { now := 40 } "ab" 2]

theorem isVersionedMap_sample :
    (runCalls samplePlatform {} sampleCalls).1.count "ab" = 3 ∧
      (runCalls samplePlatform {} sampleCalls).1.IsVersionedMap samplePlatform
        (runCalls samplePlatform {} sampleCalls).2 :=
  ⟨by decide, isVersionedMap_runCalls deciphers_sample rfl sampleCalls⟩

/-- `_set` takes a key that `checkKey` refuses: the row is in the table and `get`
does not return it. -/
theorem not_get_invalidKey :
    (runCalls samplePlatform {} [.set {} "_a" [7] 0]).1.count "_a" = 1 ∧
      (runCalls samplePlatform {} [.set {} "_a" [7] 0]).1.get samplePlatform {} "_a" 0 =
        .error (.thrown .invalidKey) := by
  decide

end BRReplicatedKVStore

end BreadwalletCore
