import BreadwalletCore.ReplicatedKVStore.Objects
import BreadwalletCore.Data.KeyedList

/-!
# Attempts to synchronise

`syncKey` and `syncAllKeys` as a machine: calls, answers of the server and the
transactions of `_syncKey` come in any order.  An attempt that has set
`syncRunning` is in the list of attempts until it ends; what it tells its caller
goes to the output log.
-/

namespace BreadwalletCore

/-- Where one `_syncKey` stands. -/
inductive Exchange where
  | running (point : SyncPoint)
  | waiting (wait : SyncWait)
deriving DecidableEq

/-- An attempt that has set `syncRunning`. -/
inductive Attempt where
  /-- `syncKey` waits for the answer to `ver` -/
  | version (key : String)
  /-- `syncKey` is in `_syncKey`; `direct` while the caller of `syncKey` waits -/
  | key (key : String) (direct : Bool) (exchange : Exchange)
  /-- `syncAllKeys` waits for the answer to `keys` -/
  | keys
  /-- `syncAllKeys` with the keys to do, the open exchanges and the failures -/
  | all (todo : List (String × RemoteReport)) (exchanges : List (String × Exchange))
      (failures : ℕ)
deriving DecidableEq

structure SyncState where
  store : BRReplicatedKVStore
  attempts : List (ℕ × Attempt) := []
  nextId : ℕ := 0

inductive SyncEvent where
  /-- a local write by other code -/
  | write (call : BRReplicatedKVStore.KVCall)
  /-- a call of `syncKey`, with what the caller knows about the remote key -/
  | syncKey (key : String) (known : Option RemoteReport)
  /-- the answer to `ver` -/
  | version (id : ℕ) (report : RemoteReport)
  /-- the next transaction of `_syncKey` under `syncKey` -/
  | transaction (id : ℕ) (ctx : TxnContext)
  /-- the answer to a request of `_syncKey` under `syncKey` -/
  | answer (id : ℕ) (answer : RemoteAnswer)
  | syncAllKeys
  /-- the answer to `keys`, `none` for an error -/
  | keys (id : ℕ) (ctx : TxnContext) (keyData : Option (List (String × RemoteReport)))
  /-- `syncAllKeys` starts `_syncKey` for its next key -/
  | startNext (id : ℕ)
  | transactionOf (id i : ℕ) (ctx : TxnContext)
  | answerOf (id i : ℕ) (answer : RemoteAnswer)
  /-- the last exchange of `syncAllKeys` has left the group -/
  | finish (id : ℕ)

inductive SyncOutput where
  | started (id : ℕ)
  /-- the completion handler of an attempt is called -/
  | completed (id : ℕ) (e : Option BRReplicatedKVStoreError)
  /-- the call of `syncKey` that made the attempt throws -/
  | threw (id : ℕ) (e : BRReplicatedKVStoreError)
  /-- a call that made no attempt throws or completes with an error -/
  | refused (e : BRReplicatedKVStoreError)
deriving DecidableEq

namespace SyncState

open BRReplicatedKVStore

variable (kv : KVPlatform)

abbrev getAttempt (s : SyncState) (id : ℕ) : Option Attempt :=
  (KeyedList.get Prod.fst s.attempts id).map Prod.snd

/-- The attempt goes on as `a`. -/
def goOn (s : SyncState) (id : ℕ) (a : Attempt) : SyncState :=
  { s with
    attempts := KeyedList.modify Prod.fst (fun i => decide (i = id)) (fun p => (p.1, a))
      s.attempts }

/-- The attempt is over. -/
def leave (s : SyncState) (id : ℕ) : SyncState :=
  { s with attempts := KeyedList.remove Prod.fst s.attempts id }

/-- The attempt completes: its handler is called and `syncRunning` is cleared. -/
def completed (s : SyncState) (id : ℕ) (e : Option BRReplicatedKVStoreError) :
    SyncState × List SyncOutput :=
  ({ s.leave id with store := { s.store with syncRunning := false } }, [.completed id e])

/-- A new attempt on the store whose `syncRunning` it has set. -/
def begun (s : SyncState) (store : BRReplicatedKVStore) (a : Attempt) :
    SyncState × List SyncOutput :=
  ({ store := store, attempts := s.attempts ++ [(s.nextId, a)], nextId := s.nextId + 1 },
    [.started s.nextId])

/-- What `syncKey` does with the end of a piece of `_syncKey`.  An error that
`_syncKey` throws goes to the caller of `syncKey` if it still waits, and is
dropped by the callback of `ver` otherwise. -/
def syncKeyResult (s : SyncState) (id : ℕ) (key : String) (direct : Bool) :
    SyncResult → SyncState × List SyncOutput
  | .goto point => (s.goOn id (.key key direct (.running point)), [])
  | .ask _ wait => (s.goOn id (.key key false (.waiting wait)), [])
  | .complete e => s.completed id e
  | .throws e => (s.leave id, if direct then [.threw id e] else [])

/-- What `syncAllKeys` does with it. -/
def syncAllResult (s : SyncState) (id i : ℕ) (todo : List (String × RemoteReport))
    (exchanges : List (String × Exchange)) (failures : ℕ) (key : String) :
    SyncResult → SyncState × List SyncOutput
  | .goto point => (s.goOn id (.all todo (exchanges.set i (key, .running point)) failures), [])
  | .ask _ wait => (s.goOn id (.all todo (exchanges.set i (key, .waiting wait)) failures), [])
  | .complete none => (s.goOn id (.all todo (exchanges.eraseIdx i) failures), [])
  | .complete (some _) => (s.goOn id (.all todo (exchanges.eraseIdx i) (failures + 1)), [])
  | .throws _ => (s.goOn id (.all todo (exchanges.eraseIdx i) (failures + 1)), [])

/-- The keys of `syncAllKeys`: those of the server, then the local ones that the
server does not list. -/
def allKeyData (keyData : List (String × RemoteReport)) (local' : List LocalKey) :
    List (String × RemoteReport) :=
  keyData ++ (local'.filter (fun k => k.key ∉ keyData.map Prod.fst)).map
    (fun k => (k.key, { version := 0, time := 0, err := none }))

/-- A call of `syncKey`. -/
def callSyncKey (s : SyncState) (key : String) (known : Option RemoteReport) :
    Except KVFault (SyncState × List SyncOutput) :=
  match s.store.beginSyncKey kv key with
  | .error (.thrown e) => .ok (s, [.refused e])
  | .error .trapped => .error .trapped
  | .ok store =>
      match known with
      | some report => .ok (s.begun store (.key key true (.running (.start report))))
      | none => .ok (s.begun store (.version key))

/-- A call of `syncAllKeys`. -/
def callSyncAllKeys (s : SyncState) : SyncState × List SyncOutput :=
  if s.store.syncRunning then
    (s, [.refused .alreadyReplicating])
  else
    s.begun { s.store with syncRunning := true } .keys

/-- The callback of `keys`. -/
def answerKeys (s : SyncState) (id : ℕ) (ctx : TxnContext)
    (keyData : Option (List (String × RemoteReport))) :
    Except KVFault (SyncState × List SyncOutput) :=
  match s.getAttempt id with
  | some .keys =>
      match keyData with
      | none => .ok (s.completed id (some .replicationError))
      | some keyData =>
          match s.store.localKeys ctx with
          | .ok local' => .ok (s.goOn id (.all (allKeyData keyData local') [] 0), [])
          | .error (.thrown _) => .ok (s.completed id (some .replicationError))
          | .error .trapped => .error .trapped
  | _ => .ok (s, [])

/-- One event.  An event that does not fit the attempt it names cannot occur. -/
def step (s : SyncState) : SyncEvent → Except KVFault (SyncState × List SyncOutput)
  | .write call =>
      match call.run kv s.store with
      | .ok w => .ok ({ s with store := w.1 }, [])
      | .error (.thrown _) => .ok (s, [])
      | .error .trapped => .error .trapped
  | .syncKey key known => callSyncKey kv s key known
  | .version id report =>
      match s.getAttempt id with
      | some (.version key) => .ok (s.goOn id (.key key false (.running (.start report))), [])
      | _ => .ok (s, [])
  | .transaction id ctx =>
      match s.getAttempt id with
      | some (.key key direct (.running point)) =>
          match syncStep kv s.store ctx key point with
          | .ok (store, result) =>
              .ok (syncKeyResult { s with store := store } id key direct result)
          | .error fault => .error fault
      | _ => .ok (s, [])
  | .answer id answer =>
      match s.getAttempt id with
      | some (.key key direct (.waiting wait)) =>
          .ok (s.syncKeyResult id key direct (syncAnswer kv s.store answer wait))
      | _ => .ok (s, [])
  | .syncAllKeys => .ok s.callSyncAllKeys
  | .keys id ctx keyData => s.answerKeys id ctx keyData
  | .startNext id =>
      match s.getAttempt id with
      | some (.all (k :: todo) exchanges failures) =>
          if exchanges.length < 10 then
            .ok (s.goOn id (.all todo (exchanges ++ [(k.1, .running (.start k.2))]) failures), [])
          else
            .ok (s, [])
      | _ => .ok (s, [])
  | .transactionOf id i ctx =>
      match s.getAttempt id with
      | some (.all todo exchanges failures) =>
          match exchanges[i]? with
          | some (key, .running point) =>
              match syncStep kv s.store ctx key point with
              | .ok (store, result) =>
                  .ok (syncAllResult { s with store := store } id i todo exchanges failures key
                    result)
              | .error fault => .error fault
          | _ => .ok (s, [])
      | _ => .ok (s, [])
  | .answerOf id i answer =>
      match s.getAttempt id with
      | some (.all todo exchanges failures) =>
          match exchanges[i]? with
          | some (key, .waiting wait) =>
              .ok (s.syncAllResult id i todo exchanges failures key
                (syncAnswer kv s.store answer wait))
          | _ => .ok (s, [])
      | _ => .ok (s, [])
  | .finish id =>
      match s.getAttempt id with
      | some (.all [] [] failures) =>
          .ok (s.completed id (if failures > 0 then some .replicationError else none))
      | _ => .ok (s, [])

/-! ## What an event does to the attempts -/

section Effects

variable {kv} {s s' : SyncState} {id : ℕ} {os : List SyncOutput}

/-- The attempts that have not ended. -/
abbrev ids (s : SyncState) : List ℕ :=
  s.attempts.map Prod.fst

/-- The output ends the attempt. -/
def isEnd (id : ℕ) : SyncOutput → Bool
  | .completed id' _ => id' == id
  | .threw id' _ => id' == id
  | _ => false

/-- How often an attempt was ended. -/
def ends (log : List SyncOutput) (id : ℕ) : ℕ :=
  (log.filter (isEnd id)).length

@[simp] theorem ids_goOn
    (a : Attempt) :
    (s.goOn id a).ids = s.ids := by
  have hkey : ∀ p : ℕ × Attempt, (Prod.fst : ℕ × Attempt → ℕ) (p.1, a) = Prod.fst p :=
    fun _ => rfl
  unfold ids goOn
  dsimp only
  exact KeyedList.map_key_modify hkey _ _

theorem ids_leave : (s.leave id).ids = s.ids.filter (· ≠ id) := by
  simp [ids, leave, KeyedList.remove, List.filter_map, Function.comp_def]

theorem mem_ids_of_getAttempt
    {a : Attempt}
    (h : s.getAttempt id = some a) :
    id ∈ s.ids := by
  rw [getAttempt, Option.map_eq_some_iff] at h
  obtain ⟨p, hp, -⟩ := h
  have hkey := @KeyedList.key_of_get _ _ _ (Prod.fst : ℕ × Attempt → ℕ) _ _ _ hp
  exact hkey ▸ List.mem_map_of_mem (KeyedList.mem_of_get hp)

/-- What an event can do: nothing to the attempts, begin one, or end one. -/
inductive Effect (s s' : SyncState) (os : List SyncOutput) : Prop where
  | keeps
      (running : s'.store.syncRunning = s.store.syncRunning)
      (ids : s'.ids = s.ids)
      (nextId : s'.nextId = s.nextId)
      (quiet : ∀ o ∈ os, ∃ e, o = .refused e)
  | begins
      (idle : s.store.syncRunning = false)
      (running : s'.store.syncRunning = true)
      (ids : s'.ids = s.ids ++ [s.nextId])
      (nextId : s'.nextId = s.nextId + 1)
      (outputs : os = [.started s.nextId])
  | ends (id : ℕ) (e : Option BRReplicatedKVStoreError)
      (mem : id ∈ s.ids)
      (running : s'.store.syncRunning = false)
      (ids : s'.ids = s.ids.filter (· ≠ id))
      (nextId : s'.nextId = s.nextId)
      (outputs : os = [.completed id e])

theorem effect_refl (s : SyncState) : Effect s s [] :=
  .keeps rfl rfl rfl (List.forall_mem_nil _)

theorem effect_goOn
    {store : BRReplicatedKVStore} {a : Attempt}
    (h : store.syncRunning = s.store.syncRunning) :
    Effect s (goOn { s with store := store } id a) [] :=
  .keeps h (ids_goOn a) rfl (List.forall_mem_nil _)

theorem effect_completed
    {store : BRReplicatedKVStore} {e : Option BRReplicatedKVStoreError}
    (hmem : id ∈ s.ids) :
    Effect s (completed { s with store := store } id e).1
      (completed { s with store := store } id e).2 :=
  .ends id e hmem rfl ids_leave rfl rfl

theorem effect_begun
    {a : Attempt}
    (hidle : s.store.syncRunning = false) :
    Effect s (s.begun { s.store with syncRunning := true } a).1
      (s.begun { s.store with syncRunning := true } a).2 :=
  .begins hidle rfl (by simp [ids, begun]) rfl rfl

/-- The end of a piece of `_syncKey` under `syncKey`, unless it throws. -/
theorem effect_syncKeyResult
    {store : BRReplicatedKVStore} {key : String} {direct : Bool} {result : SyncResult}
    (h : store.syncRunning = s.store.syncRunning)
    (hmem : id ∈ s.ids)
    (hresult : ∀ e, result ≠ .throws e)
    (hstep : syncKeyResult { s with store := store } id key direct result = (s', os)) :
    Effect s s' os := by
  cases result with
  | goto point =>
      cases hstep
      exact effect_goOn h
  | ask call wait =>
      cases hstep
      exact effect_goOn h
  | complete e =>
      cases hstep
      exact effect_completed hmem
  | throws e =>
      exact absurd rfl (hresult e)

/-- Under `syncAllKeys` every end is counted, and the attempt goes on. -/
theorem effect_syncAllResult
    {store : BRReplicatedKVStore} {i : ℕ} {todo : List (String × RemoteReport)}
    {exchanges : List (String × Exchange)} {failures : ℕ} {key : String} {result : SyncResult}
    (h : store.syncRunning = s.store.syncRunning)
    (hstep : syncAllResult { s with store := store } id i todo exchanges failures key result =
      (s', os)) :
    Effect s s' os := by
  rcases result with point | ⟨call, wait⟩ | (- | e) | e
  all_goals
    cases hstep
    exact effect_goOn h

theorem syncAnswer_ne_throws
    (store : BRReplicatedKVStore) (answer : RemoteAnswer) (wait : SyncWait)
    (e : BRReplicatedKVStoreError) :
    syncAnswer kv store answer wait ≠ .throws e := by
  rcases syncAnswer_goes_on kv store answer wait with ⟨point, h⟩ | ⟨e', h⟩
  · rw [h]
    exact SyncResult.noConfusion
  · rw [h]
    exact SyncResult.noConfusion

variable (kv) in
/-- The two reads of `_syncKey` do not throw: that of the recorded remote version,
and that of the local row, where a missing key is no error. -/
def ReadsAt (store : BRReplicatedKVStore) (ctx : TxnContext) (key : String) :
    SyncPoint → Prop
  | .start _ => ∀ e, store.remoteVersion kv ctx key ≠ .error (.thrown e)
  | .compare _ _ => ∀ e, store.get kv ctx key 0 = .error (.thrown e) → e = .notFound
  | _ => True

variable (kv) in
/-- The condition on an event: a transaction of `_syncKey` under `syncKey` can read
what it has to read. -/
def Reads (s : SyncState) : SyncEvent → Prop
  | .transaction id ctx => ∀ key direct point,
      s.getAttempt id = some (.key key direct (.running point)) →
        ReadsAt kv s.store ctx key point
  | _ => True

/-- A kernel that can read and finds `syncRunning` set does not throw. -/
theorem syncStep_ne_throws
    {store : BRReplicatedKVStore} {ctx : TxnContext} {key : String} {point : SyncPoint}
    {r : BRReplicatedKVStore × SyncResult}
    (hrunning : store.syncRunning = true)
    (hreads : ReadsAt kv store ctx key point)
    (hok : syncStep kv store ctx key point = .ok r) :
    ∀ e, r.2 ≠ .throws e := by
  have hrecorded : ∀ (ignoresMissing : Bool) (written : Except KVFault Written),
      recorded ignoresMissing store written = .ok r → ∀ e, r.2 ≠ .throws e := by
    intro ignoresMissing written h e
    rcases recorded_ok h with ⟨w, -, rfl⟩ | ⟨e', -, rfl⟩
    · exact SyncResult.noConfusion
    · exact SyncResult.noConfusion
  cases point with
  | start report =>
      rw [syncStep, if_neg (by simp [hrunning])] at hok
      split at hok
      · split at hok
        all_goals
          cases hok
          exact fun e => SyncResult.noConfusion
      · rename_i e h
        exact absurd h (hreads e)
      · cases hok
  | compare report recordedVersion =>
      rw [syncStep] at hok
      split at hok
      · cases hok
        intro e h
        rw [decideSync] at h
        repeat' split at h
        all_goals cases h
      · rename_i e h
        rw [localSide] at h
        split at h
        · cases h
        · cases h
        · rename_i hne hget
          cases h
          exact absurd (congrArg KVFault.thrown (hreads e hget)) hne
      · cases hok
  | record localVer remoteVer =>
      exact hrecorded _ _ hok
  | remove localVer remoteVer =>
      rw [syncStep] at hok
      split at hok
      · cases hok
        exact fun e => SyncResult.noConfusion
      · exact hrecorded _ _ hok
  | recordRemoved localVer remoteVer =>
      exact hrecorded _ _ hok
  | store localVer value remoteVer =>
      rw [syncStep] at hok
      split at hok
      · cases hok
        exact fun e => SyncResult.noConfusion
      · exact hrecorded _ _ hok
  | discard localVer =>
      rw [syncStep] at hok
      split at hok
      · cases hok
        exact fun e => SyncResult.noConfusion
      · cases hok
        exact fun e => SyncResult.noConfusion
      · cases hok

/-- While an attempt is under way, `syncRunning` is set. -/
def Flagged (s : SyncState) : Prop :=
  s.attempts ≠ [] → s.store.syncRunning = true

theorem effect_callSyncKey
    {key : String} {known : Option RemoteReport}
    (hstep : callSyncKey kv s key known = .ok (s', os)) :
    Effect s s' os := by
  rw [callSyncKey] at hstep
  split at hstep
  · cases hstep
    exact .keeps rfl rfl rfl (List.forall_mem_singleton.mpr ⟨_, rfl⟩)
  · cases hstep
  · rename_i store hbegin
    rw [beginSyncKey, Machine.bind_eq_ok] at hbegin
    obtain ⟨-, -, hbegin⟩ := hbegin
    split at hbegin
    · cases hbegin
    · rename_i hidle
      cases hbegin
      have hidle' := eq_false_of_ne_true hidle
      split at hstep
      · cases hstep
        exact effect_begun hidle'
      · cases hstep
        exact effect_begun hidle'

theorem effect_callSyncAllKeys
    (hstep : s.callSyncAllKeys = (s', os)) :
    Effect s s' os := by
  rw [callSyncAllKeys] at hstep
  split at hstep
  · cases hstep
    exact .keeps rfl rfl rfl (List.forall_mem_singleton.mpr ⟨_, rfl⟩)
  · rename_i hidle
    cases hstep
    exact effect_begun (eq_false_of_ne_true hidle)

theorem effect_answerKeys
    {ctx : TxnContext} {keyData : Option (List (String × RemoteReport))}
    (hstep : s.answerKeys id ctx keyData = .ok (s', os)) :
    Effect s s' os := by
  unfold answerKeys at hstep
  split at hstep
  · rename_i hattempt
    have hmem := mem_ids_of_getAttempt hattempt
    split at hstep
    · cases hstep
      exact effect_completed hmem
    · split at hstep
      · cases hstep
        exact effect_goOn rfl
      · cases hstep
        exact effect_completed hmem
      · cases hstep
  · cases hstep
    exact effect_refl s

/-- **Step lemma**: an event whose reads succeed keeps, begins or ends an attempt. -/
theorem step_effect
    {event : SyncEvent}
    (hflag : s.Flagged)
    (hreads : Reads kv s event)
    (hstep : step kv s event = .ok (s', os)) :
    Effect s s' os := by
  cases event with
  | write call =>
      rw [step] at hstep
      split at hstep
      · rename_i w hrun
        cases hstep
        exact .keeps (run_sameFlags hrun).syncRunning rfl rfl (List.forall_mem_nil _)
      · cases hstep
        exact effect_refl s
      · cases hstep
  | syncKey key known => exact effect_callSyncKey hstep
  | version id report =>
      rw [step] at hstep
      split at hstep
      · cases hstep
        exact effect_goOn rfl
      · cases hstep
        exact effect_refl s
  | transaction id ctx =>
      rw [step] at hstep
      split at hstep
      · rename_i key direct point hattempt
        have hmem := mem_ids_of_getAttempt hattempt
        have hrunning := hflag (fun hnil => by simp [ids, hnil] at hmem)
        split at hstep
        · rename_i store result hkernel
          have hresult := syncStep_ne_throws hrunning (hreads key direct point hattempt) hkernel
          exact effect_syncKeyResult (syncStep_sameFlags hkernel).syncRunning hmem hresult
            (Except.ok.inj hstep)
        · cases hstep
      · cases hstep
        exact effect_refl s
  | answer id answer =>
      rw [step] at hstep
      split at hstep
      · rename_i key direct wait hattempt
        exact effect_syncKeyResult rfl (mem_ids_of_getAttempt hattempt)
          (syncAnswer_ne_throws s.store answer wait) (Except.ok.inj hstep)
      · cases hstep
        exact effect_refl s
  | syncAllKeys => exact effect_callSyncAllKeys (Except.ok.inj hstep)
  | keys id ctx keyData => exact effect_answerKeys hstep
  | startNext id =>
      rw [step] at hstep
      split at hstep
      · split at hstep
        · cases hstep
          exact effect_goOn rfl
        · cases hstep
          exact effect_refl s
      · cases hstep
        exact effect_refl s
  | transactionOf id i ctx =>
      rw [step] at hstep
      split at hstep
      · split at hstep
        · split at hstep
          · rename_i store result hkernel
            exact effect_syncAllResult (syncStep_sameFlags hkernel).syncRunning
              (Except.ok.inj hstep)
          · cases hstep
        · cases hstep
          exact effect_refl s
      · cases hstep
        exact effect_refl s
  | answerOf id i answer =>
      rw [step] at hstep
      split at hstep
      · split at hstep
        · exact effect_syncAllResult rfl (Except.ok.inj hstep)
        · cases hstep
          exact effect_refl s
      · cases hstep
        exact effect_refl s
  | finish id =>
      rw [step] at hstep
      split at hstep
      · rename_i hattempt
        cases hstep
        exact effect_completed (mem_ids_of_getAttempt hattempt)
      · cases hstep
        exact effect_refl s

end Effects

/-! ## The account of the attempts -/

section Account

variable {kv} {s s' : SyncState} {log os : List SyncOutput}

/-- `syncRunning` stands for the one attempt under way, and every other attempt has
ended exactly once. -/
structure Accounted (s : SyncState) (log : List SyncOutput) : Prop where
  running : s.store.syncRunning = true ↔ s.attempts ≠ []
  single : s.attempts.length ≤ 1
  lt : ∀ id ∈ s.ids, id < s.nextId
  started : ∀ id, .started id ∈ log ↔ id < s.nextId
  ends : ∀ id, ends log id = if id < s.nextId ∧ id ∉ s.ids then 1 else 0

theorem ends_append
    (log os : List SyncOutput) (id : ℕ) :
    SyncState.ends (log ++ os) id = SyncState.ends log id + SyncState.ends os id := by
  simp [SyncState.ends]

theorem ids_eq_nil : s.ids = [] ↔ s.attempts = [] :=
  List.map_eq_nil_iff

theorem Accounted.flagged
    (h : Accounted s log) :
    s.Flagged :=
  h.running.mpr

theorem length_attempts
    (s : SyncState) :
    s.attempts.length = s.ids.length :=
  (List.length_map _).symm

theorem Accounted.keeps
    (h : Accounted s log)
    (running : s'.store.syncRunning = s.store.syncRunning)
    (ids : s'.ids = s.ids)
    (nextId : s'.nextId = s.nextId)
    (quiet : ∀ o ∈ os, ∃ e, o = .refused e) :
    Accounted s' (log ++ os) := by
  have hends : ∀ id, SyncState.ends os id = 0 := by
    intro id
    rw [SyncState.ends, List.length_eq_zero_iff, List.filter_eq_nil_iff]
    intro o ho
    obtain ⟨e, rfl⟩ := quiet o ho
    exact Bool.false_ne_true
  have hstarted : ∀ id, .started id ∉ os := by
    intro id ho
    obtain ⟨e, he⟩ := quiet _ ho
    cases he
  refine ⟨?_, ?_, ?_, ?_, ?_⟩
  · rw [running, h.running, ne_eq, ne_eq, ← ids_eq_nil, ← ids_eq_nil, ids]
  · rw [length_attempts, ids, ← length_attempts]
    exact h.single
  · rw [ids, nextId]
    exact h.lt
  · intro id
    rw [nextId, List.mem_append, or_iff_left (hstarted id)]
    exact h.started id
  · intro id
    rw [ends_append, hends, Nat.add_zero, nextId, ids]
    exact h.ends id

/-- An attempt begins where none is under way. -/
theorem Accounted.begins
    (h : Accounted s log)
    (idle : s.store.syncRunning = false)
    (running : s'.store.syncRunning = true)
    (ids : s'.ids = s.ids ++ [s.nextId])
    (nextId : s'.nextId = s.nextId + 1) :
    Accounted s' (log ++ [.started s.nextId]) := by
  have hnil : s.attempts = [] := by
    by_contra hne
    rw [h.running.mpr hne] at idle
    cases idle
  have hids : s'.ids = [s.nextId] := by
    rw [ids, ids_eq_nil.mpr hnil, List.nil_append]
  refine ⟨?_, ?_, ?_, ?_, ?_⟩
  · refine iff_of_true running ?_
    rw [ne_eq, ← ids_eq_nil, hids]
    exact List.cons_ne_nil _ _
  · rw [length_attempts, hids]
    exact le_rfl
  · rw [hids, nextId]
    exact List.forall_mem_singleton.mpr (Nat.lt_succ_self _)
  · intro id
    rw [nextId, List.mem_append, h.started, List.mem_singleton, Nat.lt_succ_iff_lt_or_eq]
    simp
  · intro id
    have hzero : SyncState.ends [.started s.nextId] id = 0 := rfl
    rw [ends_append, hzero, Nat.add_zero, h.ends, nextId, hids, ids_eq_nil.mpr hnil]
    simp only [List.not_mem_nil, not_false_iff, and_true, List.mem_singleton]
    by_cases hid : id < s.nextId
    · rw [if_pos hid, if_pos ⟨by omega, by omega⟩]
    · rw [if_neg hid, if_neg (by omega)]

/-- The one attempt under way ends. -/
theorem Accounted.completed
    {id : ℕ} {e : Option BRReplicatedKVStoreError}
    (h : Accounted s log)
    (mem : id ∈ s.ids)
    (running : s'.store.syncRunning = false)
    (ids : s'.ids = s.ids.filter (· ≠ id))
    (nextId : s'.nextId = s.nextId) :
    Accounted s' (log ++ [.completed id e]) := by
  have hids : s.ids = [id] := by
    have hsingle := h.single
    rw [length_attempts] at hsingle
    rcases hlist : s.ids with - | ⟨id', - | ⟨id'', rest⟩⟩
    · rw [hlist] at mem
      cases mem
    · rw [hlist, List.mem_singleton] at mem
      rw [mem]
    · rw [hlist] at hsingle
      simp at hsingle
  have hnil : s'.ids = [] := by
    rw [ids, hids]
    simp
  refine ⟨?_, ?_, ?_, ?_, ?_⟩
  · refine iff_of_false (by simp [running]) ?_
    rw [not_not, ← ids_eq_nil, hnil]
  · rw [length_attempts, hnil]
    exact Nat.zero_le 1
  · rw [hnil]
    exact List.forall_mem_nil _
  · intro id'
    rw [nextId, List.mem_append, h.started]
    simp
  · intro id'
    have hlt : id < s.nextId := h.lt id (by rw [hids]; exact List.mem_singleton_self id)
    rw [ends_append, h.ends, nextId, hids, hnil]
    simp only [List.mem_singleton, List.not_mem_nil, not_false_iff, and_true]
    by_cases hid : id' = id
    · subst hid
      rw [if_neg (by simp), if_pos hlt]
      simp [SyncState.ends, isEnd]
    · have hzero : SyncState.ends [.completed id e] id' = 0 := by
        simp [SyncState.ends, isEnd, Ne.symm hid]
      rw [hzero, Nat.add_zero]
      by_cases hid' : id' < s.nextId
      · rw [if_pos ⟨hid', hid⟩, if_pos hid']
      · rw [if_neg (fun hc => hid' hc.1), if_neg hid']

/-- An effect keeps the account. -/
theorem Accounted.effect
    (h : Accounted s log)
    (heffect : Effect s s' os) :
    Accounted s' (log ++ os) := by
  cases heffect with
  | keeps running ids nextId quiet =>
      exact h.keeps running ids nextId quiet
  | begins idle running ids nextId outputs =>
      subst outputs
      exact h.begins idle running ids nextId
  | ends id e mem running ids nextId outputs =>
      subst outputs
      exact h.completed mem running ids nextId

theorem accounted_new
    {store : BRReplicatedKVStore}
    (hidle : store.syncRunning = false) :
    Accounted { store := store } [] where
  running := by simp [hidle]
  single := Nat.zero_le 1
  lt := List.forall_mem_nil _
  started := by simp
  ends := by simp [SyncState.ends]

/-- **No wedge**: in a run whose kernels can read, `syncRunning` is set exactly
while an attempt is under way, every attempt that is not has ended exactly once,
and without one a call of `syncKey` is not refused. -/
theorem run_never_wedges
    {store : BRReplicatedKVStore} {events : List SyncEvent}
    (hidle : store.syncRunning = false)
    (hguard : Machine.Guarded (step kv) (Reads kv) { store := store } events)
    (hrun : Machine.run (step kv) { store := store } events = .ok (s, log)) :
    (s.store.syncRunning = true ↔ s.attempts ≠ []) ∧
      (∀ id, .started id ∈ log → ends log id = if id ∈ s.ids then 0 else 1) ∧
      (s.attempts = [] → ∀ key, kv.keyMatches key = 1 →
        ∃ store', s.store.beginSyncKey kv key = .ok store') := by
  have hstep : ∀ s log event s' os, Accounted s log → Reads kv s event →
      step kv s event = .ok (s', os) → Accounted s' (log ++ os) :=
    fun s log event s' os h hreads hs => h.effect (step_effect h.flagged hreads hs)
  have h := Machine.run_invariant hstep (accounted_new hidle) hguard hrun
  rw [List.nil_append] at h
  refine ⟨h.running, ?_, ?_⟩
  · intro id hid
    have hlt := (h.started id).mp hid
    rw [h.ends]
    by_cases hmem : id ∈ s.ids
    · rw [if_neg (fun hc => hc.2 hmem), if_pos hmem]
    · rw [if_pos ⟨hlt, hmem⟩, if_neg hmem]
  · intro hnil key hkey
    rw [beginSyncKey, checkKey_of_match hkey, Machine.ok_bind,
      if_neg (fun hrunning => h.running.mp hrunning hnil)]
    exact ⟨_, rfl⟩

end Account

/-! ## Sample runs -/

/-- The server cannot be reached. -/
def unreachable : RemoteReport where
  version := 0
  time := 0
  err := some .unknown

/-- The attempt on a new key ends with an error. -/
def offlineRun : List SyncEvent :=
  [.syncKey "ab" none, .version 0 unreachable, .transaction 0 {}, .transaction 0 {}]

theorem run_never_wedges_offline :
    ∃ s log, Machine.run (step samplePlatform) { store := {} } offlineRun = .ok (s, log) ∧
      ((s.store.syncRunning = true ↔ s.attempts ≠ []) ∧
        (∀ id, .started id ∈ log → ends log id = if id ∈ s.ids then 0 else 1) ∧
        (s.attempts = [] → ∀ key, samplePlatform.keyMatches key = 1 →
          ∃ store', s.store.beginSyncKey samplePlatform key = .ok store')) := by
  have hguard : Machine.Guarded (step samplePlatform) (Reads samplePlatform) { store := {} }
      offlineRun := by
    refine Machine.guarded_cons trivial rfl ?_
    refine Machine.guarded_cons trivial rfl ?_
    refine Machine.guarded_cons ?_ rfl ?_
    · rintro key direct point hattempt
      cases hattempt
      intro e he
      cases he
    refine Machine.guarded_cons ?_ rfl trivial
    · rintro key direct point hattempt
      cases hattempt
      intro e he
      cases he
      rfl
  exact ⟨_, _, rfl, run_never_wedges rfl hguard rfl⟩

/-- A store whose only value is too short to decrypt. -/
def brokenStore : BRReplicatedKVStore where
  rows := [{ version := 1, key := "ab", value := [], time := 10, deleted := false }]

/-- The kernel throws into the callback of `ver`: the attempt is gone, its handler
was not called, and `syncRunning` stays set. -/
theorem not_never_wedges :
    Machine.run (step samplePlatform) { store := brokenStore }
        [.syncKey "ab" none, .version 0 { version := 3, time := 20, err := none },
          .transaction 0 {}, .transaction 0 {}, .syncKey "ab" none] =
      .ok ({ store := { brokenStore with syncRunning := true }, nextId := 1 },
        [.started 0, .refused .alreadyReplicating]) := by
  rfl

end SyncState

end BreadwalletCore
