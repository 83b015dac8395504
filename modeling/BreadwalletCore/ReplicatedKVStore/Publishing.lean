import BreadwalletCore.ReplicatedKVStore.Replication

/-!
# What a replica writes to the server

Who wins an exchange is decided by comparing the time of the latest local row with
the time of the server's version.  A missing row has the time 0, and recording a
remote version renews the time.  This module says for which reports `_syncKey`
only writes to the server what was set or deleted since the last exchange.
-/

namespace BreadwalletCore

namespace RemoteCall

/-- The request changes the server. -/
def Writes : RemoteCall → Prop
  | put .. => True
  | del .. => True
  | get .. => False

end RemoteCall

namespace RemoteReport

/-- The branches of `_syncKey` that compare both sides. -/
def Compared (report : RemoteReport) : Prop :=
  report.err = none ∨ report.err = some .tombstone ∨ report.err = some .notFound

/-- The local row has something to publish: it was written since the last
exchange, or the server does not know the key. -/
def Publishes (report : RemoteReport) (row : Option KVRow) : Prop :=
  ∃ r, row = some r ∧ (r.remoteVersion = 0 ∨ report.Missing)

/-- The times of both sides do not mislead: a key without a local row is reported
with a time after 1970, and a row that has nothing to publish is older than the
version reported (or deleted like it). -/
def TimesFit (report : RemoteReport) : Option KVRow → Prop
  | none => 0 < report.time
  | some r => r.remoteVersion = 0 ∨ report.Missing ∨ r.time < report.time ∨
      (r.deleted = true ∧ report.err = some .tombstone)

end RemoteReport

namespace BRReplicatedKVStore

variable {kv : KVPlatform} {store : BRReplicatedKVStore} {ctx : TxnContext} {key : String}

/-- The side that `localSide` makes of the latest row. -/
structure SideOf (side : LocalSide) (row : Option KVRow) : Prop where
  missing : row = none → side.localTime = 0 ∧ side.localDeleted = false
  present : ∀ r, row = some r → side.localTime = r.time ∧ side.localDeleted = r.deleted

/-- When the kernel writes to the server. -/
theorem decideSync_writes_iff
    {report : RemoteReport} {recorded : ℕ} {side : LocalSide} :
    (∃ call wait, decideSync key report recorded side = .ask call wait ∧ call.Writes) ↔
      report.Compared ∧ ¬ (side.localDeleted = true ∧ report.err = some .tombstone) ∧
        report.time ≤ side.localTime := by
  have hcompare : ∀ err, report.err = err → (err = none ∨ err = some .tombstone ∨
      err = some .notFound) →
      ((∃ call wait,
        (if side.localDeleted = true ∧ err = some .tombstone then
          SyncResult.goto (.record side.localVer report.version)
        else if side.localTime > report.time ∨ side.localTime = report.time then
          if side.localDeleted then
            .ask (.del key report.version) (.deleting side.localVer)
          else
            .ask (.put key side.localValue
                (if report.version = 0 ∨ report.version < recorded then 1 else report.version))
              (.putting side.localVer)
        else if err = some .tombstone then
          .goto (.remove side.localVer report.version)
        else
          .ask (.get key report.version) (.getting side.localVer)) = .ask call wait ∧
        call.Writes) ↔
      ¬ (side.localDeleted = true ∧ err = some .tombstone) ∧ report.time ≤ side.localTime) := by
    intro err _ _
    split
    · rename_i h
      simp [h]
    · rename_i h
      split
      · rename_i htime
        have hle : report.time ≤ side.localTime := by
          omega
        split <;> simp [h, hle, RemoteCall.Writes]
      · rename_i htime
        have hlt : ¬ report.time ≤ side.localTime := by
          omega
        split <;> simp [hlt, RemoteCall.Writes]
  rw [RemoteReport.Compared, decideSync]
  split
  · rename_i h
    simp [h]
  · rename_i h
    simp [h]
  · rename_i hconflict hunknown
    have haccepted : report.err = none ∨ report.err = some .tombstone ∨
        report.err = some .notFound := by
      rcases herr : report.err with - | - | - | - | -
      · exact .inl rfl
      · exact .inr (.inr rfl)
      · exact absurd herr hconflict
      · exact .inr (.inl rfl)
      · exact absurd herr hunknown
    rw [hcompare report.err rfl haccepted, and_iff_right haccepted]

/-- The decision writes only what is to be published exactly if the times fit. -/
theorem decideSync_publishes_iff
    {report : RemoteReport} {recorded : ℕ} {side : LocalSide} {row : Option KVRow}
    (hside : SideOf side row) :
    (∀ call wait, decideSync key report recorded side = .ask call wait → call.Writes →
        report.Publishes row) ↔
      (report.Compared → report.TimesFit row) := by
  have hforall : (∀ call wait, decideSync key report recorded side = .ask call wait →
      call.Writes → report.Publishes row) ↔
      ((∃ call wait, decideSync key report recorded side = .ask call wait ∧ call.Writes) →
        report.Publishes row) := by
    constructor
    · rintro h ⟨call, wait, hask, hwrites⟩
      exact h call wait hask hwrites
    · intro h call wait hask hwrites
      exact h ⟨call, wait, hask, hwrites⟩
  rw [hforall, decideSync_writes_iff]
  cases row with
  | none =>
      obtain ⟨htime, hdeleted⟩ := hside.missing rfl
      have hnone : ¬ report.Publishes none := by
        rintro ⟨r, hr, -⟩
        cases hr
      rw [htime, hdeleted, RemoteReport.TimesFit]
      constructor
      · intro h hcompared
        by_contra hzero
        exact hnone (h ⟨hcompared, by simp, by omega⟩)
      · rintro h ⟨hcompared, -, hle⟩
        have := h hcompared
        omega
  | some r =>
      obtain ⟨htime, hdeleted⟩ := hside.present r rfl
      have hsome : report.Publishes (some r) ↔ r.remoteVersion = 0 ∨ report.Missing := by
        constructor
        · rintro ⟨r', hr', h⟩
          cases hr'
          exact h
        · intro h
          exact ⟨r, rfl, h⟩
      rw [htime, hdeleted, hsome, RemoteReport.TimesFit]
      constructor
      · intro h hcompared
        by_cases hboth : r.deleted = true ∧ report.err = some .tombstone
        · exact .inr (.inr (.inr hboth))
        · rcases Nat.lt_or_ge r.time report.time with hlt | hge
          · exact .inr (.inr (.inl hlt))
          · rcases h ⟨hcompared, hboth, hge⟩ with h | h
            · exact .inl h
            · exact .inr (.inl h)
      · rintro h ⟨hcompared, hboth, hle⟩
        rcases h hcompared with h | h | h | h
        · exact .inl h
        · exact .inr h
        · omega
        · exact absurd h hboth

theorem sideOf_localSide
    {side : LocalSide}
    (h : store.Numbered)
    (hversion : ctx.versionStep = none)
    (hrow : ctx.rowStep = none)
    (hkeys : ctx.keysRead = none)
    (hok : store.localSide kv ctx key = .ok side) :
    SideOf side (store.latest (utf8String key)) := by
  rcases localSide_ok h hversion hrow hkeys hok with ⟨hlast, rfl⟩ | ⟨row, plain, hlast, -, rfl⟩
  · rw [hlast]
    exact ⟨fun _ => ⟨rfl, rfl⟩, fun r hr => by cases hr⟩
  · rw [hlast]
    refine ⟨fun hr => (by cases hr), ?_⟩
    intro r hr
    cases hr
    exact ⟨rfl, rfl⟩

/-- The store with further rows behind its own. -/
structure Extends (store store' : BRReplicatedKVStore) : Prop where
  encrypted : store'.encrypted = store.encrypted
  encryptedReplication : store'.encryptedReplication = store.encryptedReplication
  rows : ∃ more, store'.rows = store.rows ++ more
  numbered : store'.Numbered

theorem extends_refl
    (h : store.Numbered) :
    Extends store store :=
  ⟨rfl, rfl, ⟨[], (List.append_nil _).symm⟩, h⟩

theorem Adds.extends
    {text : String} {localVer : ℕ} {row : KVRow} {w : Written}
    (hadds : store.Adds text localVer row w)
    (h : store.Numbered) :
    Extends store w.1 := by
  have hnumbered := hadds.numbered h
  rw [hadds.written] at hnumbered ⊢
  exact ⟨rfl, rfl, ⟨[row], rfl⟩, hnumbered⟩

/-- Every transaction of the kernel extends the store. -/
theorem syncStep_extends
    {point : SyncPoint} {r : BRReplicatedKVStore × SyncResult}
    (h : store.Numbered)
    (hok : syncStep kv store ctx key point = .ok r) :
    Extends store r.1 := by
  have hremote : ∀ localVer remoteVer w,
      store.setRemoteVersion kv ctx key localVer remoteVer = .ok w →
        Extends store w.1 := by
    intro localVer remoteVer w hw
    obtain ⟨last, -, hadds⟩ := setRemoteVersion_ok h hw
    exact hadds.extends h
  have hdelete : ∀ localVer w, store._del ctx key localVer = .ok w →
        Extends store w.1 := by
    intro localVer w hw
    obtain ⟨last, -, hadds⟩ := _del_ok h hw
    exact hadds.extends h
  cases point with
  | start report =>
      rw [syncStep] at hok
      split at hok
      · cases hok
        exact extends_refl h
      · split at hok
        · split at hok <;> cases hok <;> exact extends_refl h
        · cases hok
          exact extends_refl h
        · cases hok
  | compare report recorded =>
      rw [syncStep] at hok
      split at hok <;> cases hok <;> exact extends_refl h
  | record localVer remoteVer =>
      rcases recorded_ok hok with ⟨w, hw, rfl⟩ | ⟨e, -, rfl⟩
      · exact hremote _ _ _ hw
      · exact extends_refl h
  | remove localVer remoteVer =>
      rw [syncStep] at hok
      split at hok
      · rename_i w hw
        cases hok
        exact hdelete _ _ hw
      · rcases recorded_ok hok with ⟨w, hw, -⟩ | ⟨e, -, rfl⟩
        · cases hw
        · exact extends_refl h
  | recordRemoved localVer remoteVer =>
      rcases recorded_ok hok with ⟨w, hw, rfl⟩ | ⟨e, -, rfl⟩
      · exact hremote _ _ _ hw
      · exact extends_refl h
  | store localVer value remoteVer =>
      rw [syncStep] at hok
      split at hok
      · rename_i w hw
        cases hok
        exact (_set_ok h hw).extends h
      · rcases recorded_ok hok with ⟨w, hw, -⟩ | ⟨e, -, rfl⟩
        · cases hw
        · exact extends_refl h
  | discard localVer =>
      rw [syncStep] at hok
      split at hok
      · rename_i w hw
        cases hok
        rw [Machine.bind_eq_ok] at hw
        obtain ⟨-, -, hdel⟩ := hw
        exact hdelete _ _ hdel
      · cases hok
        exact extends_refl h
      · cases hok

/-- Only the second transaction of the kernel asks the server. -/
theorem syncStep_ask
    {point : SyncPoint} {r : BRReplicatedKVStore × SyncResult} {call : RemoteCall}
    {wait : SyncWait}
    (hok : syncStep kv store ctx key point = .ok r)
    (hask : r.2 = .ask call wait) :
    ∃ report recorded side, point = .compare report recorded ∧
      store.localSide kv ctx key = .ok side ∧ r.1 = store ∧
      decideSync key report recorded side = .ask call wait := by
  have hrecorded : ∀ (ignoresMissing : Bool) (written : Except KVFault Written),
      recorded ignoresMissing store written = .ok r → False := by
    intro ignoresMissing written h
    rcases recorded_ok h with ⟨w, -, rfl⟩ | ⟨e', -, rfl⟩ <;> cases hask
  cases point with
  | start report =>
      rw [syncStep] at hok
      split at hok
      · cases hok
        cases hask
      · split at hok
        · split at hok <;> cases hok <;> cases hask
        · cases hok
          cases hask
        · cases hok
  | compare report recorded =>
      rw [syncStep] at hok
      split at hok
      · rename_i side hside
        cases hok
        exact ⟨report, recorded, side, rfl, hside, rfl, hask⟩
      · cases hok
        cases hask
      · cases hok
  | record localVer remoteVer =>
      exact (hrecorded _ _ hok).elim
  | remove localVer remoteVer =>
      rw [syncStep] at hok
      split at hok
      · cases hok
        cases hask
      · exact (hrecorded _ _ hok).elim
  | recordRemoved localVer remoteVer =>
      exact (hrecorded _ _ hok).elim
  | store localVer value remoteVer =>
      rw [syncStep] at hok
      split at hok
      · cases hok
        cases hask
      · exact (hrecorded _ _ hok).elim
  | discard localVer =>
      rw [syncStep] at hok
      split at hok
      · cases hok
        cases hask
      · cases hok
        cases hask
      · cases hok

end BRReplicatedKVStore

/-! ## Runs -/

namespace Replication

open BRReplicatedKVStore

variable {kv : KVPlatform} {s s' : Replication} {os : List ReplicationOutput} {i j : ℕ}

@[simp] theorem store_setStore
    (store : BRReplicatedKVStore) (k : ℕ) :
    ((s.setStore i store).clients k).store =
      if k = i then store else (s.clients k).store := by
  by_cases h : k = i
  · subst h
    simp [setStore]
  · simp [setStore, h]

@[simp] theorem store_setExchanges
    (exchanges : List (String × ClientExchange)) (k : ℕ) :
    ((s.setExchanges i exchanges).clients k).store = (s.clients k).store := by
  by_cases h : k = i
  · subst h
    simp [setExchanges]
  · simp [setExchanges, h]

/-- The tables of all clients are numbered. -/
def AllNumbered (s : Replication) : Prop :=
  ∀ k, (s.clients k).store.Numbered

theorem AllNumbered.setStore
    {store : BRReplicatedKVStore}
    (h : s.AllNumbered)
    (hstore : store.Numbered) :
    (s.setStore i store).AllNumbered := by
  intro k
  rw [store_setStore]
  split
  · exact hstore
  · exact h k

theorem AllNumbered.setExchanges
    {exchanges : List (String × ClientExchange)}
    (h : s.AllNumbered) :
    (s.setExchanges i exchanges).AllNumbered := by
  intro k
  rw [store_setExchanges]
  exact h k

theorem AllNumbered.result
    {key : String} {report : RemoteReport} {exchanged : Option ℕ}
    (h : s.AllNumbered)
    (r : SyncResult) :
    (s.result i j key report exchanged r).1.AllNumbered := by
  cases r with
  | goto point =>
      exact h.setExchanges
  | ask call wait =>
      exact h.setExchanges
  | complete e =>
      exact h.setExchanges
  | throws e =>
      exact h.setExchanges

theorem written_ok
    {saved : Except KVFault Written}
    (h : s.written i saved = .ok (s', os)) :
    os = [] ∧ ((∃ w, saved = .ok w ∧ s' = s.setStore i w.1) ∨ s' = s) := by
  rcases saved with (e | -) | w
  · cases h
    exact ⟨rfl, .inr rfl⟩
  · cases h
  · cases h
    exact ⟨rfl, .inl ⟨w, rfl, rfl⟩⟩

theorem AllNumbered.step
    {event : ReplicationEvent}
    (h : s.AllNumbered)
    (hstep : step kv s event = .ok (s', os)) :
    s'.AllNumbered := by
  cases event with
  | tick =>
      cases hstep
      exact h
  | running k b =>
      cases hstep
      exact h.setStore ⟨(h k).versions, (h k).version_lt⟩
  | set k ctx key value localVer =>
      rcases written_ok hstep with ⟨rfl, ⟨w, hw, rfl⟩ | rfl⟩
      · exact h.setStore ((_set_ok (h k) hw).numbered (h k))
      · exact h
  | del k ctx key localVer =>
      rcases written_ok hstep with ⟨rfl, ⟨w, hw, rfl⟩ | rfl⟩
      · obtain ⟨last, -, hadds⟩ := _del_ok (h k) hw
        exact h.setStore (hadds.numbered (h k))
      · exact h
  | report k key report =>
      rw [Replication.step] at hstep
      split at hstep
      · cases hstep
        exact h.setExchanges
      · cases hstep
        exact h
  | transaction k j ctx =>
      rw [Replication.step] at hstep
      split at hstep
      · split at hstep
        · rename_i r hr
          have hstore := h.setStore (i := k) (syncStep_extends (h k) hr).numbered
          have hs' : _ = s' := congrArg Prod.fst (Except.ok.inj hstep)
          rw [← hs']
          exact hstore.result _
        · cases hstep
      · cases hstep
        exact h
  | serve k j version =>
      rw [Replication.step] at hstep
      split at hstep
      · split at hstep
        · cases hstep
          exact h.setExchanges
        · cases hstep
          exact h
      · cases hstep
        exact h
  | lose k j =>
      rw [Replication.step] at hstep
      split at hstep
      · cases hstep
        exact h.setExchanges
      · cases hstep
        exact h.setExchanges
      · cases hstep
        exact h
  | receive k j =>
      rw [Replication.step] at hstep
      split at hstep
      · have hs' : _ = s' := congrArg Prod.fst (Except.ok.inj hstep)
        rw [← hs']
        exact h.result _
      · cases hstep
        exact h

/-- A request that writes to the server publishes. -/
def OutputPublishes : ReplicationOutput → Prop
  | .issued _ call report row => call.Writes → report.Publishes row
  | .completed .. => True

variable (kv) in
/-- The condition on an event: where an exchange compares both sides, the times fit. -/
def TimesFitAt (s : Replication) : ReplicationEvent → Prop
  | .transaction i j ctx => ∀ key report recorded side,
      (s.clients i).exchanges[j]? = some (key, .running (.compare report recorded)) →
      (s.clients i).store.localSide kv (s.context ctx) key = .ok side →
      report.Compared → report.TimesFit (s.row i key)
  | _ => True

theorem syncAnswer_ne_ask
    (store : BRReplicatedKVStore) (answer : RemoteAnswer) (wait wait' : SyncWait)
    (call : RemoteCall) :
    syncAnswer kv store answer wait ≠ .ask call wait' := by
  rcases syncAnswer_goes_on kv store answer wait with ⟨point, h⟩ | ⟨e, h⟩
  · rw [h]
    exact SyncResult.noConfusion
  · rw [h]
    exact SyncResult.noConfusion

/-- What a piece of an exchange shows publishes, if its request does. -/
theorem result_publishes
    {key : String} {report : RemoteReport} {exchanged : Option ℕ} {r : SyncResult}
    (hask : ∀ call wait, r = .ask call wait → call.Writes → report.Publishes (s.row i key)) :
    ∀ o ∈ (s.result i j key report exchanged r).2, OutputPublishes o := by
  cases r with
  | goto point =>
      exact List.forall_mem_nil _
  | ask call wait =>
      exact List.forall_mem_singleton.mpr (hask call wait rfl)
  | complete e =>
      exact List.forall_mem_singleton.mpr trivial
  | throws e =>
      exact List.forall_mem_nil _

/-- **Step lemma**: where the times fit, every write to the server publishes. -/
theorem step_publishes
    {event : ReplicationEvent}
    (h : s.AllNumbered)
    (hfit : TimesFitAt kv s event)
    (hstep : step kv s event = .ok (s', os)) :
    ∀ o ∈ os, OutputPublishes o := by
  cases event with
  | transaction k j ctx =>
      rw [Replication.step] at hstep
      split at hstep
      · rename_i key point hexchange
        split at hstep
        · rename_i r hr
          have hos : _ = os := congrArg Prod.snd (Except.ok.inj hstep)
          rw [← hos]
          refine result_publishes ?_
          intro call wait hask
          obtain ⟨report, recordedVersion, side, rfl, hside, hstore, hdecide⟩ :=
            syncStep_ask hr hask
          have hrow : (s.setStore k r.1).row k key = s.row k key := by
            rw [row, store_setStore, if_pos rfl, hstore]
          rw [hrow]
          have hsideOf := sideOf_localSide (h k) rfl rfl rfl hside
          exact (decideSync_publishes_iff hsideOf).mpr
            (hfit key report recordedVersion side hexchange hside) call wait hdecide
        · cases hstep
      · cases hstep
        exact List.forall_mem_nil _
  | receive k j =>
      rw [Replication.step] at hstep
      split at hstep
      · have hos : _ = os := congrArg Prod.snd (Except.ok.inj hstep)
        rw [← hos]
        refine result_publishes ?_
        intro call wait hask
        exact absurd hask (syncAnswer_ne_ask _ _ _ _ _)
      · cases hstep
        exact List.forall_mem_nil _
  | tick =>
      cases hstep
      exact List.forall_mem_nil _
  | running k b =>
      cases hstep
      exact List.forall_mem_nil _
  | set k ctx key value localVer =>
      obtain ⟨rfl, -⟩ := written_ok hstep
      exact List.forall_mem_nil _
  | del k ctx key localVer =>
      obtain ⟨rfl, -⟩ := written_ok hstep
      exact List.forall_mem_nil _
  | report k key report =>
      rw [Replication.step] at hstep
      split at hstep
      all_goals
        cases hstep
        exact List.forall_mem_nil _
  | serve k j version =>
      rw [Replication.step] at hstep
      repeat' split at hstep
      all_goals
        cases hstep
        exact List.forall_mem_nil _
  | lose k j =>
      rw [Replication.step] at hstep
      split at hstep
      all_goals
        cases hstep
        exact List.forall_mem_nil _

/-- **Publishing**: in a run in which the times fit wherever an exchange compares
both sides, the replicas only write to the server to publish. -/
theorem run_publishes
    {events : List ReplicationEvent} {log : List ReplicationOutput}
    (h : s.AllNumbered)
    (hguard : Machine.Guarded (step kv) (TimesFitAt kv) s events)
    (hrun : Machine.run (step kv) s events = .ok (s', log)) :
    ∀ i call report row, .issued i call report row ∈ log → call.Writes →
      ∃ r, row = some r ∧ (r.remoteVersion = 0 ∨ report.Missing) := by
  have hstep : ∀ s log event s' os,
      s.AllNumbered ∧ (∀ o ∈ log, OutputPublishes o) → TimesFitAt kv s event →
      step kv s event = .ok (s', os) →
      s'.AllNumbered ∧ ∀ o ∈ log ++ os, OutputPublishes o := by
    rintro s log event s' os ⟨hn, hlog⟩ hfit hs
    refine ⟨hn.step hs, ?_⟩
    intro o ho
    rcases List.mem_append.mp ho with ho | ho
    · exact hlog o ho
    · exact step_publishes hn hfit hs o ho
  have hinv := Machine.run_invariant hstep
    (⟨h, List.forall_mem_nil _⟩ : s.AllNumbered ∧ ∀ o ∈ [], OutputPublishes o) hguard hrun
  intro i call report row ho hwrites
  exact hinv.2 _ ho hwrites

/-! ## Two clients -/

/-- Clients without rows, in the middle of synchronising, and an empty server. -/
def blank : Replication where
  clients _ := { store := { syncRunning := true } }
  server _ := []

/-- A report of a key that the server does not know. -/
def unknownKey : RemoteReport where
  version := 0
  time := 0
  err := some .notFound

/-- Client 0 publishes a value.  Before its answer arrives client 1 publishes
another one; then client 0 records the version that it has written, and with it a
new local time, and synchronises again. -/
def overtakenRun : List ReplicationEvent :=
  [.set 0 {} "ab" [7] 0, .report 0 "ab" unknownKey, .transaction 0 0 {}, .transaction 0 0 {},
    .serve 0 0 1, .tick,
    .set 1 {} "ab" [8] 0, .report 1 "ab" ⟨1, 0, none⟩, .transaction 1 0 {}, .transaction 1 0 {},
    .serve 1 0 2, .tick,
    .receive 0 0, .transaction 0 0 {},
    .report 0 "ab" ⟨2, 1, none⟩, .transaction 0 0 {}, .transaction 0 0 {}]

/-- The last request of client 0 puts its old value on top of that of client 1:
its latest row was exchanged at version 1, and the server reports version 2. -/
theorem not_run_publishes :
    (Machine.run (step samplePlatform) blank overtakenRun).map (fun r => r.2.getLast?) =
      .ok (some (.issued 0 (.put "ab" [0, 7] 2) ⟨2, 1, none⟩
        (some { version := 2, remoteVersion := 1, key := "ab", value := [0, 7], time := 2,
                deleted := false }))) := by
  rfl

/-- The first publication of client 0 meets the condition. -/
theorem run_publishes_overtaken :
    ∃ s log, Machine.run (step samplePlatform) blank (overtakenRun.take 4) = .ok (s, log) ∧
      ∀ i call report row, .issued i call report row ∈ log → call.Writes →
        ∃ r, row = some r ∧ (r.remoteVersion = 0 ∨ report.Missing) := by
  have hnumbered : blank.AllNumbered := by
    intro k
    exact ⟨VersionedTable.numbered_nil, List.forall_mem_nil _⟩
  have hguard : Machine.Guarded (step samplePlatform) (TimesFitAt samplePlatform) blank
      (overtakenRun.take 4) := by
    refine Machine.guarded_cons trivial rfl ?_
    refine Machine.guarded_cons trivial rfl ?_
    refine Machine.guarded_cons ?_ rfl ?_
    · rintro key report recorded side hexchange
      cases hexchange
    refine Machine.guarded_cons ?_ rfl trivial
    · rintro key report recorded side hexchange - -
      cases hexchange
      exact .inl rfl
  exact ⟨_, _, rfl, run_publishes hnumbered hguard rfl⟩

end Replication

end BreadwalletCore
