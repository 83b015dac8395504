import BreadwalletCore.ReplicatedKVStore.Sync

/-!
# Replicas and their server

Any number of clients with a store each, and a server that keeps the versions of
every key and accepts `put` and `del` only at the current one.  Local writes, the
pieces of `_syncKey`, the server and a common clock take steps in any order.
Every `SELECT` of a client reads its rows; any other statement may fail.
-/

namespace BreadwalletCore

/-- What the server holds at one version of a key. -/
inductive Content where
  | value (data : List UInt8)
  | tombstone
deriving DecidableEq

structure ServerEntry where
  version : ℕ
  time : ℕ
  content : Content
deriving DecidableEq

/-- The versions of every key, the current one last. -/
abbrev Server : Type :=
  String → List ServerEntry

/-- Where an exchange of a client stands, with what is under way to or from the
server. -/
inductive ClientExchange where
  | running (point : SyncPoint)
  | sent (call : RemoteCall) (wait : SyncWait)
  | answered (wait : SyncWait) (answer : RemoteAnswer)
deriving DecidableEq

structure Client where
  store : BRReplicatedKVStore
  exchanges : List (String × ClientExchange) := []

structure Replication where
  clients : ℕ → Client
  server : Server
  clock : ℕ := 0

inductive ReplicationEvent where
  | tick
  /-- `syncRunning` of a client changes -/
  | running (i : ℕ) (b : Bool)
  /-- a local `_set` -/
  | set (i : ℕ) (ctx : TxnContext) (key : String) (value : List UInt8) (localVer : ℕ)
  /-- a local `_del` -/
  | del (i : ℕ) (ctx : TxnContext) (key : String) (localVer : ℕ)
  /-- `_syncKey` is called with what the server says about the key -/
  | report (i : ℕ) (key : String) (report : RemoteReport)
  /-- the next transaction of an exchange -/
  | transaction (i j : ℕ) (ctx : TxnContext)
  /-- the server handles a request; `version` is the new version that it gives, or
  the version that it returns -/
  | serve (i j : ℕ) (version : ℕ)
  /-- a request or its answer is lost -/
  | lose (i j : ℕ)
  /-- an answer arrives -/
  | receive (i j : ℕ)

/-- What can be seen of a step: a request that the kernel issues, with the latest
row of the key, or a call of the completion handler, with the version exchanged,
the latest row of the key and what the server holds for it at that moment. -/
inductive ReplicationOutput where
  | issued (i : ℕ) (call : RemoteCall) (report : RemoteReport) (row : Option KVRow)
  | completed (i : ℕ) (key : String) (e : Option BRReplicatedKVStoreError)
      (exchanged : Option ℕ) (row : Option KVRow) (current : Option ServerEntry)
deriving DecidableEq

namespace Server

/-- The current entry of a key. -/
abbrev current (server : Server) (key : String) : Option ServerEntry :=
  (server key).getLast?

/-- What the server held for the key at a version. -/
def held (server : Server) (key : String) (version : ℕ) : Option Content :=
  ((server key).find? (fun e => e.version = version)).map ServerEntry.content

/-- The report of a key that the server holds. -/
def reportOf (e : ServerEntry) : RemoteReport where
  version := e.version
  time := e.time
  err := match e.content with
    | .value _ => none
    | .tombstone => some .tombstone

/-- An answer that reports an error. -/
def refusal (err : BRRemoteKVStoreError) : RemoteAnswer where
  version := 0
  err := some err

/-- Store a new version, which was never used. -/
def write (server : Server) (key : String) (e : ServerEntry) : Option Server :=
  if 0 < e.version ∧ server.held key e.version = none then
    some (Function.update server key (server key ++ [e]))
  else
    none

/-- The server handles a request at a time.  `none` where the version it is to use
does not fit. -/
def handle (server : Server) (time version : ℕ) : RemoteCall → Option (Server × RemoteAnswer)
  | .put key value v =>
      match server.current key with
      | none =>
          if v = 1 then
            (server.write key ⟨version, time, .value value⟩).map (·, ⟨version, [], none⟩)
          else
            some (server, refusal .notFound)
      | some e =>
          if v = e.version then
            (server.write key ⟨version, time, .value value⟩).map (·, ⟨version, [], none⟩)
          else
            some (server, refusal .conflict)
  | .del key v =>
      match server.current key with
      | none => some (server, refusal .notFound)
      | some e =>
          if v = e.version then
            (server.write key ⟨version, time, .tombstone⟩).map (·, ⟨version, [], none⟩)
          else
            some (server, refusal .conflict)
  | .get key _ =>
      match server.held key version with
      | some (.value data) => some (server, ⟨version, data, none⟩)
      | some .tombstone => some (server, refusal .tombstone)
      | none => some (server, refusal .notFound)

end Server

/-- The server does not know the key: it says so, or its list of keys lacks it. -/
def RemoteReport.Missing (report : RemoteReport) : Prop :=
  report.err = some .notFound ∨ (report.err = none ∧ report.version = 0)

instance (report : RemoteReport) : Decidable report.Missing :=
  inferInstanceAs (Decidable (_ ∨ _))

/-- The server can say this about a key.  A key that the list lacks is only looked
at by a client that has a row of it; a request can fail. -/
def Server.Says (server : Server) (key : String) (row : Option KVRow) (report : RemoteReport) :
    Prop :=
  match server.current key with
  | some e => report = Server.reportOf e ∨ report.err = some .unknown
  | none => report.err = some .notFound ∨ report.err = some .unknown ∨
      (report = ⟨0, 0, none⟩ ∧ row.isSome = true)

instance (server : Server) (key : String) (row : Option KVRow) (report : RemoteReport) :
    Decidable (server.Says key row report) := by
  unfold Server.Says
  split <;> infer_instance

namespace SyncPoint

/-- The remote version that an exchange is about. -/
def exchanged : SyncPoint → Option ℕ
  | start report => some report.version
  | compare report _ => some report.version
  | record _ remoteVer => some remoteVer
  | remove _ remoteVer => some remoteVer
  | recordRemoved _ remoteVer => some remoteVer
  | store _ _ remoteVer => some remoteVer
  | discard _ => none

end SyncPoint

namespace Replication

open BRReplicatedKVStore

variable (kv : KVPlatform)

/-- The context of a transaction whose reads succeed, at the common clock. -/
def context (s : Replication) (ctx : TxnContext) : TxnContext :=
  { ctx with versionStep := none, rowStep := none, keysRead := none, now := s.clock }

/-- The latest row that a client has of a key. -/
abbrev row (s : Replication) (i : ℕ) (key : String) : Option KVRow :=
  (s.clients i).store.latest (utf8String key)

def setStore (s : Replication) (i : ℕ) (store : BRReplicatedKVStore) : Replication :=
  { s with clients := Function.update s.clients i { s.clients i with store := store } }

def setExchanges (s : Replication) (i : ℕ) (exchanges : List (String × ClientExchange)) :
    Replication :=
  { s with clients := Function.update s.clients i { s.clients i with exchanges := exchanges } }

/-- An exchange goes on. -/
def goOn (s : Replication) (i j : ℕ) (key : String) (e : ClientExchange) : Replication :=
  s.setExchanges i ((s.clients i).exchanges.set j (key, e))

/-- An exchange is over. -/
def leave (s : Replication) (i j : ℕ) : Replication :=
  s.setExchanges i ((s.clients i).exchanges.eraseIdx j)

/-- The end of a piece of an exchange. -/
def result (s : Replication) (i j : ℕ) (key : String) (report : RemoteReport)
    (exchanged : Option ℕ) : SyncResult → Replication × List ReplicationOutput
  | .goto point => (s.goOn i j key (.running point), [])
  | .ask call wait => (s.goOn i j key (.sent call wait), [.issued i call report (s.row i key)])
  | .complete e =>
      (s.leave i j, [.completed i key e exchanged (s.row i key) (s.server.current key)])
  | .throws _ => (s.leave i j, [])

/-- The end of a local write. -/
def written (s : Replication) (i : ℕ) :
    Except KVFault Written → Except KVFault (Replication × List ReplicationOutput)
  | .ok w => .ok (s.setStore i w.1, [])
  | .error (.thrown _) => .ok (s, [])
  | .error .trapped => .error .trapped

/-- The report an exchange decides on; only its second transaction asks. -/
def reportAt : SyncPoint → RemoteReport
  | .start report => report
  | .compare report _ => report
  | _ => ⟨0, 0, none⟩

/-- One step.  An event that does not fit the state cannot occur. -/
def step (s : Replication) :
    ReplicationEvent → Except KVFault (Replication × List ReplicationOutput)
  | .tick => .ok ({ s with clock := s.clock + 1 }, [])
  | .running i b => .ok (s.setStore i { (s.clients i).store with syncRunning := b }, [])
  | .set i ctx key value localVer =>
      s.written i ((s.clients i).store._set kv (s.context ctx) key value localVer)
  | .del i ctx key localVer =>
      s.written i ((s.clients i).store._del (s.context ctx) key localVer)
  | .report i key report =>
      if s.server.Says key (s.row i key) report then
        .ok (s.setExchanges i ((s.clients i).exchanges ++ [(key, .running (.start report))]), [])
      else
        .ok (s, [])
  | .transaction i j ctx =>
      match (s.clients i).exchanges[j]? with
      | some (key, .running point) =>
          match syncStep kv (s.clients i).store (s.context ctx) key point with
          | .ok r =>
              .ok ((s.setStore i r.1).result i j key (reportAt point) point.exchanged r.2)
          | .error fault => .error fault
      | _ => .ok (s, [])
  | .serve i j version =>
      match (s.clients i).exchanges[j]? with
      | some (key, .sent call wait) =>
          match s.server.handle s.clock version call with
          | some r => .ok ({ s.goOn i j key (.answered wait r.2) with server := r.1 }, [])
          | none => .ok (s, [])
      | _ => .ok (s, [])
  | .lose i j =>
      match (s.clients i).exchanges[j]? with
      | some (key, .sent _ wait) =>
          .ok (s.goOn i j key (.answered wait (Server.refusal .unknown)), [])
      | some (key, .answered wait _) =>
          .ok (s.goOn i j key (.answered wait (Server.refusal .unknown)), [])
      | _ => .ok (s, [])
  | .receive i j =>
      match (s.clients i).exchanges[j]? with
      | some (key, .answered wait answer) =>
          .ok (s.result i j key ⟨0, 0, none⟩ none
            (syncAnswer kv (s.clients i).store answer wait))
      | _ => .ok (s, [])

end Replication

end BreadwalletCore
