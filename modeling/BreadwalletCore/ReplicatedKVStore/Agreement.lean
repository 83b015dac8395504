import BreadwalletCore.ReplicatedKVStore.Publishing
import BreadwalletCore.Data.KeyedList

/-!
# Agreement of the replicas with the server

A row that records a remote version has the value and the flag that the server
held at that version.  The versions under way in an exchange carry this fact: each
names a local version, and the row at that version, once it is there, never
changes.
-/

namespace BreadwalletCore

namespace Server

variable {server server' : Server} {key : String} {version time : ℕ}

/-- No version of a key was used twice. -/
def Distinct (server : Server) : Prop :=
  ∀ key, ((server key).map ServerEntry.version).Nodup

/-- What the server held it still holds. -/
def Keeps (server server' : Server) : Prop :=
  ∀ key version content, server.held key version = some content →
    server'.held key version = some content

theorem keeps_refl (server : Server) : server.Keeps server :=
  fun _ _ _ h => h

theorem Distinct.held_current
    {e : ServerEntry}
    (h : server.Distinct)
    (he : server.current key = some e) :
    server.held key e.version = some e.content := by
  have hfound := KeyedList.get_eq_some_of_mem (h key) (List.mem_of_getLast? he)
  rw [KeyedList.get] at hfound
  rw [held, hfound, Option.map_some]

/-- A write of the server adds one entry under a version of its own. -/
theorem write_spec
    {e : ServerEntry}
    (h : server.Distinct)
    (hwrite : server.write key e = some server') :
    server'.Distinct ∧ server.Keeps server' ∧ server'.held key e.version = some e.content := by
  rw [write] at hwrite
  split at hwrite
  · rename_i hfresh
    cases hwrite
    have hnone : (server key).find? (fun e' => e'.version = e.version) = none := by
      have := hfresh.2
      rwa [held, Option.map_eq_none_iff] at this
    refine ⟨?_, ?_, ?_⟩
    · intro key'
      by_cases hkey : key' = key
      · subst hkey
        rw [Function.update_self, List.map_append, List.map_singleton]
        refine List.Nodup.append (h key') (List.nodup_singleton _) ?_
        intro v hv hv'
        rw [List.mem_singleton] at hv'
        subst hv'
        obtain ⟨e', he', hversion⟩ := List.mem_map.mp hv
        have hne := List.find?_eq_none.mp hnone e' he'
        simp [hversion] at hne
      · rw [Function.update_of_ne hkey]
        exact h key'
    · intro key' version content hheld
      by_cases hkey : key' = key
      · subst hkey
        rw [held, Function.update_self, List.find?_append]
        rw [held, Option.map_eq_some_iff] at hheld
        obtain ⟨e', he', hcontent⟩ := hheld
        rw [he', Option.some_or, Option.map_some, hcontent]
      · rw [held, Function.update_of_ne hkey]
        exact hheld
    · rw [held, Function.update_self, List.find?_append, hnone, Option.none_or]
      simp
  · cases hwrite

/-- What an answer of the server says about what it holds. -/
theorem handle_spec
    {call : RemoteCall} {r : Server × RemoteAnswer}
    (h : server.Distinct)
    (hhandle : server.handle time version call = some r) :
    r.1.Distinct ∧ server.Keeps r.1 ∧ (r.2.err = none →
      match call with
      | .put key value _ => r.1.held key r.2.version = some (.value value)
      | .del key _ => r.1.held key r.2.version = some .tombstone
      | .get key _ => r.1.held key r.2.version = some (.value r.2.data)) := by
  have hrefused : ∀ err, r = (server, refusal err) →
      r.1.Distinct ∧ server.Keeps r.1 ∧ r.2.err ≠ none := by
    rintro err rfl
    exact ⟨h, keeps_refl server, by simp [refusal]⟩
  have hwritten : ∀ key content,
      (server.write key ⟨version, time, content⟩).map (·, (⟨version, [], none⟩ : RemoteAnswer)) =
        some r →
      r.1.Distinct ∧ server.Keeps r.1 ∧ r.1.held key r.2.version = some content := by
    intro key content hr
    obtain ⟨server', hwrite, rfl⟩ := Option.map_eq_some_iff.mp hr
    exact write_spec h hwrite
  cases call with
  | put key value v =>
      rw [handle] at hhandle
      split at hhandle
      all_goals
        split at hhandle
        · obtain ⟨hd, hk, hheld⟩ := hwritten _ _ hhandle
          exact ⟨hd, hk, fun _ => hheld⟩
        · obtain ⟨hd, hk, hne⟩ := hrefused _ (Option.some.inj hhandle).symm
          exact ⟨hd, hk, fun herr => absurd herr hne⟩
  | del key v =>
      rw [handle] at hhandle
      split at hhandle
      · obtain ⟨hd, hk, hne⟩ := hrefused _ (Option.some.inj hhandle).symm
        exact ⟨hd, hk, fun herr => absurd herr hne⟩
      · split at hhandle
        · obtain ⟨hd, hk, hheld⟩ := hwritten _ _ hhandle
          exact ⟨hd, hk, fun _ => hheld⟩
        · obtain ⟨hd, hk, hne⟩ := hrefused _ (Option.some.inj hhandle).symm
          exact ⟨hd, hk, fun herr => absurd herr hne⟩
  | get key v =>
      rw [handle] at hhandle
      split at hhandle
      · rename_i data hheld
        cases hhandle
        exact ⟨h, keeps_refl server, fun _ => hheld⟩
      · obtain ⟨hd, hk, hne⟩ := hrefused _ (Option.some.inj hhandle).symm
        exact ⟨hd, hk, fun herr => absurd herr hne⟩
      · obtain ⟨hd, hk, hne⟩ := hrefused _ (Option.some.inj hhandle).symm
        exact ⟨hd, hk, fun herr => absurd herr hne⟩

/-- A report of a tombstone is true. -/
def Truthful (server : Server) (key : String) (report : RemoteReport) : Prop :=
  report.err = some .tombstone → server.held key report.version = some .tombstone

theorem Distinct.truthful
    {row : Option KVRow} {report : RemoteReport}
    (h : server.Distinct)
    (hreport : server.Says key row report) :
    server.Truthful key report := by
  intro herr
  rw [Says] at hreport
  split at hreport
  · rename_i e he
    rcases hreport with rfl | hunknown
    · have hheld := h.held_current he
      rw [reportOf] at herr
      split at herr
      · cases herr
      · rename_i hcontent
        rw [hcontent] at hheld
        exact hheld
    · rw [hunknown] at herr
      cases herr
  · rcases hreport with hnone | hunknown | ⟨rfl, -⟩
    · rw [hnone] at herr
      cases herr
    · rw [hunknown] at herr
      cases herr
    · cases herr

end Server

namespace BRReplicatedKVStore

variable {kv : KVPlatform} {store store' : BRReplicatedKVStore} {server server' : Server}
  {ctx : TxnContext} {key text : String} {localVer version : ℕ} {row : KVRow}

variable (kv) in
/-- The row has the value and the deleted flag that the server held at a version. -/
def Matches (store : BRReplicatedKVStore) (server : Server) (key : String) (version : ℕ)
    (row : KVRow) : Prop :=
  match server.held key version with
  | some .tombstone => row.deleted = true
  | some (.value data) => row.deleted = false ∧ ∃ plain,
      store.openRemote kv data = some plain ∧ store.openValue kv row.value = .ok plain
  | none => False

/-- The local version exists (or is 0), and its row satisfies `P`. -/
def RowAt (store : BRReplicatedKVStore) (text : String) (localVer : ℕ) (P : KVRow → Prop) :
    Prop :=
  localVer ≤ store.count text ∧ ∀ row ∈ store.rowsOf text, row.version = localVer → P row

theorem rowAt_zero
    {P : KVRow → Prop}
    (h : store.Numbered) :
    store.RowAt text 0 P := by
  refine ⟨Nat.zero_le _, ?_⟩
  intro row hrow hzero
  have hpos := (h.versions.version_pos (VersionedTable.mem_rowsOf.mp hrow).1).1
  omega

theorem latest_unique
    {last : KVRow}
    (h : store.Numbered)
    (hlast : store.latest text = some last)
    (hrow : row ∈ store.rowsOf text)
    (hversion : row.version = store.count text) :
    row = last := by
  obtain ⟨i, hi, rfl⟩ := List.getElem_of_mem hrow
  have hv := h.versions.version_getElem (List.getElem?_eq_getElem hi)
  rw [latest, List.getLast?_eq_getElem?] at hlast
  have hindex : (store.rowsOf text).length - 1 = i := by
    rw [hversion] at hv
    change store.count text - 1 = i
    omega
  rw [hindex, List.getElem?_eq_getElem hi] at hlast
  exact Option.some.inj hlast

theorem rowAt_latest
    {last : KVRow} {P : KVRow → Prop}
    (h : store.Numbered)
    (hlast : store.latest text = some last)
    (hP : P last) :
    store.RowAt text last.version P := by
  have hversion := (latest_spec h hlast).2.2.1
  refine ⟨hversion.le, ?_⟩
  intro row hrow hr
  rw [latest_unique h hlast hrow (hr.trans hversion)]
  exact hP

theorem RowAt.weaken
    {P Q : KVRow → Prop}
    (h : store.RowAt text localVer P)
    (himp : ∀ row, P row → Q row) :
    store.RowAt text localVer Q :=
  ⟨h.1, fun row hrow hversion => himp row (h.2 row hrow hversion)⟩

/-- The fact about the latest row that a check of its version gives. -/
theorem RowAt.latest
    {last : KVRow} {P : KVRow → Prop}
    (h : store.RowAt text localVer P)
    (hn : store.Numbered)
    (hlast : store.latest text = some last)
    (hcurrent : localVer = store.count text) :
    P last := by
  refine h.2 last (List.mem_of_getLast? hlast) ?_
  rw [hcurrent]
  exact (latest_spec hn hlast).2.2.1

/-- Further rows do not touch the row at a version. -/
theorem RowAt.extends
    {P : KVRow → Prop}
    (h : store.RowAt text localVer P)
    (hext : Extends store store') :
    store'.RowAt text localVer P := by
  obtain ⟨more, hmore⟩ := hext.rows
  have hrows : store'.rowsOf text =
      store.rowsOf text ++ VersionedTable.rowsOf KVRow.key more text := by
    rw [rowsOf, hmore]
    exact List.filter_append _ _
  have hcount : store.count text ≤ store'.count text := by
    have hlength := congrArg List.length hrows
    rw [List.length_append] at hlength
    change (store.rowsOf text).length ≤ (store'.rowsOf text).length
    omega
  refine ⟨h.1.trans hcount, ?_⟩
  intro row hrow hversion
  obtain ⟨i, hi, rfl⟩ := List.getElem_of_mem hrow
  have hv := hext.numbered.versions.version_getElem (List.getElem?_eq_getElem hi)
  have hlt : i < (store.rowsOf text).length := by
    have := h.1
    change localVer ≤ (store.rowsOf text).length at this
    omega
  refine h.2 _ ?_ hversion
  have hget : (store'.rowsOf text)[i]? = (store.rowsOf text)[i]? := by
    rw [hrows, List.getElem?_append_left hlt]
  rw [List.getElem?_eq_getElem hi, List.getElem?_eq_getElem hlt] at hget
  rw [Option.some.inj hget]
  exact List.getElem_mem hlt

theorem Extends.openValue
    (hext : Extends store store')
    (value : List UInt8) :
    store'.openValue kv value = store.openValue kv value := by
  rw [BRReplicatedKVStore.openValue, BRReplicatedKVStore.openValue, hext.encrypted]

theorem Extends.openRemote
    (hext : Extends store store')
    (data : List UInt8) :
    store'.openRemote kv data = store.openRemote kv data := by
  rw [BRReplicatedKVStore.openRemote, BRReplicatedKVStore.openRemote, hext.encryptedReplication]

theorem Matches.extends
    (h : store.Matches kv server key version row)
    (hext : Extends store store') :
    store'.Matches kv server key version row := by
  rw [Matches] at h ⊢
  split at h
  · exact h
  · simp only [hext.openRemote, hext.openValue]
    exact h
  · exact h

theorem Matches.keeps
    (h : store.Matches kv server key version row)
    (hkeeps : server.Keeps server') :
    store.Matches kv server' key version row := by
  rw [Matches] at h ⊢
  split at h
  · rename_i hheld
    rw [hkeeps _ _ _ hheld]
    exact h
  · rename_i data hheld
    rw [hkeeps _ _ _ hheld]
    exact h
  · exact h.elim

/-- Matching only looks at the value and the flag of a row. -/
theorem Matches.congr
    {row' : KVRow}
    (h : store.Matches kv server key version row)
    (hvalue : row'.value = row.value)
    (hdeleted : row'.deleted = row.deleted) :
    store.Matches kv server key version row' := by
  rw [Matches] at h ⊢
  split at h
  · rw [hdeleted]
    exact h
  · rw [hdeleted, hvalue]
    exact h
  · exact h

/-! ## What an exchange carries -/

variable (kv) in
/-- The row has the value that was sent to the server. -/
def Sends (store : BRReplicatedKVStore) (value : List UInt8) (row : KVRow) : Prop :=
  row.deleted = false ∧ ∃ plain,
    store.openRemote kv value = some plain ∧ store.openValue kv row.value = .ok plain

variable (kv) in
/-- The fact that each stage of an exchange carries to its end. -/
def Carries (server : Server) (store : BRReplicatedKVStore) (key : String) :
    ClientExchange → Prop
  | .running (.start report) => server.Truthful key report
  | .running (.compare report _) => server.Truthful key report
  | .running (.record localVer version) =>
      store.RowAt (utf8String key) localVer (store.Matches kv server key version)
  | .running (.remove _ version) => server.held key version = some .tombstone
  | .running (.recordRemoved localVer version) =>
      store.RowAt (utf8String key) localVer (store.Matches kv server key version)
  | .running (.store _ value version) => ∃ data,
      server.held key version = some (.value data) ∧ store.openRemote kv data = some value
  | .running (.discard _) => True
  | .sent (.put key' value _) (.putting localVer) =>
      key' = key ∧ store.RowAt (utf8String key) localVer (store.Sends kv value)
  | .sent (.del key' _) (.deleting localVer) =>
      key' = key ∧ store.RowAt (utf8String key) localVer (fun row => row.deleted = true)
  | .sent (.get key' _) (.getting _) => key' = key
  | .sent _ _ => False
  | .answered (.putting localVer) answer => answer.err = none →
      store.RowAt (utf8String key) localVer (store.Matches kv server key answer.version)
  | .answered (.deleting localVer) answer => answer.err = none →
      store.RowAt (utf8String key) localVer (store.Matches kv server key answer.version)
  | .answered (.getting _) answer => answer.err = none →
      server.held key answer.version = some (.value answer.data)

/-- The fact survives rows that are added and versions that the server adds. -/
theorem Carries.mono
    {e : ClientExchange}
    (h : Carries kv server store key e)
    (hext : Extends store store')
    (hkeeps : server.Keeps server') :
    Carries kv server' store' key e := by
  have hmatches : ∀ version row, store.Matches kv server key version row →
      store'.Matches kv server' key version row :=
    fun version row hm => (hm.keeps hkeeps).extends hext
  have hrow : ∀ localVer version,
      store.RowAt (utf8String key) localVer (store.Matches kv server key version) →
      store'.RowAt (utf8String key) localVer (store'.Matches kv server' key version) :=
    fun localVer version hr => (hr.extends hext).weaken (hmatches version)
  cases e with
  | running point =>
      cases point with
      | start report =>
          exact fun herr => hkeeps _ _ _ (h herr)
      | compare report recorded =>
          exact fun herr => hkeeps _ _ _ (h herr)
      | record localVer version =>
          exact hrow _ _ h
      | remove localVer version =>
          exact hkeeps _ _ _ h
      | recordRemoved localVer version =>
          exact hrow _ _ h
      | store localVer value version =>
          obtain ⟨data, hheld, hopen⟩ := h
          exact ⟨data, hkeeps _ _ _ hheld, by rw [hext.openRemote, hopen]⟩
      | discard localVer =>
          trivial
  | sent call wait =>
      cases call <;> cases wait <;> try exact h.elim
      · refine ⟨h.1, (h.2.extends hext).weaken ?_⟩
        rintro row ⟨hdeleted, plain, hremote, hopen⟩
        exact ⟨hdeleted, plain, by rw [hext.openRemote, hremote],
          by rw [hext.openValue, hopen]⟩
      · exact ⟨h.1, h.2.extends hext⟩
      · exact h
  | answered wait answer =>
      cases wait with
      | deleting localVer =>
          exact fun herr => hrow _ _ (h herr)
      | putting localVer =>
          exact fun herr => hrow _ _ (h herr)
      | getting localVer =>
          exact fun herr => hkeeps _ _ _ (h herr)

/-- What a result of the kernel carries. -/
def CarriesResult (kv : KVPlatform) (server : Server) (store : BRReplicatedKVStore)
    (key : String) : SyncResult → Prop
  | .goto point => Carries kv server store key (.running point)
  | .ask call wait => Carries kv server store key (.sent call wait)
  | .complete _ => True
  | .throws _ => True

theorem openRemote_sealRemote
    (hcipher : Deciphers kv)
    (nonce value : List UInt8) :
    store.openRemote kv (store.sealRemote kv nonce value) = some value := by
  rw [BRReplicatedKVStore.openRemote, sealRemote]
  split
  · rw [hcipher]
  · rfl

/-- The decision carries the fact about the local side into the exchange. -/
theorem decideSync_carries
    {report : RemoteReport} {recorded : ℕ} {side : LocalSide}
    (hcipher : Deciphers kv)
    (h : store.Numbered)
    (htrue : server.Truthful key report)
    (hversion : ctx.versionStep = none)
    (hrow : ctx.rowStep = none)
    (hkeys : ctx.keysRead = none)
    (hside : store.localSide kv ctx key = .ok side) :
    CarriesResult kv server store key (decideSync key report recorded side) := by
  have hdeleted : side.localDeleted = true →
      store.RowAt (utf8String key) side.localVer (fun row => row.deleted = true) := by
    intro hd
    rcases localSide_ok h hversion hrow hkeys hside with
      ⟨-, rfl⟩ | ⟨row, plain, hlast, -, rfl⟩
    · cases hd
    · exact rowAt_latest h hlast hd
  have hsends : side.localDeleted ≠ true →
      store.RowAt (utf8String key) side.localVer (store.Sends kv side.localValue) := by
    intro hd
    rcases localSide_ok h hversion hrow hkeys hside with
      ⟨-, rfl⟩ | ⟨row, plain, hlast, hopen, rfl⟩
    · exact rowAt_zero h
    · exact rowAt_latest h hlast ⟨eq_false_of_ne_true hd, plain,
        openRemote_sealRemote hcipher _ _, hopen⟩
  rw [decideSync]
  split
  · trivial
  · trivial
  · split
    · rename_i hboth
      refine (hdeleted hboth.1).weaken ?_
      intro row hd
      rw [Matches, htrue hboth.2]
      exact hd
    · split
      · split
        · rename_i hd
          exact ⟨rfl, hdeleted hd⟩
        · rename_i hd
          exact ⟨rfl, hsends hd⟩
      · split
        · rename_i htomb
          exact htrue htomb
        · rfl

/-- The callback of a request carries on what the answer carries. -/
theorem syncAnswer_carries
    {wait : SyncWait} {answer : RemoteAnswer}
    (h : Carries kv server store key (.answered wait answer)) :
    CarriesResult kv server store key (syncAnswer kv store answer wait) := by
  cases wait with
  | deleting localVer =>
      rw [syncAnswer]
      split
      · trivial
      · trivial
      · rename_i herr
        exact h herr
  | putting localVer =>
      rw [syncAnswer]
      split
      · trivial
      · rename_i herr
        exact h herr
  | getting localVer =>
      rw [syncAnswer]
      split
      · trivial
      · rename_i herr
        split
        · rename_i value hopen
          exact ⟨answer.data, h herr, hopen⟩
        · trivial

/-- What the server answers carries on what the request carries. -/
theorem handle_carries
    {call : RemoteCall} {wait : SyncWait} {time v : ℕ} {r : Server × RemoteAnswer}
    (hdistinct : server.Distinct)
    (h : Carries kv server store key (.sent call wait))
    (hhandle : server.handle time v call = some r) :
    Carries kv r.1 store key (.answered wait r.2) := by
  obtain ⟨-, hkeeps, hheld⟩ := Server.handle_spec hdistinct hhandle
  cases call <;> cases wait <;> try exact h.elim
  · rename_i value _ localVer
    obtain ⟨rfl, hsends⟩ := h
    intro herr
    refine hsends.weaken ?_
    intro row hrow
    rw [Matches, hheld herr]
    exact hrow
  · obtain ⟨rfl, hdeleted⟩ := h
    intro herr
    refine hdeleted.weaken ?_
    intro row hrow
    rw [Matches, hheld herr]
    exact hrow
  · cases h
    exact hheld

/-! ## The rows of a client -/

variable (kv) in
/-- Every row that records a remote version matches what the server held there. -/
def RowsAgree (server : Server) (store : BRReplicatedKVStore) : Prop :=
  ∀ row ∈ store.rows, 0 < row.remoteVersion →
    store.Matches kv server row.key row.remoteVersion row

theorem RowsAgree.keeps
    (h : RowsAgree kv server store)
    (hkeeps : server.Keeps server') :
    RowsAgree kv server' store :=
  fun row hrow hpos => (h row hrow hpos).keeps hkeeps

/-- A write keeps the agreement if its row matches. -/
theorem RowsAgree.adds
    {w : Written}
    (h : RowsAgree kv server store)
    (hn : store.Numbered)
    (hadds : store.Adds text localVer row w)
    (hrow : 0 < row.remoteVersion → store.Matches kv server row.key row.remoteVersion row) :
    RowsAgree kv server w.1 := by
  have hext := hadds.extends hn
  rw [hadds.written] at hext ⊢
  intro r hr hpos
  rcases List.mem_append.mp hr with hr | hr
  · exact (h r hr hpos).extends hext
  · rw [List.mem_singleton.mp hr] at hpos ⊢
    exact (hrow hpos).extends hext

theorem Adds.latest
    {w : Written}
    (hadds : store.Adds text localVer row w) :
    w.1.latest text = some row := by
  rw [hadds.written, ← hadds.key]
  exact latest_push_self row

/-- A new row is found at its version. -/
theorem Adds.rowAt
    {w : Written} {P : KVRow → Prop}
    (hadds : store.Adds text localVer row w)
    (h : store.Numbered)
    (hP : P row) :
    w.1.RowAt text w.2.1 P := by
  have hrow := rowAt_latest (hadds.numbered h) hadds.latest hP
  rw [hadds.version] at hrow
  rw [hadds.written] at hrow ⊢
  exact hrow

/-- Recording a version that the row at the local version matches. -/
theorem setRemoteVersion_agrees
    {w : Written}
    (h : store.Numbered)
    (hkey : utf8String key = key)
    (hrows : RowsAgree kv server store)
    (hmatches : store.RowAt (utf8String key) localVer (store.Matches kv server key version))
    (hok : store.setRemoteVersion kv ctx key localVer version = .ok w) :
    RowsAgree kv server w.1 ∧
      ∃ row, w.1.latest (utf8String key) = some row ∧ row.remoteVersion = version := by
  obtain ⟨last, hlast, hadds⟩ := setRemoteVersion_ok h hok
  have hlastMatches := hmatches.latest h hlast hadds.current
  refine ⟨hrows.adds h hadds ?_, _, hadds.latest, rfl⟩
  intro _
  have hlastKey := (latest_spec h hlast).2.1
  rw [hkey] at hlastKey
  dsimp only
  rw [hlastKey]
  exact hlastMatches.congr rfl rfl

theorem txn_checkVersion_ne_notFound
    {fn : ℕ → Except KVFault Written}
    (hfn : ∀ v, fn v ≠ .error (.thrown .notFound)) :
    txn ctx (store.checkVersion ctx key localVer >>= fn) ≠ .error (.thrown .notFound) := by
  rw [txn]
  rcases checkErr_cases ctx.code SQLITE_NULL with hcode | hcode
  · rw [hcode, Machine.ok_bind, checkVersion, _localVersion, checkErr_row, Machine.ok_bind,
      Machine.ok_bind]
    split
    · intro h
      cases h
    · rw [Machine.ok_bind]
      exact hfn _
  · rw [hcode]
    intro h
    cases h

theorem int64_ne_notFound
    {v : ℕ} {fn : ℕ → Except KVFault Written}
    (hfn : ∀ w, fn w ≠ .error (.thrown .notFound)) :
    (int64 v >>= fn) ≠ .error (.thrown .notFound) := by
  rw [int64]
  split
  · rw [Machine.ok_bind]
    exact hfn v
  · intro h
    cases h

theorem insertSelect_ne_notFound
    {rows : List KVRow} {v : ℕ} {copy : KVRow → KVRow} {fn : List KVRow → Written} :
    (insertSelect rows text v copy >>= fun rows => .ok (fn rows)) ≠
      .error (.thrown .notFound) := by
  intro h
  rw [Machine.bind_eq_error] at h
  rcases h with h | ⟨rows', -, h⟩
  · rw [insertSelect] at h
    obtain ⟨r, x, -, -, hx⟩ := Machine.foldlM_error (I := fun _ => True)
      (fun _ _ _ _ _ _ => trivial) trivial h
    rw [insert, Machine.bind_eq_error] at hx
    rcases hx with hx | ⟨-, -, hx⟩
    · rcases checkErr_cases (if (selectVersion r (copy x).key (copy x).version).isEmpty then
        SQLITE_DONE else SQLITE_CONSTRAINT) SQLITE_NULL with hc | hc
      · rw [hc] at hx
        cases hx
      · rw [hc] at hx
        cases hx
    · cases hx
  · cases h

/-- `setRemoteVersion` never throws `notFound`. -/
theorem setRemoteVersion_ne_notFound :
    store.setRemoteVersion kv ctx key localVer version ≠ .error (.thrown .notFound) := by
  rw [setRemoteVersion, checkKey]
  split
  · intro h
    cases h
  · rw [Machine.ok_bind]
    split
    · intro h
      cases h
    · refine txn_checkVersion_ne_notFound (fun v => ?_)
      refine int64_ne_notFound (fun newVer => ?_)
      refine int64_ne_notFound (fun remote => ?_)
      refine int64_ne_notFound (fun cur => ?_)
      exact insertSelect_ne_notFound

/-- `_del` only throws `notFound` for version 0. -/
theorem _del_notFound
    (h : store._del ctx key localVer = .error (.thrown .notFound)) :
    localVer = 0 := by
  rw [_del] at h
  split at h
  · assumption
  · refine absurd h (txn_checkVersion_ne_notFound (fun v => ?_))
    refine int64_ne_notFound (fun newVer => ?_)
    refine int64_ne_notFound (fun cur => ?_)
    exact insertSelect_ne_notFound

/-- **Kernel lemma**: a transaction of an exchange keeps the agreement of the rows
and carries its fact on. -/
theorem syncStep_carries
    {point : SyncPoint} {r : BRReplicatedKVStore × SyncResult}
    (hcipher : Deciphers kv)
    (h : store.Numbered)
    (hkey : utf8String key = key)
    (hversion : ctx.versionStep = none)
    (hrow : ctx.rowStep = none)
    (hkeys : ctx.keysRead = none)
    (hrows : RowsAgree kv server store)
    (hcarries : Carries kv server store key (.running point))
    (hok : syncStep kv store ctx key point = .ok r) :
    RowsAgree kv server r.1 ∧ CarriesResult kv server r.1 key r.2 := by
  cases point with
  | start report =>
      rw [syncStep] at hok
      split at hok
      · cases hok
        exact ⟨hrows, trivial⟩
      · split at hok
        · split at hok
          · cases hok
            exact ⟨hrows, trivial⟩
          · cases hok
            exact ⟨hrows, hcarries⟩
        · cases hok
          exact ⟨hrows, trivial⟩
        · cases hok
  | compare report recorded =>
      rw [syncStep] at hok
      split at hok
      · rename_i side hside
        cases hok
        exact ⟨hrows, decideSync_carries hcipher h hcarries hversion hrow hkeys hside⟩
      · cases hok
        exact ⟨hrows, trivial⟩
      · cases hok
  | record localVer version =>
      rcases recorded_ok hok with ⟨w, hw, rfl⟩ | ⟨e, -, rfl⟩
      · exact ⟨(setRemoteVersion_agrees h hkey hrows hcarries hw).1, trivial⟩
      · exact ⟨hrows, trivial⟩
  | remove localVer version =>
      rw [syncStep] at hok
      split at hok
      · rename_i w hw
        cases hok
        obtain ⟨last, -, hadds⟩ := _del_ok h hw
        refine ⟨hrows.adds h hadds (fun hpos => absurd hpos (lt_irrefl 0)), ?_⟩
        refine hadds.rowAt h ?_
        rw [Matches, hcarries]
      · rcases recorded_ok hok with ⟨w, hw, -⟩ | ⟨e, -, rfl⟩
        · cases hw
        · exact ⟨hrows, trivial⟩
  | recordRemoved localVer version =>
      rcases recorded_ok hok with ⟨w, hw, rfl⟩ | ⟨e, -, rfl⟩
      · exact ⟨(setRemoteVersion_agrees h hkey hrows hcarries hw).1, trivial⟩
      · exact ⟨hrows, trivial⟩
  | store localVer value version =>
      rw [syncStep] at hok
      split at hok
      · rename_i w hw
        cases hok
        have hadds := _set_ok h hw
        have hext := hadds.extends h
        obtain ⟨data, hheld, hopen⟩ := hcarries
        refine ⟨hrows.adds h hadds (fun hpos => absurd hpos (lt_irrefl 0)), ?_⟩
        refine hadds.rowAt h ?_
        rw [Matches, hheld]
        exact ⟨rfl, value, by rw [hext.openRemote, hopen],
          by rw [hext.openValue, openValue_sealValue hcipher]⟩
      · rcases recorded_ok hok with ⟨w, hw, -⟩ | ⟨e, -, rfl⟩
        · cases hw
        · exact ⟨hrows, trivial⟩
  | discard localVer =>
      rw [syncStep] at hok
      split at hok
      · rename_i w hw
        cases hok
        rw [Machine.bind_eq_ok] at hw
        obtain ⟨-, -, hdel⟩ := hw
        obtain ⟨last, -, hadds⟩ := _del_ok h hdel
        exact ⟨hrows.adds h hadds (fun hpos => absurd hpos (lt_irrefl 0)), trivial⟩
      · cases hok
        exact ⟨hrows, trivial⟩
      · cases hok

/-- A recorded version that is not zero is that of the latest row. -/
theorem latest_of_remoteVersion
    {version : ℕ}
    (h : store.Numbered)
    (hversion : ctx.versionStep = none)
    (hread : store.remoteVersion kv ctx key = .ok version)
    (hpos : 0 < version) :
    ∃ row, store.latest (utf8String key) = some row ∧ row.remoteVersion = version := by
  rw [remoteVersion, Machine.bind_eq_ok] at hread
  obtain ⟨-, -, hread⟩ := hread
  rw [txn_eq_ok, hversion, stepSelect, selectLatest_eq h] at hread
  dsimp only at hread
  rw [checkErr_row, Machine.ok_bind] at hread
  obtain ⟨-, hread⟩ := hread
  cases hlast : store.latest (utf8String key) with
  | none =>
      rw [hlast] at hread
      cases hread
      rw [columnInt64, Option.elim_none] at hpos
      omega
  | some row =>
      rw [hlast] at hread
      cases hread
      exact ⟨row, rfl, rfl⟩

/-- How a transaction completes without an error: the latest row has the version
exchanged, or a missing row was to be removed. -/
theorem syncStep_completes
    {point : SyncPoint} {r : BRReplicatedKVStore × SyncResult}
    (h : store.Numbered)
    (hversion : ctx.versionStep = none)
    (hok : syncStep kv store ctx key point = .ok r)
    (hdone : r.2 = .complete none) :
    (∃ row, r.1.latest (utf8String key) = some row ∧
        point.exchanged = some row.remoteVersion) ∨
      ∃ version, point = .remove 0 version ∧ r.1 = store := by
  have hremote : ∀ localVer remoteVer w,
      store.setRemoteVersion kv ctx key localVer remoteVer = .ok w →
      ∃ row, w.1.latest (utf8String key) = some row ∧ remoteVer = row.remoteVersion := by
    intro localVer remoteVer w hw
    obtain ⟨last, -, hadds⟩ := setRemoteVersion_ok h hw
    exact ⟨_, hadds.latest, rfl⟩
  cases point with
  | start report =>
      rw [syncStep] at hok
      split at hok
      · cases hok
        cases hdone
      · split at hok
        · rename_i recordedVersion hread
          split at hok
          · rename_i huptodate
            cases hok
            obtain ⟨-, hpos, heq⟩ := huptodate
            obtain ⟨row, hlast, hrow⟩ :=
              latest_of_remoteVersion h hversion hread (by rw [heq]; exact hpos)
            exact .inl ⟨row, hlast, congrArg some (hrow.trans heq).symm⟩
          · cases hok
            cases hdone
        · cases hok
          cases hdone
        · cases hok
  | compare report recorded =>
      rw [syncStep] at hok
      split at hok
      · cases hok
        dsimp only at hdone
        rw [decideSync] at hdone
        repeat' split at hdone
        all_goals cases hdone
      · cases hok
        cases hdone
      · cases hok
  | record localVer version =>
      rcases recorded_ok hok with ⟨w, hw, rfl⟩ | ⟨e, -, rfl⟩
      · obtain ⟨row, hlast, rfl⟩ := hremote _ _ _ hw
        exact .inl ⟨row, hlast, rfl⟩
      · simp at hdone
  | remove localVer version =>
      rw [syncStep] at hok
      split at hok
      · cases hok
        cases hdone
      · rename_i fault hfault
        rcases recorded_ok hok with ⟨w, hw, -⟩ | ⟨e, he, rfl⟩
        · cases hw
        · cases he
          by_cases hmissing : e = .notFound
          · subst hmissing
            rw [_del_notFound hfault]
            exact .inr ⟨version, rfl, rfl⟩
          · simp [hmissing] at hdone
  | recordRemoved localVer version =>
      rcases recorded_ok hok with ⟨w, hw, rfl⟩ | ⟨e, he, rfl⟩
      · obtain ⟨row, hlast, rfl⟩ := hremote _ _ _ hw
        exact .inl ⟨row, hlast, rfl⟩
      · have hne : e ≠ .notFound := by
          rintro rfl
          exact setRemoteVersion_ne_notFound he
        simp [hne] at hdone
  | store localVer value version =>
      rw [syncStep] at hok
      split at hok
      · cases hok
        cases hdone
      · rcases recorded_ok hok with ⟨w, hw, -⟩ | ⟨e, -, rfl⟩
        · cases hw
        · simp at hdone
  | discard localVer =>
      rw [syncStep] at hok
      split at hok
      · cases hok
        cases hdone
      · cases hok
        cases hdone
      · cases hok

end BRReplicatedKVStore

/-! ## Runs -/

namespace Replication

open BRReplicatedKVStore

variable {kv : KVPlatform} {s s' : Replication} {os : List ReplicationOutput} {i j : ℕ}
  {key : String}

/-- The server holds a value of the key. -/
def Live (current : Option ServerEntry) : Prop :=
  ∃ e data, current = some e ∧ e.content = .value data

/-- An exchange that completes without an error, for a key that exists locally or is
live on the server, has recorded the version exchanged in the latest row, or the key
is deleted locally and missing on the server. -/
def Settled (exchanged : Option ℕ) (row : Option KVRow) (current : Option ServerEntry) : Prop :=
  row.isSome = true ∨ Live current →
    (∃ r, row = some r ∧ exchanged = some r.remoteVersion) ∨
      ((∃ r, row = some r ∧ r.deleted = true) ∧ current = none)

def OutputSettled : ReplicationOutput → Prop
  | .completed _ _ none exchanged row current => Settled exchanged row current
  | _ => True

/-- The condition on an event.  Keys have no NUL.  When a row that was missing is to
be removed, the key is still missing on both sides, or its row records that very
version; when the server answers that a deleted key is missing, it still is, and the
key is still deleted. -/
def Undisturbed (s : Replication) : ReplicationEvent → Prop
  | .report _ key _ => utf8String key = key
  | .transaction i j _ => ∀ key version,
      (s.clients i).exchanges[j]? = some (key, .running (.remove 0 version)) →
      (s.row i key = none ∧ ¬ Live (s.server.current key)) ∨
        ∃ r, s.row i key = some r ∧ r.remoteVersion = version
  | .receive i j => ∀ key localVer answer,
      (s.clients i).exchanges[j]? = some (key, .answered (.deleting localVer) answer) →
      answer.err = some .notFound →
      (∃ r, s.row i key = some r ∧ r.deleted = true) ∧ s.server.current key = none
  | _ => True

variable (kv) in
/-- The rows of all clients agree with the server, and every exchange carries the
fact that its end needs. -/
structure Agreement (s : Replication) : Prop where
  numbered : s.AllNumbered
  rows : ∀ k, RowsAgree kv s.server (s.clients k).store
  distinct : s.server.Distinct
  exchanges : ∀ k, ∀ p ∈ (s.clients k).exchanges,
    utf8String p.1 = p.1 ∧ Carries kv s.server (s.clients k).store p.1 p.2

theorem exchanges_setStore
    (store : BRReplicatedKVStore) (k : ℕ) :
    ((s.setStore i store).clients k).exchanges = (s.clients k).exchanges := by
  by_cases h : k = i
  · subst h
    simp [setStore]
  · simp [setStore, h]

theorem exchanges_setExchanges
    (exchanges : List (String × ClientExchange)) (k : ℕ) :
    ((s.setExchanges i exchanges).clients k).exchanges =
      if k = i then exchanges else (s.clients k).exchanges := by
  by_cases h : k = i
  · subst h
    simp [setExchanges]
  · simp [setExchanges, h]

theorem Agreement.setStore
    {store : BRReplicatedKVStore}
    (h : s.Agreement kv)
    (hext : Extends (s.clients i).store store)
    (hrows : RowsAgree kv s.server store) :
    (s.setStore i store).Agreement kv where
  numbered := h.numbered.setStore hext.numbered
  rows := by
    intro k
    rw [store_setStore]
    split
    · exact hrows
    · exact h.rows k
  distinct := h.distinct
  exchanges := by
    intro k p hp
    rw [exchanges_setStore] at hp
    obtain ⟨hkey, hcarries⟩ := h.exchanges k p hp
    refine ⟨hkey, ?_⟩
    rw [store_setStore]
    split
    · rename_i hk
      subst hk
      exact hcarries.mono hext (Server.keeps_refl _)
    · exact hcarries

theorem Agreement.setExchanges
    {exchanges : List (String × ClientExchange)}
    (h : s.Agreement kv)
    (hexchanges : ∀ p ∈ exchanges,
      utf8String p.1 = p.1 ∧ Carries kv s.server (s.clients i).store p.1 p.2) :
    (s.setExchanges i exchanges).Agreement kv where
  numbered := h.numbered.setExchanges
  rows := by
    intro k
    rw [store_setExchanges]
    exact h.rows k
  distinct := h.distinct
  exchanges := by
    intro k p hp
    rw [exchanges_setExchanges] at hp
    rw [store_setExchanges]
    split at hp
    · rename_i hk
      subst hk
      exact hexchanges p hp
    · exact h.exchanges k p hp

theorem Agreement.goOn
    {e : ClientExchange}
    (h : s.Agreement kv)
    (hkey : utf8String key = key)
    (hcarries : Carries kv s.server (s.clients i).store key e) :
    (s.goOn i j key e).Agreement kv := by
  refine h.setExchanges ?_
  intro p hp
  rcases List.mem_or_eq_of_mem_set hp with hp | rfl
  · exact h.exchanges i p hp
  · exact ⟨hkey, hcarries⟩

theorem Agreement.leave
    (h : s.Agreement kv) :
    (s.leave i j).Agreement kv :=
  h.setExchanges (fun p hp => h.exchanges i p (List.mem_of_mem_eraseIdx hp))

theorem Agreement.result
    {report : RemoteReport} {exchanged : Option ℕ} {r : SyncResult}
    (h : s.Agreement kv)
    (hkey : utf8String key = key)
    (hcarries : CarriesResult kv s.server (s.clients i).store key r) :
    (s.result i j key report exchanged r).1.Agreement kv := by
  cases r with
  | goto point =>
      exact h.goOn hkey hcarries
  | ask call wait =>
      exact h.goOn hkey hcarries
  | complete e =>
      exact h.leave
  | throws e =>
      exact h.leave

theorem Agreement.setServer
    {server : Server}
    (h : s.Agreement kv)
    (hdistinct : server.Distinct)
    (hkeeps : s.server.Keeps server) :
    Agreement kv { s with server := server } where
  numbered := h.numbered
  rows := fun k => (h.rows k).keeps hkeeps
  distinct := hdistinct
  exchanges := by
    intro k p hp
    obtain ⟨hkey, hcarries⟩ := h.exchanges k p hp
    exact ⟨hkey, hcarries.mono (extends_refl (h.numbered k)) hkeeps⟩

/-- A piece of an exchange settles, if it does where it completes. -/
theorem result_settled
    {report : RemoteReport} {exchanged : Option ℕ} {r : SyncResult}
    (hdone : r = .complete none → Settled exchanged (s.row i key) (s.server.current key)) :
    ∀ o ∈ (s.result i j key report exchanged r).2, OutputSettled o := by
  rcases r with point | ⟨call, wait⟩ | (- | e) | e
  · exact List.forall_mem_nil _
  · exact List.forall_mem_singleton.mpr trivial
  · exact List.forall_mem_singleton.mpr (hdone rfl)
  · exact List.forall_mem_singleton.mpr trivial
  · exact List.forall_mem_nil _

theorem Agreement.write
    {saved : Except KVFault Written}
    (h : s.Agreement kv)
    (hsaved : ∀ w, saved = .ok w → ∃ text localVer row,
      (s.clients i).store.Adds text localVer row w ∧ row.remoteVersion = 0)
    (hstep : s.written i saved = .ok (s', os)) :
    s'.Agreement kv ∧ ∀ o ∈ os, OutputSettled o := by
  rcases written_ok hstep with ⟨rfl, ⟨w, hw, rfl⟩ | rfl⟩
  · obtain ⟨text, localVer, row, hadds, hzero⟩ := hsaved w hw
    refine ⟨h.setStore (hadds.extends (h.numbered i)) ?_, List.forall_mem_nil _⟩
    exact (h.rows i).adds (h.numbered i) hadds (fun hpos => absurd hpos (by omega))
  · exact ⟨h, List.forall_mem_nil _⟩

theorem Agreement.stepReport
    {report : RemoteReport}
    (h : s.Agreement kv)
    (hkey : utf8String key = key)
    (hstep : step kv s (.report i key report) = .ok (s', os)) :
    s'.Agreement kv ∧ ∀ o ∈ os, OutputSettled o := by
  rw [Replication.step] at hstep
  split at hstep
  · rename_i hreport
    cases hstep
    refine ⟨h.setExchanges ?_, List.forall_mem_nil _⟩
    intro p hp
    rcases List.mem_append.mp hp with hp | hp
    · exact h.exchanges i p hp
    · rw [List.mem_singleton.mp hp]
      exact ⟨hkey, h.distinct.truthful hreport⟩
  · cases hstep
    exact ⟨h, List.forall_mem_nil _⟩

/-- A transaction keeps the agreement, and an exchange that it completes has
settled. -/
theorem Agreement.stepTransaction
    {ctx : TxnContext}
    (hcipher : Deciphers kv)
    (h : s.Agreement kv)
    (hguard : s.Undisturbed (.transaction i j ctx))
    (hstep : step kv s (.transaction i j ctx) = .ok (s', os)) :
    s'.Agreement kv ∧ ∀ o ∈ os, OutputSettled o := by
  rw [Replication.step] at hstep
  split at hstep
  · rename_i key point hexchange
    split at hstep
    · rename_i r hr
      have hn := h.numbered i
      obtain ⟨hkey, hcarries⟩ := h.exchanges i _ (List.mem_of_getElem? hexchange)
      obtain ⟨hrows, hresult⟩ :=
        syncStep_carries hcipher hn hkey rfl rfl rfl (h.rows i) hcarries hr
      have hstored := h.setStore (syncStep_extends hn hr) hrows
      have hstore : ((s.setStore i r.1).clients i).store = r.1 := by
        rw [store_setStore, if_pos rfl]
      have hs' : _ = s' := congrArg Prod.fst (Except.ok.inj hstep)
      have hos : _ = os := congrArg Prod.snd (Except.ok.inj hstep)
      rw [← hs', ← hos]
      refine ⟨hstored.result hkey (by rw [hstore]; exact hresult), result_settled ?_⟩
      intro hdone _
      rw [row, hstore]
      rcases syncStep_completes hn rfl hr hdone with hlatest | ⟨version, rfl, hsame⟩
      · exact .inl hlatest
      · rename_i hexists
        rw [row, hstore, hsame] at hexists
        rw [hsame]
        rcases hguard key version hexchange with ⟨hmissing, hdead⟩ | ⟨row, hrow, hversion⟩
        · have hnone : (s.clients i).store.latest (utf8String key) = none := hmissing
          rcases hexists with hsome | hlive
          · rw [hnone] at hsome
            cases hsome
          · exact absurd hlive hdead
        · exact .inl ⟨row, hrow, congrArg some hversion.symm⟩
    · cases hstep
  · cases hstep
    exact ⟨h, List.forall_mem_nil _⟩

theorem Agreement.stepServe
    {version : ℕ}
    (h : s.Agreement kv)
    (hstep : step kv s (.serve i j version) = .ok (s', os)) :
    s'.Agreement kv ∧ ∀ o ∈ os, OutputSettled o := by
  rw [Replication.step] at hstep
  split at hstep
  · rename_i key call wait hexchange
    split at hstep
    · rename_i r hr
      cases hstep
      obtain ⟨hkey, hcarries⟩ := h.exchanges i _ (List.mem_of_getElem? hexchange)
      obtain ⟨hdistinct, hkeeps, -⟩ := Server.handle_spec h.distinct hr
      have hserver := h.setServer hdistinct hkeeps
      exact ⟨hserver.goOn hkey (handle_carries h.distinct hcarries hr),
        List.forall_mem_nil _⟩
    · cases hstep
      exact ⟨h, List.forall_mem_nil _⟩
  · cases hstep
    exact ⟨h, List.forall_mem_nil _⟩

/-- The answer to a request that is lost says nothing about the server. -/
theorem carries_refusal
    {server : Server} {store : BRReplicatedKVStore} (wait : SyncWait) :
    Carries kv server store key (.answered wait (Server.refusal .unknown)) := by
  cases wait with
  | deleting localVer =>
      exact fun herr => by cases herr
  | putting localVer =>
      exact fun herr => by cases herr
  | getting localVer =>
      exact fun herr => by cases herr

theorem Agreement.stepLose
    (h : s.Agreement kv)
    (hstep : step kv s (.lose i j) = .ok (s', os)) :
    s'.Agreement kv ∧ ∀ o ∈ os, OutputSettled o := by
  rw [Replication.step] at hstep
  split at hstep
  · rename_i hexchange
    cases hstep
    have hkey := (h.exchanges i _ (List.mem_of_getElem? hexchange)).1
    exact ⟨h.goOn hkey (carries_refusal _), List.forall_mem_nil _⟩
  · rename_i hexchange
    cases hstep
    have hkey := (h.exchanges i _ (List.mem_of_getElem? hexchange)).1
    exact ⟨h.goOn hkey (carries_refusal _), List.forall_mem_nil _⟩
  · cases hstep
    exact ⟨h, List.forall_mem_nil _⟩

/-- An answer keeps the agreement, and an exchange that it completes has settled. -/
theorem Agreement.stepReceive
    (h : s.Agreement kv)
    (hguard : s.Undisturbed (.receive i j))
    (hstep : step kv s (.receive i j) = .ok (s', os)) :
    s'.Agreement kv ∧ ∀ o ∈ os, OutputSettled o := by
  rw [Replication.step] at hstep
  split at hstep
  · rename_i key wait answer hexchange
    obtain ⟨hkey, hcarries⟩ := h.exchanges i _ (List.mem_of_getElem? hexchange)
    have hs' : _ = s' := congrArg Prod.fst (Except.ok.inj hstep)
    have hos : _ = os := congrArg Prod.snd (Except.ok.inj hstep)
    rw [← hs', ← hos]
    refine ⟨h.result hkey (syncAnswer_carries hcarries), result_settled ?_⟩
    intro hdone _
    right
    cases wait with
    | deleting localVer =>
        rw [syncAnswer] at hdone
        split at hdone
        · rename_i herr
          exact hguard key localVer answer hexchange herr
        · cases hdone
        · cases hdone
    | putting localVer =>
        rw [syncAnswer] at hdone
        split at hdone <;> cases hdone
    | getting localVer =>
        rw [syncAnswer] at hdone
        split at hdone
        · cases hdone
        · split at hdone <;> cases hdone
  · cases hstep
    exact ⟨h, List.forall_mem_nil _⟩

/-- **Step lemma**: an event keeps the agreement, and an undisturbed one settles. -/
theorem Agreement.step
    {event : ReplicationEvent}
    (hcipher : Deciphers kv)
    (h : s.Agreement kv)
    (hguard : s.Undisturbed event)
    (hstep : step kv s event = .ok (s', os)) :
    s'.Agreement kv ∧ ∀ o ∈ os, OutputSettled o := by
  cases event with
  | tick =>
      cases hstep
      exact ⟨⟨h.numbered, h.rows, h.distinct, h.exchanges⟩, List.forall_mem_nil _⟩
  | running k b =>
      cases hstep
      have hn := h.numbered k
      refine ⟨h.setStore ⟨rfl, rfl, ⟨[], (List.append_nil _).symm⟩, hn.versions, hn.version_lt⟩ ?_,
        List.forall_mem_nil _⟩
      exact h.rows k
  | set k ctx key value localVer =>
      exact h.write (fun w hw => ⟨_, _, _, _set_ok (h.numbered k) hw, rfl⟩) hstep
  | del k ctx key localVer =>
      refine h.write (fun w hw => ?_) hstep
      obtain ⟨last, -, hadds⟩ := _del_ok (h.numbered k) hw
      exact ⟨_, _, _, hadds, rfl⟩
  | report k key report => exact h.stepReport hguard hstep
  | transaction k j ctx => exact h.stepTransaction hcipher hguard hstep
  | serve k j version => exact h.stepServe hstep
  | lose k j => exact h.stepLose hstep
  | receive k j => exact h.stepReceive hguard hstep

/-- **Replication agreement**: in an undisturbed run of clients that start without
rows, every row that records a remote version matches what the server held at that
version, and every exchange that completes without an error has settled. -/
theorem run_agrees
    {events : List ReplicationEvent} {log : List ReplicationOutput}
    (hcipher : Deciphers kv)
    (hempty : ∀ k, (s.clients k).store.rows = [] ∧ (s.clients k).exchanges = [])
    (hdistinct : s.server.Distinct)
    (hguard : Machine.Guarded (step kv) Undisturbed s events)
    (hrun : Machine.run (step kv) s events = .ok (s', log)) :
    (∀ k, ∀ row ∈ (s'.clients k).store.rows, 0 < row.remoteVersion →
      (s'.clients k).store.Matches kv s'.server row.key row.remoteVersion row) ∧
    ∀ k key exchanged row current, .completed k key none exchanged row current ∈ log →
      Settled exchanged row current := by
  have hstart : s.Agreement kv := by
    have hnumbered : ∀ k, (s.clients k).store.Numbered := by
      intro k
      have hholds : (s.clients k).store.Holds kv [] := holds_of_empty (hempty k).1
      exact hholds.numbered
    refine ⟨hnumbered, ?_, hdistinct, ?_⟩
    · intro k row hrow
      rw [(hempty k).1] at hrow
      cases hrow
    · intro k p hp
      rw [(hempty k).2] at hp
      cases hp
  have hstep : ∀ s log event s' os,
      s.Agreement kv ∧ (∀ o ∈ log, OutputSettled o) → s.Undisturbed event →
      Replication.step kv s event = .ok (s', os) →
      s'.Agreement kv ∧ ∀ o ∈ log ++ os, OutputSettled o := by
    rintro s log event s' os ⟨h, hlog⟩ hguard hs
    obtain ⟨h', hos⟩ := h.step hcipher hguard hs
    refine ⟨h', ?_⟩
    intro o ho
    rcases List.mem_append.mp ho with ho | ho
    · exact hlog o ho
    · exact hos o ho
  have hinv := Machine.run_invariant hstep
    (⟨hstart, List.forall_mem_nil _⟩ : s.Agreement kv ∧ ∀ o ∈ [], OutputSettled o) hguard hrun
  refine ⟨hinv.1.rows, ?_⟩
  intro k key exchanged row current ho
  exact hinv.2 _ ho

/-- A local write crosses the exchange of a deleted key: the server answers that the
key is missing, and the exchange completes although the key is live locally and
nothing was exchanged. -/
theorem not_run_agrees :
    (Machine.run (step samplePlatform) blank
      [.set 0 {} "ab" [7] 0, .del 0 {} "ab" 1, .report 0 "ab" unknownKey,
        .transaction 0 0 {}, .transaction 0 0 {}, .serve 0 0 0,
        .set 0 {} "ab" [8] 2, .receive 0 0]).map (fun r => r.2.getLast?) =
      .ok (some (.completed 0 "ab" none none
        (some { version := 3, key := "ab", value := [0, 8], time := 0, deleted := false })
        none)) := by
  rfl

/-- A deleted key that the server misses, left alone until its answer arrives. -/
def removalRun : List ReplicationEvent :=
  [.set 0 {} "ab" [7] 0, .del 0 {} "ab" 1, .report 0 "ab" unknownKey,
    .transaction 0 0 {}, .transaction 0 0 {}, .serve 0 0 0, .receive 0 0]

theorem run_agrees_removal :
    ∃ s' log, Machine.run (step samplePlatform) blank removalRun = .ok (s', log) ∧
      (∀ k, ∀ row ∈ (s'.clients k).store.rows, 0 < row.remoteVersion →
        (s'.clients k).store.Matches samplePlatform s'.server row.key row.remoteVersion row) ∧
      ∀ k key exchanged row current, .completed k key none exchanged row current ∈ log →
        Settled exchanged row current := by
  have hdistinct : blank.server.Distinct := fun _ => List.nodup_nil
  have hguard : Machine.Guarded (step samplePlatform) Undisturbed blank removalRun := by
    refine Machine.guarded_cons trivial rfl ?_
    refine Machine.guarded_cons trivial rfl ?_
    refine Machine.guarded_cons rfl rfl ?_
    refine Machine.guarded_cons ?_ rfl ?_
    · intro key version hexchange
      cases hexchange
    refine Machine.guarded_cons ?_ rfl ?_
    · intro key version hexchange
      cases hexchange
    refine Machine.guarded_cons trivial rfl ?_
    refine Machine.guarded_cons ?_ rfl trivial
    intro key localVer answer hexchange _
    cases hexchange
    exact ⟨⟨_, rfl, rfl⟩, rfl⟩
  exact ⟨_, _, rfl, run_agrees deciphers_sample (fun k => ⟨rfl, rfl⟩) hdistinct hguard rfl⟩

end Replication

end BreadwalletCore
