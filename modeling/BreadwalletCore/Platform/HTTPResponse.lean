import BreadwalletCore.Data.Machine

/-!
# An asynchronous HTTP response

`provide`, `kill` and `done` of a `BRHTTPResponse` that was created with
`init(async:)`.  The calls come from any threads; a critical section, and the
part of `provide` between its two sections, is one step.

`objc_sync_enter` is recursive, so a thread that has left the lock held can
enter once more.  `provide` and `kill` return without `objc_sync_exit` when the
response is done already.
-/

namespace BreadwalletCore

/-- What is sent. -/
structure ResponseFields where
  statusCode : Option ℤ := none
  statusReason : Option String := none
  headers : Option (List (String × List String)) := none
  body : Option (List UInt8) := none
deriving DecidableEq

/-- The three forms of `provide`.  The JSON object is `nil`, or it is serialized
or not. -/
inductive ProvideForm
  | status (status : ℤ)
  | json (status : ℤ) (json : Option (Option (List UInt8)))
  | data (status : ℤ) (data : List UInt8) (contentType : String)
deriving DecidableEq

/-- A call that finishes the response. -/
inductive ResponseCall
  | provide (form : ProvideForm)
  | kill
deriving DecidableEq

/-- Where a call is. -/
inductive CallStage
  | start
  /-- between the critical sections, in front of the fields -/
  | filling
  /-- between the critical sections, behind the fields -/
  | notifying
  | completed
  /-- returned because the response was done -/
  | refused
deriving DecidableEq

/-- `BRHTTPResponse`, with the stage of each call and the thread that holds the
lock between two steps. -/
structure BRHTTPResponse where
  fields : ResponseFields := {}
  onDone : Bool := false
  isDone : Bool := false
  isKilled : Bool := false
  owner : Option ℕ := none
  stages : ℕ → CallStage := fun _ => .start
  doneReturned : Bool := false

/-- An invocation of `onDone`, with what `send` finds then. -/
structure Firing where
  fields : ResponseFields
  isKilled : Bool
deriving DecidableEq

/-- The calls: `done` on one thread, the others with theirs. -/
structure ResponseCalls where
  doneThread : ℕ
  others : List (ℕ × ResponseCall)

/-- Which call goes on. -/
inductive CallId
  | done
  | other (i : ℕ)
deriving DecidableEq

/-- The call has to wait, or it has returned. -/
inductive NotReady
  | notReady
deriving DecidableEq

/-- What `provide` sets between its critical sections. -/
def ProvideForm.fill (reasonMap : ℤ → Option String) (r : ResponseFields) :
    ProvideForm → ResponseFields
  | .status code | .json code none =>
      { r with statusCode := some code, statusReason := reasonMap code }
  | .json _ (some none) => { r with statusCode := some 500, statusReason := reasonMap 500 }
  | .json code (some (some jsonData)) =>
      { statusCode := some code
        statusReason := reasonMap code
        headers := some [("Content-Type", ["application/json"])]
        body := some jsonData }
  | .data code bytes contentType =>
      { statusCode := some code
        statusReason := reasonMap code
        headers := some [("Content-Type", [contentType])]
        body := some bytes }

namespace BRHTTPResponse

/-- The thread can enter the lock. -/
def canEnter (r : BRHTTPResponse) (thread : ℕ) : Bool :=
  r.owner = none || r.owner = some thread

/-- `if self.onDone != nil { self.onDone!() }` -/
def fire (r : BRHTTPResponse) : List Firing :=
  if r.onDone then [⟨r.fields, r.isKilled⟩] else []

def setStage (r : BRHTTPResponse) (i : ℕ) (stage : CallStage) : BRHTTPResponse :=
  { r with stages := Function.update r.stages i stage }

/-- The calls that the thread makes before have returned. -/
def isNext (calls : List (ℕ × ResponseCall)) (r : BRHTTPResponse) (i thread : ℕ) : Bool :=
  (List.range i).all (fun j => (calls[j]?.map Prod.fst) ≠ some thread ||
    r.stages j = .completed || r.stages j = .refused)

/-- The next part of `provide`. -/
def provideStep (reasonMap : ℤ → Option String) (r : BRHTTPResponse) (i thread : ℕ)
    (form : ProvideForm) : Except NotReady (BRHTTPResponse × List Firing) :=
  match r.stages i with
  | .start =>
      if r.canEnter thread then
        if r.isDone then .ok ({ r with owner := some thread }.setStage i .refused, [])
        else .ok ({ r with isDone := true }.setStage i .filling, [])
      else .error .notReady
  | .filling =>
      .ok ({ r with fields := form.fill reasonMap r.fields }.setStage i .notifying, [])
  | .notifying =>
      if r.canEnter thread then
        .ok ({ r with isDone := true }.setStage i .completed, r.fire)
      else .error .notReady
  | _ => .error .notReady

/-- `kill`. -/
def killStep (r : BRHTTPResponse) (i thread : ℕ) :
    Except NotReady (BRHTTPResponse × List Firing) :=
  match r.stages i with
  | .start =>
      if r.canEnter thread then
        if r.isDone then .ok ({ r with owner := some thread }.setStage i .refused, [])
        else
          let r := { r with isDone := true, isKilled := true }
          .ok (r.setStage i .completed, r.fire)
      else .error .notReady
  | _ => .error .notReady

/-- `done`. -/
def doneStep (r : BRHTTPResponse) (thread : ℕ) :
    Except NotReady (BRHTTPResponse × List Firing) :=
  if r.doneReturned || ! r.canEnter thread then .error .notReady
  else
    let r := { r with onDone := true, doneReturned := true }
    .ok (r, if r.isDone then r.fire else [])

def step (reasonMap : ℤ → Option String) (calls : ResponseCalls) (r : BRHTTPResponse) :
    CallId → Except NotReady (BRHTTPResponse × List Firing)
  | .done => r.doneStep calls.doneThread
  | .other i =>
      match calls.others[i]? with
      | none => .error .notReady
      | some (thread, call) =>
          if isNext calls.others r i thread then
            match call with
            | .provide form => r.provideStep reasonMap i thread form
            | .kill => r.killStep i thread
          else .error .notReady

/-- A run of the calls on a new response. -/
def run (reasonMap : ℤ → Option String) (calls : ResponseCalls) (schedule : List CallId) :
    Except NotReady (BRHTTPResponse × List Firing) :=
  Machine.run (step reasonMap calls) {} schedule

/-- No `provide` or `kill` starts when the response is done, and `done` does not
run between the two critical sections of `provide`. -/
def StepOk (r : BRHTTPResponse) : CallId → Prop
  | .done => ∀ i, r.stages i ≠ .filling ∧ r.stages i ≠ .notifying
  | .other i => r.stages i = .start → r.isDone = false

/-- The response is finished once, when it has been set, and no call leaves the
lock held. -/
structure FinishedOnce (reasonMap : ℤ → Option String) (calls : ResponseCalls)
    (r : BRHTTPResponse) (firings : List Firing) : Prop where
  once : firings.length ≤ 1
  set : ∀ f ∈ firings, f.isKilled = true ∨
    ∃ i thread form, calls.others[i]? = some (thread, .provide form) ∧
      (r.stages i = .notifying ∨ r.stages i = .completed) ∧ f.fields = form.fill reasonMap {}
  fired : r.doneReturned = true → (∃ i, r.stages i = .completed) → firings.length = 1
  released : r.owner = none

/-! ## One call finishes the response -/

section Finished

variable {reasonMap : ℤ → Option String} {calls : ResponseCalls} {r : BRHTTPResponse}
variable {firings : List Firing}

/-- Only call `i` has started. -/
def OnlyStarted (r : BRHTTPResponse) (i : ℕ) (stage : CallStage) : Prop :=
  ∀ j, r.stages j = if j = i then stage else .start

/-- How far the call has come that finishes the response. -/
inductive Phase (reasonMap : ℤ → Option String) (calls : ResponseCalls) (r : BRHTTPResponse)
    (firings : List Firing) : Prop
  | idle
      (hstages : ∀ i, r.stages i = .start)
      (hdone : r.isDone = false)
      (hfields : r.fields = {})
      (hkilled : r.isKilled = false)
      (hfirings : firings = [])
  | filling (i thread : ℕ) (form : ProvideForm)
      (hcall : calls.others[i]? = some (thread, .provide form))
      (hstages : OnlyStarted r i .filling)
      (hdone : r.isDone = true)
      (hfields : r.fields = {})
      (hfirings : firings = [])
  | notifying (i thread : ℕ) (form : ProvideForm)
      (hcall : calls.others[i]? = some (thread, .provide form))
      (hstages : OnlyStarted r i .notifying)
      (hdone : r.isDone = true)
      (hfields : r.fields = form.fill reasonMap {})
      (hfirings : firings = [])
  | provided (i thread : ℕ) (form : ProvideForm)
      (hcall : calls.others[i]? = some (thread, .provide form))
      (hstages : OnlyStarted r i .completed)
      (hdone : r.isDone = true)
      (hfields : r.fields = form.fill reasonMap {})
      (hfirings : firings = r.fire)
  | killed (i thread : ℕ)
      (hcall : calls.others[i]? = some (thread, .kill))
      (hstages : OnlyStarted r i .completed)
      (hdone : r.isDone = true)
      (hkilled : r.isKilled = true)
      (hfirings : firings = r.fire)

/-- The response between two steps. -/
structure Finishing (reasonMap : ℤ → Option String) (calls : ResponseCalls)
    (r : BRHTTPResponse) (firings : List Firing) : Prop where
  released : r.owner = none
  onDone : r.onDone = r.doneReturned
  phase : Phase reasonMap calls r firings

theorem OnlyStarted.eq
    {i k : ℕ} {stage stage' : CallStage}
    (h : OnlyStarted r k stage)
    (hi : r.stages i = stage')
    (hne : stage' ≠ .start) :
    i = k ∧ stage = stage' := by
  have hstage := h i
  rw [hi] at hstage
  by_cases hik : i = k
  · rw [if_pos hik] at hstage
    exact ⟨hik, hstage.symm⟩
  · rw [if_neg hik] at hstage
    exact absurd hstage hne

theorem onlyStarted_setStage
    {i : ℕ} {stage : CallStage}
    (h : OnlyStarted r i stage) (stage' : CallStage) :
    OnlyStarted (r.setStage i stage') i stage' := by
  intro j
  change Function.update r.stages i stage' j = _
  by_cases hj : j = i
  · rw [hj, Function.update_self, if_pos rfl]
  · rw [Function.update_of_ne hj, if_neg hj, h j, if_neg hj]

theorem onlyStarted_of_start
    (h : ∀ j, r.stages j = .start) (i : ℕ) :
    OnlyStarted r i .start := by
  intro j
  rw [h j, ite_self]

theorem Finishing.canEnter
    (h : Finishing reasonMap calls r firings) (thread : ℕ) :
    r.canEnter thread = true := by
  rw [BRHTTPResponse.canEnter, h.released]
  rfl

/-- The response is done from the first section of a call on. -/
theorem Phase.idle_of
    (h : Phase reasonMap calls r firings)
    (hnot : r.isDone = false) :
    (∀ i, r.stages i = .start) ∧ r.fields = {} ∧ r.isKilled = false ∧ firings = [] := by
  cases h with
  | idle hstages _ hfields hkilled hfirings => exact ⟨hstages, hfields, hkilled, hfirings⟩
  | filling _ _ _ _ _ hdone => exact absurd hdone (by rw [hnot]; decide)
  | notifying _ _ _ _ _ hdone => exact absurd hdone (by rw [hnot]; decide)
  | provided _ _ _ _ _ hdone => exact absurd hdone (by rw [hnot]; decide)
  | killed _ _ _ _ hdone => exact absurd hdone (by rw [hnot]; decide)

theorem Phase.filling_of
    {i : ℕ}
    (h : Phase reasonMap calls r firings)
    (hi : r.stages i = .filling) :
    OnlyStarted r i .filling ∧ r.isDone = true ∧ r.fields = {} ∧ firings = [] := by
  cases h with
  | idle hstages => exact absurd (hi.symm.trans (hstages i)) (by decide)
  | filling k _ _ _ hstages hdone hfields hfirings =>
      obtain ⟨rfl, -⟩ := hstages.eq hi (by decide)
      exact ⟨hstages, hdone, hfields, hfirings⟩
  | notifying _ _ _ _ hstages => exact absurd (hstages.eq hi (by decide)).2 (by decide)
  | provided _ _ _ _ hstages => exact absurd (hstages.eq hi (by decide)).2 (by decide)
  | killed _ _ _ hstages => exact absurd (hstages.eq hi (by decide)).2 (by decide)

theorem Phase.notifying_of
    {i thread : ℕ} {form : ProvideForm}
    (h : Phase reasonMap calls r firings)
    (hcall : calls.others[i]? = some (thread, .provide form))
    (hi : r.stages i = .notifying) :
    OnlyStarted r i .notifying ∧ r.fields = form.fill reasonMap {} ∧ firings = [] := by
  cases h with
  | idle hstages => exact absurd (hi.symm.trans (hstages i)) (by decide)
  | filling _ _ _ _ hstages => exact absurd (hstages.eq hi (by decide)).2 (by decide)
  | notifying k _ _ hcall' hstages _ hfields hfirings =>
      obtain ⟨rfl, -⟩ := hstages.eq hi (by decide)
      rw [hcall] at hcall'
      cases hcall'
      exact ⟨hstages, hfields, hfirings⟩
  | provided _ _ _ _ hstages => exact absurd (hstages.eq hi (by decide)).2 (by decide)
  | killed _ _ _ hstages => exact absurd (hstages.eq hi (by decide)).2 (by decide)

theorem Finishing.provideStep
    {i thread : ℕ} {form : ProvideForm} {r' : BRHTTPResponse} {o : List Firing}
    (h : Finishing reasonMap calls r firings)
    (hcall : calls.others[i]? = some (thread, .provide form))
    (hok : r.stages i = .start → r.isDone = false)
    (hstep : r.provideStep reasonMap i thread form = .ok (r', o)) :
    Finishing reasonMap calls r' (firings ++ o) := by
  rw [BRHTTPResponse.provideStep] at hstep
  split at hstep
  · rename_i hi
    obtain ⟨hstages, hfields, -, rfl⟩ := h.phase.idle_of (hok hi)
    rw [if_pos (h.canEnter thread), hok hi] at hstep
    cases hstep
    exact ⟨h.released, h.onDone, .filling i thread form hcall
      (onlyStarted_setStage (onlyStarted_of_start hstages i) _) rfl hfields rfl⟩
  · rename_i hi
    obtain ⟨hstages, hdone, hfields, rfl⟩ := h.phase.filling_of hi
    cases hstep
    exact ⟨h.released, h.onDone, .notifying i thread form hcall
      (onlyStarted_setStage hstages _) hdone (congrArg (form.fill reasonMap) hfields) rfl⟩
  · rename_i hi
    obtain ⟨hstages, hfields, rfl⟩ := h.phase.notifying_of hcall hi
    rw [if_pos (h.canEnter thread)] at hstep
    cases hstep
    exact ⟨h.released, h.onDone, .provided i thread form hcall
      (onlyStarted_setStage hstages _) rfl hfields rfl⟩
  · cases hstep

theorem Finishing.killStep
    {i thread : ℕ} {r' : BRHTTPResponse} {o : List Firing}
    (h : Finishing reasonMap calls r firings)
    (hcall : calls.others[i]? = some (thread, .kill))
    (hok : r.stages i = .start → r.isDone = false)
    (hstep : r.killStep i thread = .ok (r', o)) :
    Finishing reasonMap calls r' (firings ++ o) := by
  rw [BRHTTPResponse.killStep] at hstep
  split at hstep
  · rename_i hi
    obtain ⟨hstages, -, -, rfl⟩ := h.phase.idle_of (hok hi)
    rw [if_pos (h.canEnter thread), hok hi] at hstep
    cases hstep
    exact ⟨h.released, h.onDone, .killed i thread hcall
      (onlyStarted_setStage (onlyStarted_of_start hstages i) _) rfl rfl rfl⟩
  · cases hstep

theorem Finishing.doneStep
    {thread : ℕ} {r' : BRHTTPResponse} {o : List Firing}
    (h : Finishing reasonMap calls r firings)
    (hok : ∀ i, r.stages i ≠ .filling ∧ r.stages i ≠ .notifying)
    (hstep : r.doneStep thread = .ok (r', o)) :
    Finishing reasonMap calls r' (firings ++ o) := by
  rw [BRHTTPResponse.doneStep] at hstep
  split at hstep
  · cases hstep
  · rename_i hnew
    have hnot : r.onDone = false := by
      rw [h.onDone]
      cases hreturned : r.doneReturned
      · rfl
      · rw [hreturned] at hnew
        exact absurd rfl hnew
    have hquiet : r.fire = [] := by
      rw [fire, hnot]
      rfl
    cases hstep
    refine ⟨h.released, rfl, ?_⟩
    cases h.phase with
    | idle hstages hdone hfields hkilled hfirings =>
        refine .idle hstages hdone hfields hkilled ?_
        rw [hfirings, if_neg (by rw [hdone]; decide)]
        rfl
    | filling i _ _ _ hstages =>
        have hi := hstages i
        rw [if_pos rfl] at hi
        exact absurd hi (hok i).1
    | notifying i _ _ _ hstages =>
        have hi := hstages i
        rw [if_pos rfl] at hi
        exact absurd hi (hok i).2
    | provided i thread' form hcall hstages hdone hfields hfirings =>
        refine .provided i thread' form hcall hstages hdone hfields ?_
        rw [hfirings, hquiet, if_pos hdone]
        rfl
    | killed i thread' hcall hstages hdone hkilled hfirings =>
        refine .killed i thread' hcall hstages hdone hkilled ?_
        rw [hfirings, hquiet, if_pos hdone]
        rfl

theorem Finishing.step
    {id : CallId} {r' : BRHTTPResponse} {o : List Firing}
    (h : Finishing reasonMap calls r firings)
    (hok : StepOk r id)
    (hstep : step reasonMap calls r id = .ok (r', o)) :
    Finishing reasonMap calls r' (firings ++ o) := by
  cases id with
  | done =>
      exact h.doneStep hok hstep
  | other i =>
      rw [BRHTTPResponse.step] at hstep
      split at hstep
      · cases hstep
      · rename_i thread call hcall
        split at hstep
        · cases call with
          | provide form => exact h.provideStep hcall hok hstep
          | kill => exact h.killStep hcall hok hstep
        · cases hstep

theorem Finishing.finishedOnce
    (h : Finishing reasonMap calls r firings) :
    FinishedOnce reasonMap calls r firings := by
  have hlength : r.fire.length = if r.onDone then 1 else 0 := by
    rw [fire]
    split <;> rfl
  have hmem : ∀ f ∈ r.fire, f = ⟨r.fields, r.isKilled⟩ := by
    intro f hf
    rw [fire] at hf
    split at hf
    · exact List.mem_singleton.mp hf
    · cases hf
  have hfired : r.doneReturned = true → r.fire.length = 1 := by
    intro hreturned
    rw [hlength, h.onDone, if_pos hreturned]
  have hquiet : ∀ stage : CallStage, stage ≠ .completed → ∀ i, OnlyStarted r i stage →
      ¬ ∃ j, r.stages j = .completed :=
    fun _ hne _ hstages ⟨_, hj⟩ => hne (hstages.eq hj (by decide)).2
  cases h.phase with
  | idle hstages _ _ _ hfirings =>
      rw [hfirings]
      exact ⟨Nat.zero_le 1, fun _ hf => absurd hf List.not_mem_nil,
        fun _ ⟨j, hj⟩ => absurd ((hstages j).symm.trans hj) (by decide), h.released⟩
  | filling i _ _ _ hstages _ _ hfirings =>
      rw [hfirings]
      exact ⟨Nat.zero_le 1, fun _ hf => absurd hf List.not_mem_nil,
        fun _ hcompleted => absurd hcompleted (hquiet _ (by decide) i hstages), h.released⟩
  | notifying i _ _ _ hstages _ _ hfirings =>
      rw [hfirings]
      exact ⟨Nat.zero_le 1, fun _ hf => absurd hf List.not_mem_nil,
        fun _ hcompleted => absurd hcompleted (hquiet _ (by decide) i hstages), h.released⟩
  | provided i thread form hcall hstages _ hfields hfirings =>
      have hi := hstages i
      rw [if_pos rfl] at hi
      rw [hfirings]
      refine ⟨by rw [hlength]; split <;> decide, fun f hf => .inr ?_,
        fun hreturned _ => hfired hreturned, h.released⟩
      exact ⟨i, thread, form, hcall, .inr hi, by rw [hmem f hf, hfields]⟩
  | killed i thread hcall hstages _ hkilled hfirings =>
      rw [hfirings]
      exact ⟨by rw [hlength]; split <;> decide, fun f hf => .inl (by rw [hmem f hf, hkilled]),
        fun hreturned _ => hfired hreturned, h.released⟩

end Finished

/-- **Finished exactly once.**  In every run whose steps are all fine the response
is finished once. -/
theorem run_finishedOnce
    {reasonMap : ℤ → Option String} {calls : ResponseCalls} {schedule : List CallId}
    {r : BRHTTPResponse} {firings : List Firing}
    (hok : Machine.Guarded (step reasonMap calls) StepOk {} schedule)
    (hrun : run reasonMap calls schedule = .ok (r, firings)) :
    FinishedOnce reasonMap calls r firings := by
  have hstart : Finishing reasonMap calls {} [] :=
    ⟨rfl, rfl, .idle (fun _ => rfl) rfl rfl rfl rfl⟩
  exact (Machine.run_invariant (fun _ _ _ _ _ h => h.step) hstart hok hrun).finishedOnce

section Sample

/-- One `provide`, and `done` from another thread. -/
def sampleCalls : ResponseCalls where
  doneThread := 0
  others := [(1, .provide (.status 200))]

theorem run_finishedOnce_sample :
    ∃ r firings, run (fun _ => none) sampleCalls [.other 0, .other 0, .other 0, .done] =
        .ok (r, firings) ∧
      FinishedOnce (fun _ => none) sampleCalls r firings := by
  refine ⟨_, _, rfl, @run_finishedOnce _ _ [.other 0, .other 0, .other 0, .done] _ _ ?_ rfl⟩
  refine Machine.guarded_cons (fun _ => rfl) rfl (Machine.guarded_cons ?_ rfl
    (Machine.guarded_cons ?_ rfl (Machine.guarded_cons ?_ rfl trivial)))
  · intro h
    cases h
  · intro h
    cases h
  · intro i
    rcases Nat.eq_zero_or_pos i with rfl | hi
    · exact ⟨by decide, by decide⟩
    · simp [setStage, Function.update_of_ne hi.ne']

/-- `done` between the two sections is answered twice, the first time without the
status, and a second `kill` never lets the lock go. -/
theorem not_run_finishedOnce :
    (∃ r firings, run (fun _ => none) sampleCalls [.other 0, .done, .other 0, .other 0] =
        .ok (r, firings) ∧ firings = [⟨{}, false⟩, ⟨{ statusCode := some 200 }, false⟩] ∧
      ¬ FinishedOnce (fun _ => none) sampleCalls r firings) ∧
      ∃ r firings, run (fun _ => none) ⟨0, [(1, .kill), (2, .kill)]⟩ [.other 0, .other 1] =
        .ok (r, firings) ∧ r.owner = some 2 ∧
      ¬ FinishedOnce (fun _ => none) ⟨0, [(1, .kill), (2, .kill)]⟩ r firings := by
  refine ⟨⟨_, _, rfl, rfl, fun h => ?_⟩, ⟨_, _, rfl, rfl, fun h => ?_⟩⟩
  · exact absurd h.once (by decide)
  · exact absurd h.released (by decide)

end Sample

end BRHTTPResponse

end BreadwalletCore
