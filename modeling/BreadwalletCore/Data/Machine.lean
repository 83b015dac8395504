import Mathlib.Tactic

/-!
# Runs of a partial state machine with an output log

A machine takes a state and an input and either fails or returns the next
state and the outputs it emitted.  `run` chains inputs and concatenates the
outputs.  `Guarded ok` says that every step of a run meets a condition `ok` on
the state it starts in and the input it gets.

The rules below turn a statement about one step into a statement about every
state a run reaches: an invariant over state and log, and the absence of a
class of failures.
-/

namespace Machine

universe u v w x

variable {σ : Type u} {ι : Type v} {ω : Type w} {ε : Type x}

/-- Run a list of inputs, collecting the outputs in order. -/
def run (step : σ → ι → Except ε (σ × List ω)) :
    σ → List ι → Except ε (σ × List ω)
  | s, [] => .ok (s, [])
  | s, i :: is =>
      match step s i with
      | .error e => .error e
      | .ok (s', o) =>
          match run step s' is with
          | .error e => .error e
          | .ok (s'', os) => .ok (s'', o ++ os)

/-- Every step of the run meets the condition `ok`. -/
def Guarded (step : σ → ι → Except ε (σ × List ω)) (ok : σ → ι → Prop) :
    σ → List ι → Prop
  | _, [] => True
  | s, i :: is => ok s i ∧ ∀ s' o, step s i = .ok (s', o) → Guarded step ok s' is

variable {step : σ → ι → Except ε (σ × List ω)} {ok : σ → ι → Prop}

/-- Peel the first step off a successful run. -/
theorem run_cons_ok
    {s s'' : σ} {i : ι} {is : List ι} {os : List ω}
    (h : run step s (i :: is) = .ok (s'', os)) :
    ∃ s' o os', step s i = .ok (s', o) ∧
      run step s' is = .ok (s'', os') ∧ os = o ++ os' := by
  rw [run] at h
  split at h
  · cases h
  · rename_i s' o hstep
    split at h
    · cases h
    · rename_i t os' hrun
      cases h
      exact ⟨s', o, os', hstep, hrun, rfl⟩

/-- Peel the last step off a successful run. -/
theorem run_concat_ok
    {s s'' : σ} {i : ι} {is : List ι} {os : List ω}
    (h : run step s (is ++ [i]) = .ok (s'', os)) :
    ∃ s' o o', run step s is = .ok (s', o) ∧ step s' i = .ok (s'', o') ∧ os = o ++ o' := by
  induction is generalizing s os with
  | nil =>
      obtain ⟨t, o, os', hs, hr, rfl⟩ := run_cons_ok h
      cases hr
      exact ⟨s, [], o, rfl, hs, by simp⟩
  | cons j is ih =>
      obtain ⟨t, o, os', hs, hr, rfl⟩ := run_cons_ok h
      obtain ⟨s', o₁, o₂, hpre, hlast, rfl⟩ := ih hr
      refine ⟨s', o ++ o₁, o₂, ?_, hlast, (List.append_assoc _ _ _).symm⟩
      rw [run, hs]
      dsimp only
      rw [hpre]

/-- Cut a successful run in two. -/
theorem run_append_ok
    {s s'' : σ} {is js : List ι} {os : List ω}
    (h : run step s (is ++ js) = .ok (s'', os)) :
    ∃ s' o o', run step s is = .ok (s', o) ∧ run step s' js = .ok (s'', o') ∧ os = o ++ o' := by
  induction is generalizing s os with
  | nil =>
      exact ⟨s, [], os, rfl, h, rfl⟩
  | cons i is ih =>
      obtain ⟨t, o, os', hs, hr, rfl⟩ := run_cons_ok h
      obtain ⟨s', o₁, o₂, hpre, hpost, rfl⟩ := ih hr
      exact ⟨s', o ++ o₁, o₂, by simp [run, hs, hpre], hpost, (List.append_assoc _ _ _).symm⟩

/-- Add a step at the end of a run. -/
theorem run_concat
    {s s' s'' : σ} {i : ι} {is : List ι} {os o : List ω}
    (hrun : run step s is = .ok (s', os))
    (hstep : step s' i = .ok (s'', o)) :
    run step s (is ++ [i]) = .ok (s'', os ++ o) := by
  induction is generalizing s os with
  | nil =>
      cases hrun
      simp [run, hstep]
  | cons j is ih =>
      obtain ⟨t, o₁, os', hs, hr, rfl⟩ := run_cons_ok hrun
      have htail := ih hr
      simp [run, hs, htail]

/-- **Invariant rule** over states and the log emitted so far. -/
theorem run_invariant
    {I : σ → List ω → Prop}
    (hstep : ∀ s log i s' o, I s log → ok s i →
      step s i = .ok (s', o) → I s' (log ++ o))
    {s s' : σ} {log os : List ω} {is : List ι}
    (hI : I s log)
    (hguard : Guarded step ok s is)
    (hrun : run step s is = .ok (s', os)) :
    I s' (log ++ os) := by
  induction is generalizing s log os with
  | nil =>
      cases hrun
      simpa using hI
  | cons i is ih =>
      obtain ⟨t, o, os', hs, hr, rfl⟩ := run_cons_ok hrun
      have hI' := hstep s log i t o hI hguard.1 hs
      rw [← List.append_assoc]
      exact ih hI' (hguard.2 t o hs) hr

/-- The rule for invariants that mention the inputs so far as well. -/
theorem run_history
    {I : List ι → σ → List ω → Prop}
    (hstep : ∀ hist s log i s' o, I hist s log → ok s i →
      step s i = .ok (s', o) → I (hist ++ [i]) s' (log ++ o))
    {s s' : σ} {hist : List ι} {log os : List ω} {is : List ι}
    (hI : I hist s log)
    (hguard : Guarded step ok s is)
    (hrun : run step s is = .ok (s', os)) :
    I (hist ++ is) s' (log ++ os) := by
  induction is generalizing s hist log os with
  | nil =>
      cases hrun
      simpa using hI
  | cons i is ih =>
      obtain ⟨t, o, os', hs, hr, rfl⟩ := run_cons_ok hrun
      have hI' := hstep hist s log i t o hI hguard.1 hs
      rw [← List.append_assoc, List.append_cons hist]
      exact ih hI' (hguard.2 t o hs) hr

/-- The rule for invariants that do not mention the log. -/
theorem run_state_invariant
    {I : σ → Prop}
    (hstep : ∀ s i s' o, I s → ok s i → step s i = .ok (s', o) → I s')
    {s s' : σ} {os : List ω} {is : List ι}
    (hI : I s)
    (hguard : Guarded step ok s is)
    (hrun : run step s is = .ok (s', os)) :
    I s' := by
  have hlog : ∀ s (_ : List ω) i s' o, I s → ok s i →
      step s i = .ok (s', o) → I s' :=
    fun s _ i s' o hs => hstep s i s' o hs
  exact @run_invariant σ ι ω ε step ok (fun s _ => I s) hlog
    s s' [] os is hI hguard hrun

/-- A condition that always holds guards every run. -/
theorem guarded_of_forall
    (h : ∀ s i, ok s i) :
    ∀ (is : List ι) (s : σ), Guarded step ok s is
  | [], _ => trivial
  | i :: is, s => ⟨h s i, fun s' _ _ => guarded_of_forall h is s'⟩

/-- The rule for invariants that every step keeps. -/
theorem run_preserves
    {I : σ → Prop}
    (hstep : ∀ s i s' o, I s → step s i = .ok (s', o) → I s')
    {s s' : σ} {os : List ω} {is : List ι}
    (hI : I s)
    (hrun : run step s is = .ok (s', os)) :
    I s' := by
  have hguard : Guarded step (fun _ _ => True) s is :=
    guarded_of_forall (fun _ _ => trivial) is s
  exact run_state_invariant (fun s i s' o hs _ => hstep s i s' o hs) hI hguard hrun

/-- **Safety rule**: a guarded run from an invariant state fails only as one
of its steps can. -/
theorem run_error
    {I : σ → Prop} {bad : ε → Prop}
    (hstep : ∀ s i s' o, I s → ok s i → step s i = .ok (s', o) → I s')
    (hsafe : ∀ s i e, I s → ok s i → step s i = .error e → ¬ bad e)
    {s : σ} {is : List ι} {e : ε}
    (hI : I s)
    (hguard : Guarded step ok s is)
    (hrun : run step s is = .error e) :
    ¬ bad e := by
  induction is generalizing s with
  | nil =>
      cases hrun
  | cons i is ih =>
      rw [run] at hrun
      split at hrun
      · rename_i e' hs
        cases hrun
        exact hsafe s i e hI hguard.1 hs
      · rename_i t o hs
        split at hrun
        · rename_i e' hr
          cases hrun
          exact ih (hstep s i t o hI hguard.1 hs) (hguard.2 t o hs) hr
        · cases hrun

theorem Guarded.and
    {ok' : σ → ι → Prop} {s : σ} {is : List ι}
    (h : Guarded step ok s is)
    (h' : Guarded step ok' s is) :
    Guarded step (fun s i => ok s i ∧ ok' s i) s is := by
  induction is generalizing s with
  | nil =>
      trivial
  | cons i is ih =>
      exact ⟨⟨h.1, h'.1⟩, fun t o hs => ih (h.2 t o hs) (h'.2 t o hs)⟩

theorem Guarded.mono
    {ok' : σ → ι → Prop} {s : σ} {is : List ι}
    (h : Guarded step ok s is)
    (himp : ∀ s i, ok s i → ok' s i) :
    Guarded step ok' s is := by
  induction is generalizing s with
  | nil =>
      trivial
  | cons i is ih =>
      exact ⟨himp s i h.1, fun t o hs => ih (h.2 t o hs)⟩

/-- The guard of a run guards its beginning. -/
theorem Guarded.of_append
    {s : σ} {is js : List ι}
    (h : Guarded step ok s (is ++ js)) :
    Guarded step ok s is := by
  induction is generalizing s with
  | nil =>
      trivial
  | cons i is ih =>
      exact ⟨h.1, fun t o hs => ih (h.2 t o hs)⟩

theorem guarded_cons
    {s s' : σ} {i : ι} {is : List ι} {os : List ω}
    (hok : ok s i)
    (hs : step s i = .ok (s', os))
    (hrest : Guarded step ok s' is) :
    Guarded step ok s (i :: is) := by
  refine ⟨hok, ?_⟩
  intro t o ht
  rw [hs] at ht
  cases ht
  exact hrest

/-- A guard speaks about every state that a prefix of the inputs leads to. -/
theorem guarded_iff_forall
    {s : σ} {is : List ι} :
    Guarded step ok s is ↔ ∀ pre i post s' os, is = pre ++ i :: post →
      run step s pre = .ok (s', os) → ok s' i := by
  constructor
  · intro hguard pre
    induction pre generalizing s is with
    | nil =>
        rintro i post s' os rfl hrun
        cases hrun
        exact hguard.1
    | cons j pre ih =>
        rintro i post s' os rfl hrun
        obtain ⟨t, o, os', hs, hr, -⟩ := run_cons_ok hrun
        exact ih (hguard.2 t o hs) i post s' os' rfl hr
  · intro h
    induction is generalizing s with
    | nil =>
        trivial
    | cons j is ih =>
        refine ⟨h [] j is s [] rfl rfl, ?_⟩
        intro t o hs
        refine ih ?_
        rintro pre i post s' os rfl hrun
        exact h (j :: pre) i post s' (o ++ os) rfl (by simp [run, hs, hrun])

/-! ## Events of a log -/

section Events

/-- Every event of a log stands in a relation to the events in front of it. -/
def EachEvent (P : List ω → ω → Prop) (log : List ω) : Prop :=
  ∀ front e behind, log = front ++ e :: behind → P front e

variable {P : List ω → ω → Prop} {log : List ω}

theorem eachEvent_nil : EachEvent P [] := by
  intro front e behind h
  simp at h

theorem EachEvent.concat
    {e : ω}
    (h : EachEvent P log)
    (he : P log e) :
    EachEvent P (log ++ [e]) := by
  intro front e' behind hlog
  rcases behind.eq_nil_or_concat with rfl | ⟨behind', last, rfl⟩
  · obtain ⟨rfl, hlast⟩ := List.append_inj' hlog rfl
    rwa [← List.head_eq_of_cons_eq hlast]
  · rw [List.concat_eq_append, ← List.cons_append, ← List.append_assoc] at hlog
    obtain ⟨rfl, -⟩ := List.append_inj' hlog rfl
    exact h front e' behind' rfl

theorem EachEvent.append
    (h : EachEvent P log) :
    ∀ {es : List ω}, EachEvent (fun front e => P (log ++ front) e) es →
      EachEvent P (log ++ es) := by
  intro es
  induction es using List.reverseRecOn with
  | nil =>
      intro _
      rwa [List.append_nil]
  | append_singleton es e ih =>
      intro hes
      rw [← List.append_assoc]
      refine (ih ?_).concat (hes es e [] rfl)
      rintro front e' behind rfl
      exact hes front e' (behind ++ [e]) (by simp)

end Events

/-! ## Sequencing and loops in `Except` -/

section Loop

variable {α β : Type u} {γ : Type v}

theorem ok_bind
    (a : α) (f : α → Except ε β) :
    (Except.ok a >>= f) = f a := by
  rfl

theorem bind_eq_ok
    {x : Except ε α} {f : α → Except ε β} {b : β} :
    (x >>= f) = .ok b ↔ ∃ a, x = .ok a ∧ f a = .ok b := by
  cases x with
  | error e =>
      constructor
      · intro h
        cases h
      · rintro ⟨a, h, -⟩
        cases h
  | ok a =>
      constructor
      · intro h
        exact ⟨a, rfl, h⟩
      · rintro ⟨a', h, hb⟩
        cases h
        exact hb

theorem bind_eq_error
    {x : Except ε α} {f : α → Except ε β} {e : ε} :
    (x >>= f) = .error e ↔ x = .error e ∨ ∃ a, x = .ok a ∧ f a = .error e := by
  cases x with
  | error e' =>
      constructor
      · intro h
        cases h
        exact Or.inl rfl
      · rintro (h | ⟨a, h, -⟩)
        · cases h
          rfl
        · cases h
  | ok a =>
      constructor
      · intro h
        exact Or.inr ⟨a, rfl, h⟩
      · rintro (h | ⟨a', h, hb⟩)
        · cases h
        · cases h
          exact hb

theorem mapError_eq_ok
    {ε' : Type x} {g : ε → ε'} {x : Except ε α} {a : α}
    (h : x.mapError g = .ok a) :
    x = .ok a := by
  cases x with
  | error e =>
      cases h
  | ok b =>
      cases h
      rfl

variable {f : β → γ → Except ε β} {I : β → Prop}

/-- **Loop rule**: what every iteration keeps holds behind the loop. -/
theorem foldlM_invariant
    {l : List γ} {b b' : β}
    (hstep : ∀ b, ∀ x ∈ l, ∀ b', I b → f b x = .ok b' → I b')
    (hI : I b)
    (hrun : l.foldlM f b = .ok b') :
    I b' := by
  induction l generalizing b with
  | nil =>
      cases hrun
      exact hI
  | cons x l ih =>
      rw [List.foldlM_cons, bind_eq_ok] at hrun
      obtain ⟨c, hx, hl⟩ := hrun
      have hc := hstep b x (by simp) c hI hx
      exact ih (fun b y hy => hstep b y (by simp [hy])) hc hl

/-- The loop rule with a condition on the state that each iteration starts in. -/
theorem foldlM_guarded
    {ok : β → γ → Prop} {l : List γ} {b b' : β}
    (hok : ∀ pre x post c, l = pre ++ x :: post → pre.foldlM f b = .ok c → ok c x)
    (hstep : ∀ b x b', I b → ok b x → f b x = .ok b' → I b')
    (hI : I b)
    (hrun : l.foldlM f b = .ok b') :
    I b' := by
  induction l generalizing b with
  | nil =>
      cases hrun
      exact hI
  | cons x l ih =>
      rw [List.foldlM_cons, bind_eq_ok] at hrun
      obtain ⟨c, hx, hl⟩ := hrun
      have hc := hstep b x c hI (hok [] x l b rfl rfl) hx
      refine ih ?_ hc hl
      rintro pre y post d rfl hpre
      refine hok (x :: pre) y post d rfl ?_
      rw [List.foldlM_cons, hx]
      exact hpre

/-- A loop fails only in an iteration, in a state that satisfies the invariant. -/
theorem foldlM_error
    {l : List γ} {b : β} {e : ε}
    (hstep : ∀ b, ∀ x ∈ l, ∀ b', I b → f b x = .ok b' → I b')
    (hI : I b)
    (hrun : l.foldlM f b = .error e) :
    ∃ b, ∃ x ∈ l, I b ∧ f b x = .error e := by
  induction l generalizing b with
  | nil =>
      cases hrun
  | cons x l ih =>
      rw [List.foldlM_cons, bind_eq_error] at hrun
      rcases hrun with hx | ⟨c, hx, hl⟩
      · exact ⟨b, x, by simp, hI, hx⟩
      · have hc := hstep b x (by simp) c hI hx
        obtain ⟨b', y, hy, hb', he⟩ :=
          ih (fun b y hy => hstep b y (by simp [hy])) hc hl
        exact ⟨b', y, by simp [hy], hb', he⟩

/-- A search for a counterexample, where every test returns. -/
theorem exists_allM_ok
    {α : Type} {p : α → Except ε Bool} {P : α → Prop} {Q : Prop} {l : List α}
    (h : ∀ a ∈ l, ∃ b, p a = .ok b ∧ (b = true ↔ P a))
    (hQ : (∀ a ∈ l, P a) ↔ Q) :
    ∃ b, l.allM p = .ok b ∧ (b = true ↔ Q) := by
  rw [← hQ]
  clear hQ
  induction l with
  | nil =>
      exact ⟨true, rfl, by simp⟩
  | cons a l ih =>
      obtain ⟨b, hb, hP⟩ := h a (by simp)
      obtain ⟨c, hc, hl⟩ := ih (fun x hx => h x (by simp [hx]))
      cases b with
      | false =>
          refine ⟨false, by simp [List.allM, hb]; rfl, ?_⟩
          simpa using fun ha => absurd (hP.mpr ha) (by simp)
      | true =>
          refine ⟨c, by simp [List.allM, hb]; exact hc, ?_⟩
          simp [hl, hP.mp rfl]

/-- A search for a counterexample that returns. -/
theorem allM_ok_iff
    {α : Type} {p : α → Except ε Bool} {P : α → Prop} {l : List α} {b : Bool}
    (h : ∀ a ∈ l, ∀ c, p a = .ok c → (c = true ↔ P a))
    (hl : l.allM p = .ok b) :
    b = true ↔ ∀ a ∈ l, P a := by
  induction l with
  | nil =>
      cases hl
      simp
  | cons a l ih =>
      rw [List.allM, bind_eq_ok] at hl
      obtain ⟨c, hc, hl⟩ := hl
      have hP := h a (by simp) c hc
      cases c with
      | false =>
          cases hl
          simpa using fun ha => absurd (hP.mpr ha) (by simp)
      | true =>
          rw [ih (fun x hx => h x (by simp [hx])) hl]
          simp [hP.mp rfl]

/-- A search fails only in one of its tests. -/
theorem allM_error
    {α : Type} {p : α → Except ε Bool} {l : List α} {e : ε}
    (h : l.allM p = .error e) :
    ∃ a ∈ l, p a = .error e := by
  induction l with
  | nil =>
      cases h
  | cons a l ih =>
      rw [List.allM, bind_eq_error] at h
      rcases h with h | ⟨b, -, h⟩
      · exact ⟨a, by simp, h⟩
      · cases b with
        | false =>
            cases h
        | true =>
            obtain ⟨a', ha', h'⟩ := ih h
            exact ⟨a', by simp [ha'], h'⟩

end Loop

end Machine
