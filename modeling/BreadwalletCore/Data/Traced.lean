import Mathlib.Tactic

/-!
# Computations with a trace

A computation returns a value and the list of what it has touched on the way.
`All P` says that everything touched satisfies `P`; it is taken apart along the
structure of the program.
-/

/-- A value and what has been touched for it. -/
structure Traced (ω α : Type) where
  value : α
  trace : List ω

namespace Traced

variable {ω α β : Type}

instance : Monad (Traced ω) where
  pure a := ⟨a, []⟩
  bind x f := ⟨(f x.value).value, x.trace ++ (f x.value).trace⟩

/-- One computation for each element. -/
def each (l : List β) (f : β → Traced ω α) : Traced ω (List α) :=
  ⟨l.map (fun b => (f b).value), l.flatMap (fun b => (f b).trace)⟩

/-- Everything touched satisfies `P`. -/
def All (P : ω → Prop) (x : Traced ω α) : Prop :=
  ∀ w ∈ x.trace, P w

variable {P : ω → Prop} {x : Traced ω α} {f : α → Traced ω β}

@[simp] theorem value_pure
    (a : α) :
    (pure a : Traced ω α).value = a := by
  rfl

@[simp] theorem value_bind
    (x : Traced ω α) (f : α → Traced ω β) :
    (x >>= f).value = (f x.value).value := by
  rfl

@[simp] theorem value_each
    (l : List β) (f : β → Traced ω α) :
    (each l f).value = l.map (fun b => (f b).value) := by
  rfl

@[simp] theorem all_pure
    (a : α) :
    All P (pure a : Traced ω α) := by
  intro w hw
  exact absurd hw List.not_mem_nil

@[simp] theorem all_bind :
    All P (x >>= f) ↔ All P x ∧ All P (f x.value) :=
  List.forall_mem_append

@[simp] theorem all_each
    {l : List β} {f : β → Traced ω α} :
    All P (each l f) ↔ ∀ b ∈ l, All P (f b) := by
  constructor
  · intro h b hb w hw
    exact h w (List.mem_flatMap.mpr ⟨b, hb, hw⟩)
  · intro h w hw
    obtain ⟨b, hb, hwb⟩ := List.mem_flatMap.mp hw
    exact h b hb w hwb

theorem all_ite
    {c : Prop} [Decidable c] {x y : Traced ω α} :
    All P (if c then x else y) ↔ (c → All P x) ∧ (¬ c → All P y) := by
  by_cases hc : c
  · simp [hc]
  · simp [hc]

end Traced
