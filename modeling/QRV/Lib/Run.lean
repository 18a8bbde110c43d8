import Mathlib.Data.ZMod.Basic

/- Runs of a partial step function. A run is the list of its operations; it fails with the
   first operation that fails. `Along` states a condition on each operation in the state in
   which it comes, and `Run.inv` is the induction: what each step keeps under the condition
   holds at the end of a run that meets it. -/
namespace Run

variable {σ ο : Type} (step : σ → ο → Option σ)

def exec (ops : List ο) (s : σ) : Option σ := ops.foldlM step s

/-- Each operation meets the condition in the state in which it comes. -/
def Along (P : σ → ο → Prop) : List ο → σ → Prop
  | [], _ => True
  | op :: ops, s => P s op ∧ ∀ s', step s op = some s' → Along P ops s'

/-- The condition is looked at state by state. -/
instance Along.decidable (P : σ → ο → Prop) [∀ s op, Decidable (P s op)] :
    ∀ (ops : List ο) (s : σ), Decidable (Along step P ops s)
  | [], _ => isTrue trivial
  | op :: ops, s =>
    match hs : step s op with
    | none => decidable_of_iff (P s op) (by simp [Along, hs])
    | some s' =>
      have := Along.decidable P ops s'
      decidable_of_iff (P s op ∧ Along step P ops s') (by simp [Along, hs])

variable {step} {s s' : σ} {op : ο} {ops : List ο}

/-- A condition with the recursion of `Along` is looked at in the same way. -/
def decidableAlong {P : σ → ο → Prop} [∀ s op, Decidable (P s op)] {A : σ → List ο → Prop} (hnil : ∀ s, A s [])
    (hcons : ∀ s op ops, A s (op :: ops) ↔ P s op ∧ ∀ s', step s op = some s' → A s' ops) (s : σ) (ops : List ο) :
    Decidable (A s ops) :=
  decidable_of_iff (Along step P ops s) (by induction ops generalizing s <;> simp_all [Along])

theorem exec_cons (h : exec step (op :: ops) s = some s') :
    ∃ s1, step s op = some s1 ∧ exec step ops s1 = some s' := by
  rw [exec, List.foldlM_cons] at h
  exact Option.bind_eq_some_iff.mp h

theorem inv {I : σ → Prop} {P : σ → ο → Prop}
    (hstep : ∀ {s op s'}, I s → P s op → step s op = some s' → I s') (h : I s) (hops : Along step P ops s)
    (hrun : exec step ops s = some s') : I s' := by
  induction ops generalizing s with
  | nil =>
    cases hrun
    exact h
  | cons op ops ih =>
    obtain ⟨s1, hs1, hrest⟩ := exec_cons hrun
    exact ih (hstep h hops.1 hs1) (hops.2 s1 hs1) hrest

theorem total {I : σ → Prop} {P : σ → ο → Prop}
    (hstep : ∀ {s op}, I s → P s op → ∃ s', step s op = some s' ∧ I s') (h : I s) (hops : Along step P ops s) :
    ∃ s', exec step ops s = some s' ∧ I s' := by
  induction ops generalizing s with
  | nil => exact ⟨s, rfl, h⟩
  | cons op ops ih =>
    obtain ⟨s1, hs1, h1⟩ := hstep h hops.1
    obtain ⟨s', hs', h'⟩ := ih h1 (hops.2 s1 hs1)
    refine ⟨s', ?_, h'⟩
    rw [exec, List.foldlM_cons, hs1]
    exact hs'

/-- A run that is known not to fail, with what holds wherever it ends. -/
theorem exists_of_isSome {o : Option σ} {P : σ → Prop} (h : o.isSome = true) (hP : ∀ s, o = some s → P s) :
    ∃ s, o = some s ∧ P s := by
  obtain ⟨s, hs⟩ := Option.isSome_iff_exists.mp h
  exact ⟨s, hs, hP s hs⟩

theorem along_of_forall {P : ο → Prop} (h : ∀ op ∈ ops, P op) : Along step (fun _ op => P op) ops s := by
  induction ops generalizing s with
  | nil => trivial
  | cons op ops ih =>
    exact ⟨h op List.mem_cons_self, fun s' _ => ih fun op' hop' => h op' (.tail _ hop')⟩

end Run
