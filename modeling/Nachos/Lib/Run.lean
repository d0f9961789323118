import Mathlib.Data.List.Basic
import Mathlib.Tactic.Common

/-!
# Runs of a machine, with their traces

A machine is a partial step function: in a state, a label (the choice made by
the environment) either has no step or leads to one state and emits one event.
A run collects the events in order. Every safety result of the development is
stated over runs, and most of them over runs whose steps all satisfy a
condition on the trace so far, the state before the step and the label; the
condition is a parameter of `Run`.
-/

namespace Nachos.Lib

variable {σ ℓ ε : Type*}

/-- `Run step ok s₀ tr s`: starting in `s₀`, steps that all satisfy `ok` emit
the trace `tr` and end in `s`. -/
inductive Run (step : σ → ℓ → Option (σ × ε)) (ok : List ε → σ → ℓ → Prop)
    (s₀ : σ) : List ε → σ → Prop
  | start : Run step ok s₀ [] s₀
  | snoc {tr : List ε} {s : σ} {l : ℓ} {s' : σ} {e : ε} :
      Run step ok s₀ tr s → ok tr s l → step s l = some (s', e) →
      Run step ok s₀ (tr ++ [e]) s'

/-- The condition that every step satisfies. -/
def anyStep : List ε → σ → ℓ → Prop := fun _ _ _ => True

instance (tr : List ε) (s : σ) (l : ℓ) : Decidable (anyStep tr s l) :=
  inferInstanceAs (Decidable True)

variable {step : σ → ℓ → Option (σ × ε)} {ok : List ε → σ → ℓ → Prop} {s₀ : σ}

/-- **Invariant rule.** What holds at the start and is preserved by every
permitted step holds at the end of every run. -/
theorem Run.invariant {I : List ε → σ → Prop} (h₀ : I [] s₀)
    (hstep : ∀ {tr s l s' e}, I tr s → ok tr s l → step s l = some (s', e) →
      I (tr ++ [e]) s')
    {tr : List ε} {s : σ} (h : Run step ok s₀ tr s) : I tr s := by
  induction h with
  | start => exact h₀
  | snoc _ hok hs ih => exact hstep ih hok hs

/-- The invariant rule relative to an invariant of runs that is already known. -/
theorem Run.invariant_with {J I : List ε → σ → Prop}
    (hJ : ∀ {tr s}, Run step ok s₀ tr s → J tr s) (h₀ : I [] s₀)
    (hstep : ∀ {tr s l s' e}, J tr s → I tr s → ok tr s l → step s l = some (s', e) →
      I (tr ++ [e]) s')
    {tr : List ε} {s : σ} (h : Run step ok s₀ tr s) : I tr s := by
  induction h with
  | start => exact h₀
  | snoc hrun hok hs ih => exact hstep (hJ hrun) ih hok hs

/-- A run under a condition is a run under any weaker one. -/
theorem Run.weaken {ok' : List ε → σ → ℓ → Prop}
    (hw : ∀ {tr s l}, ok tr s l → ok' tr s l)
    {tr : List ε} {s : σ} (h : Run step ok s₀ tr s) : Run step ok' s₀ tr s := by
  induction h with
  | start => exact .start
  | snoc _ hok hs ih => exact .snoc ih (hw hok) hs

/-- The same relative to an invariant of the runs: only the steps taken have to
satisfy the other condition. -/
theorem Run.weaken_with {J : List ε → σ → Prop} {ok' : List ε → σ → ℓ → Prop}
    (hJ : ∀ {tr s}, Run step ok s₀ tr s → J tr s)
    (hw : ∀ {tr s l s' e}, J tr s → ok tr s l → step s l = some (s', e) → ok' tr s l)
    {tr : List ε} {s : σ} (h : Run step ok s₀ tr s) : Run step ok' s₀ tr s := by
  induction h with
  | start => exact .start
  | snoc hrun hok hs ih => exact .snoc ih (hw (hJ hrun) hok hs) hs

/-- A step before a run. -/
theorem Run.cons {s s₁ s' : σ} {l : ℓ} {e : ε} {tr : List ε} (h : Run step anyStep s₁ tr s')
    (hs : step s l = some (s₁, e)) : Run step anyStep s (e :: tr) s' := by
  induction h with
  | start => exact .snoc .start trivial hs
  | snoc _ hok hs' ih => exact .snoc ih hok hs'

/-- **Simulation.** A step of one machine is a step of another one that sees part of its state,
or is not seen there. The traces of the two are related. -/
theorem Run.simulate {σ' ℓ' ε' : Type*} {step' : σ' → ℓ' → Option (σ' × ε')}
    {ok' : List ε' → σ' → ℓ' → Prop} {J : List ε → σ → Prop} {f : σ → σ'}
    {R : List ε → List ε' → Prop} (hJ : ∀ {tr s}, Run step ok s₀ tr s → J tr s) (h₀ : R [] [])
    (hstep : ∀ {tr tr' s l s' e}, J tr s → R tr tr' → ok tr s l → step s l = some (s', e) →
      (∃ l' e', ok' tr' (f s) l' ∧ step' (f s) l' = some (f s', e') ∧
        R (tr ++ [e]) (tr' ++ [e'])) ∨ f s' = f s ∧ R (tr ++ [e]) tr')
    {tr : List ε} {s : σ} (h : Run step ok s₀ tr s) :
    ∃ tr', Run step' ok' (f s₀) tr' (f s) ∧ R tr tr' := by
  induction h with
  | start => exact ⟨[], .start, h₀⟩
  | snoc hrun hok hs ih =>
      obtain ⟨tr', hrun', hR⟩ := ih
      rcases hstep (hJ hrun) hR hok hs with ⟨l', e', hok', hs', hR'⟩ | ⟨heq, hR'⟩
      · exact ⟨tr' ++ [e'], .snoc hrun' hok' hs', hR'⟩
      · exact ⟨tr', by rwa [heq], hR'⟩

/-- Executing a list of labels from a state with a trace already emitted,
checking the condition before every step. -/
def exec (step : σ → ℓ → Option (σ × ε)) (ok : List ε → σ → ℓ → Prop)
    [∀ tr s l, Decidable (ok tr s l)] : List ε → σ → List ℓ → Option (List ε × σ)
  | tr, s, [] => some (tr, s)
  | tr, s, l :: ls =>
      if ok tr s l then
        match step s l with
        | some (s', e) => exec step ok (tr ++ [e]) s' ls
        | none => none
      else none

/-- What an execution computes is a run. -/
theorem Run.of_exec [∀ tr s l, Decidable (ok tr s l)] {ls : List ℓ} :
    ∀ {tr tr' : List ε} {s s' : σ}, Run step ok s₀ tr s →
      exec step ok tr s ls = some (tr', s') → Run step ok s₀ tr' s' := by
  induction ls with
  | nil =>
      intro tr tr' s s' hrun h
      simp only [exec, Option.some.injEq, Prod.mk.injEq] at h
      obtain ⟨rfl, rfl⟩ := h
      exact hrun
  | cons l ls ih =>
      intro tr tr' s s' hrun h
      unfold exec at h
      split at h
      · rename_i hok
        split at h
        · rename_i s₁ e hs
          exact ih (.snoc hrun hok hs) h
        · cases h
      · cases h

/-- The same with labels that are chosen by the state. -/
def execBy (step : σ → ℓ → Option (σ × ε)) (ok : List ε → σ → ℓ → Prop)
    [∀ tr s l, Decidable (ok tr s l)] : List ε → σ → List (σ → ℓ) → Option (List ε × σ)
  | tr, s, [] => some (tr, s)
  | tr, s, l :: ls =>
      if ok tr s (l s) then
        match step s (l s) with
        | some (s', e) => execBy step ok (tr ++ [e]) s' ls
        | none => none
      else none

theorem Run.of_execBy [∀ tr s l, Decidable (ok tr s l)] {ls : List (σ → ℓ)} :
    ∀ {tr tr' : List ε} {s s' : σ}, Run step ok s₀ tr s →
      execBy step ok tr s ls = some (tr', s') → Run step ok s₀ tr' s' := by
  induction ls with
  | nil =>
      intro tr tr' s s' hrun h
      simp only [execBy, Option.some.injEq, Prod.mk.injEq] at h
      obtain ⟨rfl, rfl⟩ := h
      exact hrun
  | cons l ls ih =>
      intro tr tr' s s' hrun h
      unfold execBy at h
      split at h
      · rename_i hok
        split at h
        · rename_i s₁ e hs
          exact ih (.snoc hrun hok hs) h
        · cases h
      · cases h

/-- Observations of the trace grow by what they see in the last event. -/
theorem filterMap_snoc {ω : Type*} (f : ε → Option ω) (tr : List ε) (e : ε) :
    (tr ++ [e]).filterMap f = tr.filterMap f ++ (f e).toList := by
  rw [List.filterMap_append]
  rfl

/-- An event of a longer trace is the last one or was there before. -/
theorem snoc_eq_append_cons {tr pre post : List ε} {e a : ε} (h : tr ++ [e] = pre ++ a :: post) :
    (pre = tr ∧ a = e) ∨ ∃ post', tr = pre ++ a :: post' := by
  rcases List.eq_nil_or_concat post with rfl | ⟨post', b, rfl⟩
  · have heq := List.append_inj_left' h rfl
    have heq' := List.append_inj_right' h rfl
    exact .inl ⟨heq.symm, (List.singleton_inj.mp heq').symm⟩
  · rw [List.concat_eq_append, ← List.cons_append, ← List.append_assoc] at h
    exact .inr ⟨post', List.append_inj_left' h rfl⟩

/-- The same for several events at the end. -/
theorem append_eq_append_cons {tr es pre post : List ε} {a : ε} (h : tr ++ es = pre ++ a :: post) :
    (∃ post', tr = pre ++ a :: post' ∧ post = post' ++ es) ∨ ∃ pre', es = pre' ++ a :: post := by
  rcases List.append_eq_append_iff.mp h with ⟨pre', -, hes⟩ | ⟨post', htr, hes⟩
  · exact .inr ⟨pre', hes⟩
  · cases post' with
    | nil => exact .inr ⟨[], hes.symm⟩
    | cons b post' =>
        obtain ⟨rfl, rfl⟩ := List.cons.inj hes
        exact .inl ⟨post', htr, rfl⟩

/-- Something has happened, and nothing since then that puts an end to it. -/
def Since (log : List ε) (happened : List ε → ε → Prop) (stop : ε → Prop) : Prop :=
  ∃ before e after, log = before ++ e :: after ∧ happened before e ∧ ∀ x ∈ after, ¬ stop x

theorem since_snoc {log : List ε} {happened : List ε → ε → Prop} {stop : ε → Prop} {a : ε} :
    Since (log ++ [a]) happened stop ↔ happened log a ∨ Since log happened stop ∧ ¬ stop a := by
  constructor
  · rintro ⟨before, e, after, heq, he, hafter⟩
    rcases snoc_eq_append_cons heq with ⟨rfl, rfl⟩ | ⟨after', rfl⟩
    · exact .inl he
    · rw [List.append_assoc, List.cons_append, List.append_right_inj, List.cons_inj_right] at heq
      subst heq
      refine .inr ⟨⟨before, e, after', rfl, he, fun x hx => ?_⟩, ?_⟩
      · exact hafter x (List.mem_append_left _ hx)
      · exact hafter a (List.mem_append_right _ (List.mem_singleton_self a))
  · rintro (ha | ⟨⟨before, e, after, rfl, he, hafter⟩, hstop⟩)
    · exact ⟨log, a, [], rfl, ha, nofun⟩
    · refine ⟨before, e, after ++ [a], by simp, he, fun x hx => ?_⟩
      rcases List.mem_append.mp hx with hx | hx
      · exact hafter x hx
      · rwa [List.mem_singleton.mp hx]

theorem Since.append {log es : List ε} {happened : List ε → ε → Prop} {stop : ε → Prop}
    (h : Since log happened stop) (hes : ∀ x ∈ es, ¬ stop x) :
    Since (log ++ es) happened stop := by
  obtain ⟨before, e, after, rfl, he, hafter⟩ := h
  refine ⟨before, e, after ++ es, by simp, he, fun x hx => ?_⟩
  rcases List.mem_append.mp hx with hx | hx
  · exact hafter x hx
  · exact hes x hx

/-- `P` holds of every event of a trace and what came before it. -/
def Always (P : List ε → ε → Prop) (tr : List ε) : Prop :=
  ∀ pre e post, tr = pre ++ e :: post → P pre e

theorem always_nil {P : List ε → ε → Prop} : Always P [] := by
  intro pre e post h
  cases pre <;> cases h

theorem always_snoc {P : List ε → ε → Prop} {tr : List ε} {a : ε} :
    Always P (tr ++ [a]) ↔ Always P tr ∧ P tr a := by
  constructor
  · intro h
    refine ⟨?_, h tr a [] rfl⟩
    rintro pre e post rfl
    exact h pre e (post ++ [a]) (by simp)
  · rintro ⟨h, ha⟩ pre e post heq
    rcases snoc_eq_append_cons heq with ⟨rfl, rfl⟩ | ⟨post', htr⟩
    · exact ha
    · exact h pre e post' htr

/-- What the condition of the steps says of their events holds all along the run. -/
theorem Run.always {P : List ε → ε → Prop}
    (hP : ∀ {tr s l s' e}, ok tr s l → step s l = some (s', e) → P tr e)
    {tr : List ε} {s : σ} (h : Run step ok s₀ tr s) : Always P tr := by
  induction h with
  | start => exact always_nil
  | snoc _ hok hs ih => exact always_snoc.mpr ⟨ih, hP hok hs⟩

theorem flatMap_snoc {ω : Type*} (f : ε → List ω) (tr : List ε) (e : ε) :
    (tr ++ [e]).flatMap f = tr.flatMap f ++ f e := by
  rw [List.flatMap_append, List.flatMap_singleton]

end Nachos.Lib
