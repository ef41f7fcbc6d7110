import Mathlib

/-!
# Runs and simulations

A machine is a step function that takes a state and a call to the next state and an answer. `exec`
is the state after a list of calls, and `outputs` are their answers.

`exec_along` is the rule for invariants. `simulates` is the one for a machine that answers as a
more abstract one does, for calls of a given kind and as long as a guard holds of the abstract
state; the guard is inherited by earlier states, so that it has to be known of the last state only.
`simulates_along` has a condition along the abstract run in its place.
`outputs_eq_iff` says when two machines answer alike, if each single answer is right exactly under a
condition on the abstract state, and `forall_prefix_iff` when an invariant holds all along a run, if
a step keeps it exactly under a condition. `outputs_filter` is about calls that change nothing: they can be
left out of a run.
-/

namespace Libgetar.Lib

variable {σ τ ο ρ : Type*}

/-- The state after the calls. -/
def exec (step : σ → ο → σ × ρ) (s : σ) (os : List ο) : σ := os.foldl (fun s o => (step s o).1) s

/-- The answers of the calls. -/
def outputs (step : σ → ο → σ × ρ) : σ → List ο → List ρ
  | _, [] => []
  | s, o :: os => (step s o).2 :: outputs step (step s o).1 os

/-- `P` holds of the state and the call at every call of a run. -/
def Along (step : σ → ο → σ × ρ) (P : σ → ο → Prop) : σ → List ο → Prop
  | _, [] => True
  | s, o :: os => P s o ∧ Along step P (step s o).1 os

variable {step : σ → ο → σ × ρ} {step' : τ → ο → τ × ρ}

@[simp] theorem exec_nil (s : σ) : exec step s [] = s := rfl

@[simp] theorem exec_cons (s : σ) (o : ο) (os : List ο) :
    exec step s (o :: os) = exec step (step s o).1 os := rfl

@[simp] theorem outputs_nil (s : σ) : outputs step s [] = [] := rfl

@[simp] theorem outputs_cons (s : σ) (o : ο) (os : List ο) :
    outputs step s (o :: os) = (step s o).2 :: outputs step (step s o).1 os := rfl

/-- The answers of a run in two parts. -/
theorem outputs_append (s : σ) (before after : List ο) : outputs step s (before ++ after) =
    outputs step s before ++ outputs step (exec step s before) after := by
  induction before generalizing s with
  | nil => rfl
  | cons o before ih =>
    rw [List.cons_append, outputs_cons, outputs_cons, ih, exec_cons, List.cons_append]

/-- What every step preserves under a condition holds after every run under that condition. -/
theorem exec_along {P : σ → Prop} {C : σ → ο → Prop} (hstep : ∀ s o, C s o → P s → P (step s o).1)
    {s : σ} (hs : P s) {os : List ο} (hC : Along step C s os) : P (exec step s os) := by
  induction os generalizing s with
  | nil => exact hs
  | cons o os ih => exact ih (hstep s o hC.1 hs) hC.2

/-- What holds of the calls in every state holds along every run. -/
theorem along_of_forall {P : σ → ο → Prop} {os : List ο} (h : ∀ o ∈ os, ∀ s, P s o) (s : σ) :
    Along step P s os := by
  induction os generalizing s with
  | nil => trivial
  | cons o os ih =>
    obtain ⟨ho, hos⟩ := List.forall_mem_cons.mp h
    exact ⟨ho s, ih hos _⟩

/-- A property of the calls joins one of the run. -/
theorem Along.and_mem {P : σ → ο → Prop} {Q : ο → Prop} {s : σ} {os : List ο}
    (h : Along step P s os) (hQ : ∀ o ∈ os, Q o) : Along step (fun s o => P s o ∧ Q o) s os := by
  induction os generalizing s with
  | nil => trivial
  | cons o os ih =>
    exact ⟨⟨h.1, hQ o List.mem_cons_self⟩, ih h.2 fun o' ho' => hQ o' (List.mem_cons_of_mem _ ho')⟩

/-- A guard that earlier states inherit holds before a run when it holds after it. -/
theorem guard_of_exec {G : σ → Prop} (hback : ∀ s o, G (step s o).1 → G s) {s : σ}
    (os : List ο) (hG : G (exec step s os)) : G s := by
  induction os generalizing s with
  | nil => exact hG
  | cons o os ih => exact hback s o (ih hG)

/-- A machine that keeps a relation to a more abstract one, and answers as it does, on calls with
`A` as long as the guard holds of the abstract state, does so over every run of such calls at whose
end the guard holds. -/
theorem simulates {R : σ → τ → Prop} {A : ο → Prop} {G : τ → Prop}
    (hback : ∀ t o, G (step' t o).1 → G t)
    (hstep : ∀ s t o, A o → R s t → G (step' t o).1 →
      R (step s o).1 (step' t o).1 ∧ (step s o).2 = (step' t o).2)
    {s : σ} {t : τ} (hR : R s t) {os : List ο} (hA : ∀ o ∈ os, A o) (hG : G (exec step' t os)) :
    R (exec step s os) (exec step' t os) ∧ outputs step s os = outputs step' t os := by
  induction os generalizing s t with
  | nil => exact ⟨hR, rfl⟩
  | cons o os ih =>
    have hnext : G (step' t o).1 := guard_of_exec hback os hG
    obtain ⟨hR', hout⟩ := hstep s t o (hA o List.mem_cons_self) hR hnext
    obtain ⟨hend, houts⟩ := ih hR' (fun o ho => hA o (List.mem_cons_of_mem _ ho)) hG
    exact ⟨hend, by rw [outputs_cons, outputs_cons, hout, houts]⟩

/-- The same under a condition on the abstract state and the call that holds all along the abstract
run. -/
theorem simulates_along {R : σ → τ → Prop} {C : τ → ο → Prop}
    (hstep : ∀ s t o, C t o → R s t →
      R (step s o).1 (step' t o).1 ∧ (step s o).2 = (step' t o).2)
    {s : σ} {t : τ} (hR : R s t) {os : List ο} (hC : Along step' C t os) :
    R (exec step s os) (exec step' t os) ∧ outputs step s os = outputs step' t os := by
  induction os generalizing s t with
  | nil => exact ⟨hR, rfl⟩
  | cons o os ih =>
    obtain ⟨hnext, hout⟩ := hstep s t o hC.1 hR
    obtain ⟨hend, houts⟩ := ih hnext hC.2
    exact ⟨hend, by rw [outputs_cons, outputs_cons, hout, houts]⟩

/-- Two machines answer a run alike exactly if the condition holds at every call of it, when one call
is answered alike exactly under the condition, which also keeps the relation. -/
theorem outputs_eq_iff {R : σ → τ → Prop} {A : ο → Prop} {C : τ → ο → Prop}
    (hstep : ∀ s t o, A o → R s t → ((step s o).2 = (step' t o).2 ↔ C t o) ∧
      (C t o → R (step s o).1 (step' t o).1))
    {s : σ} {t : τ} (hR : R s t) {os : List ο} (hA : ∀ o ∈ os, A o) :
    outputs step s os = outputs step' t os ↔
      ∀ before o after, os = before ++ o :: after → C (exec step' t before) o := by
  induction os generalizing s t with
  | nil => simp
  | cons o os ih =>
    obtain ⟨hanswer, hnext⟩ := hstep s t o (hA o List.mem_cons_self) hR
    have hrest (hC : C t o) := ih (hnext hC) fun o' ho' => hA o' (List.mem_cons_of_mem _ ho')
    rw [outputs_cons, outputs_cons, List.cons.injEq]
    constructor
    · rintro ⟨hfirst, hlater⟩ before o' after heq
      have hC := hanswer.mp hfirst
      rcases before with - | ⟨o'', before⟩
      · -- The first call.
        obtain ⟨rfl, -⟩ := List.cons.inj heq
        exact hC
      · obtain ⟨rfl, htail⟩ := List.cons.inj heq
        exact (hrest hC).mp hlater before o' after htail
    · intro hall
      have hC : C t o := hall [] o os rfl
      refine ⟨hanswer.mpr hC, (hrest hC).mpr fun before o' after heq => ?_⟩
      exact hall (o :: before) o' after (by rw [heq, List.cons_append])

/-- A property that a step keeps exactly under a condition holds behind every part of a run exactly if
the condition holds at every step. -/
theorem forall_prefix_iff {next : σ → ο → σ} {P : σ → Prop} {C : σ → ο → Prop}
    (hstep : ∀ s o, P s → (P (next s o) ↔ C s o)) {s : σ} (hs : P s) (os : List ο) :
    (∀ before after, os = before ++ after → P (before.foldl next s)) ↔
      ∀ before o after, os = before ++ o :: after → C (before.foldl next s) o := by
  constructor
  · intro hall before o after hos
    have hbefore := hall before (o :: after) hos
    have hbehind := hall (before ++ [o]) after (by rw [hos, List.append_assoc]; rfl)
    rw [List.foldl_append] at hbehind
    exact (hstep _ o hbefore).mp hbehind
  · intro hall before
    induction before using List.reverseRecOn with
    | nil => exact fun _ _ => hs
    | append_singleton before o ih =>
      intro after hos
      rw [List.append_assoc] at hos
      rw [List.foldl_append]
      exact (hstep _ o (ih (o :: after) hos)).mpr (hall before o after hos)

/-- Calls that change nothing, and that their answers tell apart, can be left out. -/
theorem outputs_filter {keep : ο → Bool} {kept : ρ → Bool}
    (hkept : ∀ s o, kept (step s o).2 = keep o)
    (hskip : ∀ s o, keep o = false → (step s o).1 = s) (s : σ) (os : List ο) :
    exec step s (os.filter keep) = exec step s os ∧
      outputs step s (os.filter keep) = (outputs step s os).filter kept := by
  induction os generalizing s with
  | nil => exact ⟨rfl, rfl⟩
  | cons o os ih =>
    by_cases ho : keep o = true
    · obtain ⟨hexec, houts⟩ := ih (step s o).1
      rw [List.filter_cons_of_pos ho, exec_cons, exec_cons, outputs_cons, outputs_cons,
        List.filter_cons_of_pos (by rw [hkept]; exact ho)]
      exact ⟨hexec, by rw [houts]⟩
    · have hout : ¬ kept (step s o).2 = true := by rw [hkept]; exact ho
      rw [List.filter_cons_of_neg ho, exec_cons, outputs_cons, List.filter_cons_of_neg hout,
        hskip s o (by simpa using ho)]
      exact ih s

end Libgetar.Lib
