import Linefold.Proofs.Twins.Tasks

/-!
# Folding over two pools

Machines that are alike stay so on the way through related tasks, if visits to related nodes keep them so
(`Machine.Alike.run_of`). Nodes that are alike are visited alike, so folds of one tree in two pools give one
tree, or fail with the same error (`Machine.Alike.fold`).
-/

namespace Linefold.Machine

attribute [local irreducible] Pool.intern

variable {S : Twin → NodeId → NodeId → Prop} {i j : NodeId} {t u : Task} {ts us : List Task} {m n : Machine}

/-! ### Runs -/

/-- The tasks are carried out in the same way, or the second one leaves nothing to do at once and the first
one comes to the same in some steps. -/
inductive Carried (S : Twin → NodeId → NodeId → Prop) (m n : Machine) (t u : Task) : Prop where
  | steps (h : StepsRelated S (m.twin n) (m.resume t) (n.resume u)) : Carried S m n t u
  | done {m' n' : Machine} (hm : ∀ ts, m.run (t :: ts) = m'.run ts) (hn : n.resume u = .ok [] n')
      (hgrows : (m.twin n).Grows (m'.twin n')) (h : m'.Alike n') : Carried S m n t u

/-- Machines that are alike carry visits to related nodes out alike. -/
def VisitsRelated (S : Twin → NodeId → NodeId → Prop) : Prop :=
  ∀ {m n : Machine} {i j : NodeId}, m.Alike n → S (m.twin n) i j → Carried S m n (.visit i) (.visit j)

theorem Alike.carried [Twin.Widens S] (h : m.Alike n) (hvisit : VisitsRelated S)
    (htu : Task.Related S (m.twin n) t u) : Carried S m n t u := by
  by_cases hv : ∃ i, t = .visit i
  · obtain ⟨i, rfl⟩ := hv
    cases htu with
    | visit hij => exact hvisit h hij
  · exact .steps (h.resume htu fun i hi => hv ⟨i, hi⟩)

/-- The induction is on the run of the second machine, since the first one may take more steps. -/
theorem Alike.run_of [Twin.Widens S] (hvisit : VisitsRelated S) (h : m.Alike n)
    (htasks : Task.AllRelated S (m.twin n) ts us) :
    Corresponds (m.twin n) (fun _ => Eq) (m.run ts) (n.run us) := by
  fun_induction Machine.run n us generalizing m ts with
  | case1 n =>
    cases htasks
    rw [run_nil]
    exact ⟨.refl _, h, rfl⟩
  | case2 n u us new n' hresume _ ih =>
    rcases htasks with _ | @⟨t, _, ts, _, htu, hrest⟩
    cases h.carried hvisit htu with
    | steps hstep =>
      rw [run_cons]
      rw [hresume] at hstep
      generalize m.resume t = left at hstep ⊢
      cases left with
      | error e' m' => exact hstep.elim
      | ok new' m' =>
        obtain ⟨hgrows, h, hnew⟩ := hstep
        exact (ih h (List.rel_append hnew (Task.AllRelated.mono hrest hgrows))).mono_left hgrows
    | done hm hn hgrows h =>
      cases hn.symm.trans hresume
      rw [hm]
      exact (ih h (Task.AllRelated.mono hrest hgrows)).mono_left hgrows
  | case3 n u us e n' hresume =>
    rcases htasks with _ | @⟨t, _, ts, _, htu, hrest⟩
    cases h.carried hvisit htu with
    | steps hstep =>
      rw [run_cons]
      rw [hresume] at hstep
      generalize m.resume t = left at hstep ⊢
      cases left with
      | ok new' m' => exact hstep.elim
      | error e' m' => exact hstep
    | done hm hn => cases hn.symm.trans hresume

/-! ### Folds -/

theorem Alike.finish (h : m.Alike n) : Corresponds (m.twin n) Twin.Alike m.finish n.finish := by
  obtain ⟨⟨p, s⟩, env, k⟩ := m
  obtain ⟨⟨q, t⟩, env', l⟩ := n
  obtain ⟨hstack, henv, hbudget⟩ := h
  obtain ⟨hids, hrest⟩ := hstack.closeFrame
  generalize hs : s.closeFrame = left, ht : t.closeFrame = right at hids hrest
  obtain ⟨ids, s'⟩ := left
  obtain ⟨ids', t'⟩ := right
  simp only [Machine.finish, hs, ht]
  rcases hids with _ | ⟨hid, _ | ⟨hx, hids⟩⟩
  · exact ⟨.refl _, ⟨hrest, henv, hbudget⟩, rfl⟩
  · exact ⟨.refl _, ⟨hrest, henv, hbudget⟩, hid⟩
  · exact ⟨.refl _, ⟨hrest, henv, hbudget⟩, rfl⟩

/-- Folds of related nodes give one tree. -/
theorem Alike.fold_of [Twin.Widens S] (hvisit : VisitsRelated S) (h : m.Alike n) (hij : S (m.twin n) i j) :
    Corresponds (m.twin n) Twin.Alike (m.fold i) (n.fold j) := by
  obtain ⟨⟨p, s⟩, env, k⟩ := m
  obtain ⟨⟨q, t⟩, env', l⟩ := n
  have hopen : Alike ⟨⟨p, s.openFrame⟩, env, operatorBudget⟩ ⟨⟨q, t.openFrame⟩, env', operatorBudget⟩ :=
    ⟨h.stack.openFrame, h.env, rfl⟩
  have hrun := hopen.run_of hvisit (.cons (.operand hij) .nil)
  unfold Machine.fold
  unfold Corresponds at hrun
  split at hrun
  · next m' _ n' hm hn =>
    obtain ⟨hgrows, h, -⟩ := hrun
    simp only [hm, hn]
    exact h.finish.mono_left hgrows
  · next e m' e' n' hm hn =>
    obtain ⟨hgrows, h', he⟩ := hrun
    simp only [hm, hn]
    have hdepth : env.depth = env'.depth := h.env.depth_eq
    refine ⟨hgrows, ⟨.empty, ?_, h'.budget⟩, he⟩
    rw [hdepth]
    exact h'.env.exitTo
  · exact hrun.elim

/-- Folding one tree in two pools gives one tree. -/
theorem Alike.fold (h : m.Alike n) (hij : (m.twin n).Alike i j) :
    Corresponds (m.twin n) Twin.Alike (m.fold i) (n.fold j) :=
  h.fold_of (fun h hij => .steps (h.visit hij)) hij

end Linefold.Machine
