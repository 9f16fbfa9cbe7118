import Linefold.Folder
import Linefold.Proofs.Folding.Steps

/-!
# Folding well-formed trees

A fold of a well-formed tree gives a node, or fails with an error that a program may cause; either way
pool and environment are well-formed again (`fold_wellFormed`).
-/

namespace Linefold

variable {s : OperandStack} {L L' : List Layout} {t : Task} {tasks : List Task}

namespace Machine

variable {m : Machine}

/-! ### Runs -/

theorem Holds.of_leads_nil (h : m.Holds s L) (htasks : Task.Leads m.pool [] L L') : m.Holds s L' := by
  generalize hts : ([] : List Task) = ts at htasks
  induction htasks with
  | nil => exact h
  | cons => cases hts
  | forget _ ih => exact ih h.forget hts

theorem Holds.of_leads_cons (h : m.Holds s L) (htasks : Task.Leads m.pool (t :: tasks) L L') :
    ∃ L₀ L₁, m.Holds s L₀ ∧ t.Turns m.pool L₀ L₁ ∧ Task.Leads m.pool tasks L₁ L' := by
  generalize hts : t :: tasks = ts at htasks
  induction htasks with
  | nil => cases hts
  | cons ht htasks =>
    cases hts
    exact ⟨_, _, h, ht, htasks⟩
  | forget _ ih => exact ih h.forget hts

/-- A run to the end leaves what its tasks lead to. -/
theorem run_holds (h : m.Holds s L) (htasks : Task.Leads m.pool tasks L L') :
    match m.run tasks with
    | .ok () m' => m.pool.Grows m'.pool ∧ m'.Holds s L'
    | .error e m' => e.isOfFold ∧ m.pool.Grows m'.pool ∧ WellFormed m'.pool m'.env := by
  fun_induction run m tasks generalizing L with
  | case1 m => exact ⟨.refl _, h.of_leads_nil htasks⟩
  | case2 m t tasks new m' hresume _ ih =>
    obtain ⟨L₀, L₁, h₀, ht, htasks⟩ := h.of_leads_cons htasks
    have hgoes := goes_resume ht h₀
    rw [hresume] at hgoes
    obtain ⟨hgrows, L₂, h₂, hnew⟩ := hgoes
    have hrun := ih h₂ (hnew.append (htasks.mono hgrows.keeps))
    split at hrun
    · exact ⟨hgrows.trans hrun.1, hrun.2⟩
    · exact ⟨hrun.1, hgrows.trans hrun.2.1, hrun.2.2⟩
  | case3 m t tasks e m' hresume =>
    obtain ⟨L₀, L₁, h₀, ht, -⟩ := h.of_leads_cons htasks
    have hgoes := goes_resume ht h₀
    rw [hresume] at hgoes
    exact hgoes

/-! ### Folds -/

/-- A node that is no binding and no clause is folded to a node, or the fold fails as a program may make
it fail. What it worked on is well-formed afterwards, and the operand stack is as it was. -/
theorem fold_wellFormed {id : NodeId} {n : Node} (h : WellFormed m.pool m.env)
    (hid : m.pool.get? id = some n) (hbinding : n.tag ≠ .binding) (hof : n.tag ≠ .of) :
    match m.fold id with
    | .ok root m' => m'.pool.Fits .value root ∧ m.pool.Grows m'.pool ∧
        WellFormed m'.pool m'.env ∧ m'.values.stack = m.values.stack
    | .error e m' => e.isOfFold ∧ m.pool.Grows m'.pool ∧ WellFormed m'.pool m'.env := by
  obtain ⟨⟨p, s⟩, e, b⟩ := m
  have hopen : (s.stacked []).openFrame = s.stacked [[]] := OperandStack.openFrame_stacked
  have hm : Holds s [.nothing] ⟨⟨p, s.openFrame⟩, e, operatorBudget⟩ :=
    ⟨⟨p, [[]], congrArg _ hopen, h.shaped, .cons .nothing .nil⟩, h.words⟩
  have htasks : Task.Leads p [.operand id] [.nothing] [.on .value .nothing] :=
    .cons (.operand ⟨n, hid, hbinding, hof⟩) .nil
  have hrun := run_holds hm htasks
  unfold fold
  split at hrun
  · next m' hok =>
    obtain ⟨v, e', b'⟩ := m'
    obtain ⟨hgrows, ⟨q, fs, rfl, hq, hfs⟩, hwords⟩ := hrun
    rcases hfs with _ | ⟨_ | _ | ⟨hroot, ⟨⟩⟩, ⟨⟩⟩
    simp only [hok, finish, OperandStack.closeFrame_stacked, List.reverse_singleton]
    exact ⟨hroot, hgrows, ⟨hq, hwords⟩, rfl⟩
  · next err m' herr =>
    obtain ⟨herr', hgrows, hwf⟩ := hrun
    simp only [herr]
    exact ⟨herr', hgrows, hwf.shaped, hwf.words.exitTo⟩

theorem wellFormed_initial {p : Pool} (hp : p.WellShaped)
    (hnames : ∀ w ∈ Environment.operatorWords, ∀ id, p.get? id ≠ some (.ident w.1)) :
    WellFormed p .initial :=
  ⟨hp, Environment.all_initial fun w hw => .operator rfl (hnames w hw)⟩

/-- The pool of a negated name, and the node of the negation. -/
def negatedName : NodeId × Pool :=
  (Pool.empty.intern (.ident "x")).2.intern (.branch .neg [(Pool.empty.intern (.ident "x")).1])

theorem fold_negatedName :
    match (ofPool negatedName.2 .initial).fold negatedName.1 with
    | .ok root m => m.pool.Fits .value root
    | .error e _ => e.isOfFold := by
  have hx : (Node.ident "x").Shaped .empty := trivial
  have hname := Pool.get?_intern_of_shaped hx
  have hneg : (Node.branch .neg [(Pool.empty.intern (.ident "x")).1]).Shaped
      (Pool.empty.intern (.ident "x")).2 :=
    ⟨_, rfl, .cons ⟨_, hname, by simp [Node.tag]⟩ .nil⟩
  have hwf : WellFormed negatedName.2 .initial := by
    refine wellFormed_initial ((Pool.wellShaped_empty.intern hx).intern hneg) fun w hw id hid => ?_
    rcases Pool.of_get?_intern hid with hid | ⟨-, hid⟩
    · rcases Pool.of_get?_intern hid with hid | ⟨-, hid⟩
      · cases id <;> cases hid
      · have hne : ∀ w ∈ Environment.operatorWords, w.1 ≠ "x" := by decide
        exact hne w hw (Node.ident.inj hid)
    · cases hid
  have hnode : negatedName.2.get? negatedName.1 = some (.branch .neg _) :=
    Pool.get?_intern_of_shaped hneg
  have hfold := fold_wellFormed (m := ofPool negatedName.2 .initial) hwf hnode (by simp [Node.tag])
    (by simp [Node.tag])
  generalize (ofPool negatedName.2 .initial).fold negatedName.1 = result at hfold
  cases result with
  | ok root m => exact hfold.1
  | error e m => exact hfold.1

end Machine

end Linefold
