import Linefold.Proofs.Folding.Limited
import Linefold.Proofs.Interning
import Linefold.Proofs.Isolation.Steps

/-!
# Frames isolate

A node that is folded in a frame of its own pushes one value, or fails, and what it does is the same whatever operands
are on the stack (`Machine.run_framed`). So a function in parentheses, in a list or in an operand takes no arguments from
outside. It follows from steps on two grounds (`matches_run`): the tasks that are carried out in the frame lead from this
one frame to this one frame.
-/

namespace Linefold

/-! ### Layers are determined by what stands on a ground -/

theorem OperandStack.openFrame_eq_stacked (s : OperandStack) : s.openFrame = s.stacked [[]] := by
  simp [openFrame, stacked]

theorem OperandStack.length_frames_stacked {s : OperandStack} {fs : List (List NodeId)} :
    (s.stacked fs).frames.length = fs.length + s.frames.length := by
  induction fs with
  | nil => simp [stacked]
  | cons vs fs ih =>
    simp only [stacked, List.length_cons, ih]
    omega

theorem OperandStack.stacked_injective {s : OperandStack} {fs gs : List (List NodeId)} (h : s.stacked fs = s.stacked gs) :
    fs = gs := by
  have hlength : fs.length = gs.length := by
    have h := congrArg (·.frames.length) h
    simp only [length_frames_stacked] at h
    omega
  induction fs generalizing gs with
  | nil => exact (List.eq_nil_of_length_eq_zero hlength.symm).symm
  | cons vs fs ih =>
    obtain ⟨ws, gs, rfl⟩ := List.exists_cons_of_length_eq_add_one hlength.symm
    have hclosed := congrArg closeFrame h
    rw [closeFrame_stacked, closeFrame_stacked] at hclosed
    obtain ⟨hvalues, hrest⟩ := Prod.mk.inj hclosed
    rw [List.reverse_injective hvalues, ih hrest (Nat.succ.inj hlength)]

theorem Layer.on_injective {x y : Layer} {g : Ground} (h : x.on g = y.on g) : x = y := by
  obtain ⟨p, fs, scs, b⟩ := x
  obtain ⟨q, gs, scs', b'⟩ := y
  obtain ⟨hvalues, henv, rfl⟩ := Machine.mk.inj h
  obtain ⟨rfl, hstack⟩ := Values.mk.inj hvalues
  obtain ⟨hinner, -, -⟩ := Environment.mk.inj henv
  obtain rfl := OperandStack.stacked_injective hstack
  obtain rfl := List.append_cancel_right hinner
  rfl

/-! ### Reductions that close a frame -/

namespace Reduction

open ValuesM

/-- The reduction closes the innermost frame and pushes one value, whatever stack the frame is on. -/
def Closes (r : Reduction) : Prop :=
  ∀ p vs, ∃ v q, ∀ s : OperandStack, r.run ⟨p, s.stacked [vs]⟩ = .ok () ⟨q, s.push v⟩

theorem exists_single (p : Pool) (vs : List NodeId) :
    ∃ v q, ∀ s : OperandStack, single vs ⟨p, s⟩ = .ok v ⟨q, s⟩ := by
  unfold single
  split
  · exact ⟨_, p, fun _ => rfl⟩
  · exact ⟨_, _, fun _ => rfl⟩

theorem closes_collect : Closes .collect := by
  intro p vs
  obtain ⟨v, q, hsingle⟩ := exists_single p vs
  refine ⟨v, q, fun s => ?_⟩
  simp only [run, bind, EStateM.bind, closeFrame_stacked, hsingle]
  rfl

theorem closes_close {t : Tag} : Closes (.close t) := by
  intro p vs
  have hplain (t : Tag) : ∃ v q, ∀ s : OperandStack,
      (do leave (.branch t (← closeFrame)) : ValuesM Unit) ⟨p, s.stacked [vs]⟩ = .ok () ⟨q, s.push v⟩ := by
    refine ⟨(p.intern (.branch t vs)).1, (p.intern (.branch t vs)).2, fun s => ?_⟩
    simp only [bind, EStateM.bind, closeFrame_stacked]
    rfl
  cases t
  case prog =>
    let q := (p.intern (.branch .exprs vs)).2
    let n := Node.branch .prog [(p.intern (.branch .exprs vs)).1]
    refine ⟨(q.intern n).1, (q.intern n).2, fun s => ?_⟩
    simp only [run, bind, EStateM.bind, closeFrame_stacked]
    rfl
  case paren =>
    obtain ⟨v, q, hsingle⟩ := exists_single p vs
    refine ⟨(q.intern (.branch .paren [v])).1, (q.intern (.branch .paren [v])).2, fun s => ?_⟩
    simp only [run, bind, EStateM.bind, closeFrame_stacked]
    rw [show s.stacked [] = s from rfl, hsingle]
    rfl
  all_goals exact hplain _

end Reduction

/-- The task folds a node in a frame of its own. -/
def Task.Framed (p : Pool) : Task → Prop
  | .operand _ => True
  | .visit nid => ∃ tag ∈ [Tag.prog, .paren, .list], p.tag? nid = some tag
  | _ => False

namespace Machine

open Linefold.Task (ShiftsAll)

variable {m : Machine} {g g' : Ground} {x : Layer} {c : Nat × Nat} {t : Task} {ts us : List Task} {p q : Pool}
  {e : Environment} {b : Nat} {nid : NodeId} {es : List NodeId} {r : Reduction}

/-! ### Results on two grounds -/

theorem Matches.of_ok {α : Type} {P : α → Layer → Prop} {a : α} {r : EStateM.Result Error Machine α}
    (h : Matches g g' P (.ok a m) r) : ∃ y, P a y ∧ m = Layer.on y g ∧ r = .ok a (Layer.on y g') := by
  cases h with
  | ok h => exact ⟨_, h, rfl, rfl⟩

theorem Matches.of_error {α : Type} {P : α → Layer → Prop} {err : Error} {r : EStateM.Result Error Machine α}
    (h : Matches g g' P (.error err m) r) :
    (∃ y, m = Layer.on y g ∧ r = .error err (Layer.on y g')) ∨
      g'.env.depth < g.env.depth ∧ err = .recursion g.env.limit := by
  cases h with
  | error => exact .inl ⟨_, rfl, rfl⟩
  | deep hdepth => exact .inr ⟨hdepth, rfl⟩

/-! ### Runs -/

/-- Tasks wait until those before them are done. -/
theorem run_append : m.run (ts ++ us) =
    match m.run ts with
    | .ok () m' => m'.run us
    | .error err m' => .error err m' := by
  induction m, ts using run.induct with
  | case1 m => rw [run_nil, List.nil_append]
  | case2 m t ts new m' hstep _ ih =>
    rw [List.cons_append, run_cons, run_cons, hstep]
    simp only
    rw [← List.append_assoc]
    exact ih
  | case3 m t ts err m' hstep =>
    rw [List.cons_append, run_cons, run_cons, hstep]

/-- A run comes to the same on two grounds where names have the same meaning. -/
theorem matches_run (hg : g.Reads g') (h : ShiftsAll ts x.size c) :
    Matches g g' (fun _ y => y.size = c) (run (x.on g) ts) (run (x.on g') ts) := by
  generalize hm : x.on g = m
  induction m, ts using run.induct generalizing x with
  | case1 m =>
    subst hm
    cases h
    rw [run_nil, run_nil]
    exact .ok rfl
  | case2 m t ts new m' hstep _ ih =>
    subst hm
    obtain _ | ⟨ht, hts⟩ := h
    have hsteps := steps_resume hg ht
    rw [hstep] at hsteps
    rw [run_cons, run_cons, hstep]
    generalize (x.on g').resume t = r at hsteps
    cases hsteps with
    | ok hnew => exact ih (hnew.append hts) rfl
  | case3 m t ts err m' hstep =>
    subst hm
    obtain _ | ⟨ht, -⟩ := h
    have hsteps := steps_resume hg ht
    rw [hstep] at hsteps
    rw [run_cons, run_cons, hstep]
    generalize (x.on g').resume t = r at hsteps
    cases hsteps with
    | error => exact .error
    | deep hdepth => exact .deep hdepth

/-- A run does not depend on the operands that it is carried out on. -/
theorem run_on_stacks (e : Environment) (h : ShiftsAll ts x.size c) :
    (∃ y, Layer.size y = c ∧ ∀ s, run (x.on ⟨s, e⟩) ts = .ok () (y.on ⟨s, e⟩)) ∨
      ∃ err y, ∀ s, run (x.on ⟨s, e⟩) ts = .error err (Layer.on y ⟨s, e⟩) := by
  have hruns (s : OperandStack) : Matches ⟨{}, e⟩ ⟨s, e⟩ (fun _ y => y.size = c) (run (x.on ⟨{}, e⟩) ts)
      (run (x.on ⟨s, e⟩) ts) := matches_run (Ground.reads_of_env_eq rfl) h
  cases hrun : run (x.on ⟨{}, e⟩) ts with
  | ok _ m =>
    simp only [hrun] at hruns
    obtain ⟨y, hy, rfl, -⟩ := (hruns {}).of_ok
    refine .inl ⟨y, hy, fun s => ?_⟩
    obtain ⟨z, -, hyz, hs⟩ := (hruns s).of_ok
    rw [hs, ← Layer.on_injective hyz]
  | error err m =>
    simp only [hrun] at hruns
    rcases (hruns {}).of_error with ⟨y, rfl, -⟩ | ⟨hdepth, -⟩
    · refine .inr ⟨err, y, fun s => ?_⟩
      rcases (hruns s).of_error with ⟨z, hyz, hs⟩ | ⟨hdepth, -⟩
      · rw [hs, ← Layer.on_injective hyz]
      · exact absurd hdepth (Nat.lt_irrefl _)
    · exact absurd hdepth (Nat.lt_irrefl _)

/-! ### Tasks that are carried out in a frame of their own -/

/-- The task pushes one value or fails, and what it does is the same whatever operands are on the stack and whatever
tasks wait. -/
def Isolated (p : Pool) (e : Environment) (b : Nat) (t : Task) : Prop :=
  (∃ v q b', ∀ s ts, run ⟨⟨p, s⟩, e, b⟩ (t :: ts) = run ⟨⟨q, s.push v⟩, e, b'⟩ ts) ∨
    ∃ err y, ∀ s ts, run ⟨⟨p, s⟩, e, b⟩ (t :: ts) = .error err (Layer.on y ⟨s, e⟩)

theorem isolated_of_frame (us : List Task) (r : Reduction) (hus : ∀ u ∈ us, u.Stays) (hr : r.Closes)
    (hstep : ∀ s, resume ⟨⟨p, s⟩, e, b⟩ t = .ok (us ++ [.reduce r]) ⟨⟨p, s.openFrame⟩, e, b⟩) : Isolated p e b t := by
  let x : Layer := ⟨p, [[]], [], b⟩
  have hrun (s : OperandStack) (ts : List Task) : run ⟨⟨p, s⟩, e, b⟩ (t :: ts) =
      match run (x.on ⟨s, e⟩) us with
      | .ok () m => m.run (.reduce r :: ts)
      | .error err m => .error err m := by
    have hopen : (⟨⟨p, s.openFrame⟩, e, b⟩ : Machine) = x.on ⟨s, e⟩ := by
      rw [s.openFrame_eq_stacked]
      rfl
    rw [run_cons, hstep, hopen]
    simp only
    rw [List.append_assoc, run_append]
    rfl
  have hshifts : ShiftsAll us x.size (1, 0) := .of_stays hus
  rcases run_on_stacks e hshifts with ⟨y, hy, hok⟩ | ⟨err, y, herror⟩
  · obtain ⟨q, fs, scs, b'⟩ := y
    obtain ⟨hframes, hscopes⟩ := Prod.mk.inj hy
    obtain ⟨vs, rfl⟩ := List.length_eq_one_iff.1 hframes
    obtain rfl := List.eq_nil_of_length_eq_zero hscopes
    obtain ⟨v, q', hclose⟩ := hr q vs
    refine .inl ⟨v, q', b', fun s ts => ?_⟩
    have hreduce : resume (Layer.on ⟨q, [vs], [], b'⟩ ⟨s, e⟩) (.reduce r) = .ok [] ⟨⟨q', s.push v⟩, e, b'⟩ :=
      onValues_of_ok (hclose s)
    rw [hrun, hok]
    simp only
    rw [run_cons, hreduce]
    rfl
  · refine .inr ⟨err, y, fun s ts => ?_⟩
    rw [hrun, herror]

theorem isolated_operand : Isolated p e b (.operand nid) :=
  isolated_of_frame [.visit nid] .collect (by simp [Task.Stays]) Reduction.closes_collect fun _ => rfl

theorem isolated_visit {tag : Tag} (htag : tag ∈ [.prog, .paren, .list]) (h : p.get? nid = some (.branch tag es)) :
    Isolated p e b (.visit nid) := by
  have hvisit (ids : List NodeId) (hlambda : tag ≠ .lambda)
      (hplan : plan nid tag es = .ok ⟨true, ids.map .visit ++ [.reduce (.close tag)]⟩) : Isolated p e b (.visit nid) := by
    refine isolated_of_frame (ids.map .visit) (.close tag) (List.forall_mem_map.2 fun _ _ => rfl)
      Reduction.closes_close fun s => ?_
    exact visit_of_plan (m := ⟨⟨p, s⟩, e, b⟩) h hlambda hplan
  simp only [List.mem_cons, List.not_mem_nil, or_false] at htag
  rcases htag with rfl | rfl | rfl
  · exact hvisit (es.take 1) (by decide) rfl
  · exact hvisit es.reverse (by decide) rfl
  · exact hvisit es.reverse (by decide) rfl

/-- A task that folds a node in a frame of its own, in any state of the folder: either it pushes one value on the current
frame and leaves all operands, frames and scopes as they are, or it fails. Which of the two, and the value, the error and
all else that it does, is the same whatever operands are on the stack and whatever tasks wait. -/
theorem run_framed (p : Pool) (e : Environment) (b : Nat) (t : Task) (h : t.Framed p) :
    (∃ v q b', ∀ s ts, run ⟨⟨p, s⟩, e, b⟩ (t :: ts) = run ⟨⟨q, s.push v⟩, e, b'⟩ ts) ∨
      ∃ err y, ∀ s ts, run ⟨⟨p, s⟩, e, b⟩ (t :: ts) = .error err (Layer.on y ⟨s, e⟩) := by
  cases t with
  | operand nid => exact isolated_operand
  | visit nid =>
    obtain ⟨tag, htag, hnid⟩ := h
    obtain ⟨n, hn, rfl⟩ := Option.map_eq_some_iff.1 hnid
    cases n with
    | branch tag es => exact isolated_visit htag hn
    | _ => simp [Node.tag] at htag
  | _ => exact h.elim

/-- An identity function in parentheses. -/
def parenthesised : Pool := .ofNodes [.ident "x", .branch .list [1], .branch .lambda [2, 1, 2], .branch .paren [3]]

theorem run_framed_parenthesised : Task.Framed parenthesised (.visit 4) ∧
    ∃ v q b, ∀ s ts, run ⟨⟨parenthesised, s⟩, .initial, 1⟩ (.visit 4 :: ts) = run ⟨⟨q, s.push v⟩, .initial, b⟩ ts := by
  have hframed : Task.Framed parenthesised (.visit 4) := ⟨.paren, by decide, by decide +kernel⟩
  refine ⟨hframed, (run_framed parenthesised .initial 1 _ hframed).resolve_right ?_⟩
  rintro ⟨err, y, herror⟩
  obtain ⟨m, hrun, -⟩ : ∃ m, run ⟨⟨parenthesised, {}⟩, .initial, 1⟩ [.visit 4] = .ok () m ∧
      m.values.stack.frameSize = 1 := exists_of_frameSize? (n := 12) (by decide +kernel)
  cases hrun.symm.trans (herror {} [])

end Machine

end Linefold
