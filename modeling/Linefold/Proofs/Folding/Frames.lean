import Linefold.Folder

/-!
# Frames on the operand stack

`s.stacked fs`: the stack `s` with open frames on it, innermost first, each a list of values, last first. All
a fold ever sees of its operand stack is such frames, and each operation on the stack is one on the
innermost of them (`push_stacked`, `pop_stacked`, `closeFrame_stacked` and so on).
-/

namespace Linefold

variable {s : OperandStack} {p : Pool} {id a b : NodeId} {vs : List NodeId} {fs : List (List NodeId)}
  {n : Nat}

namespace OperandStack

def stacked (s : OperandStack) : List (List NodeId) → OperandStack
  | [] => s
  | vs :: fs =>
    { items := (s.stacked fs).items ++ vs.reverse.toArray
      frames := (s.stacked fs).items.size :: (s.stacked fs).frames }

theorem openFrame_stacked : (s.stacked fs).openFrame = s.stacked ([] :: fs) := by
  simp [openFrame, stacked]

theorem push_stacked : (s.stacked (vs :: fs)).push id = s.stacked ((id :: vs) :: fs) := by
  simp [push, stacked]

theorem pop_stacked : (s.stacked ((id :: vs) :: fs)).pop = (some id, s.stacked (vs :: fs)) := by
  simp [pop, stacked, base]

theorem pop_stacked_nil : (s.stacked ([] :: fs)).pop = (none, s.stacked ([] :: fs)) := by
  simp [pop, stacked, base]

theorem popMany_stacked : (s.stacked (vs :: fs)).popMany n = (vs.take n, s.stacked (vs.drop n :: fs)) := by
  induction n generalizing vs with
  | zero => rfl
  | succ n ih =>
    unfold popMany
    cases vs with
    | nil => simp [pop_stacked_nil]
    | cons v vs => simp [pop_stacked, ih]

theorem closeFrame_stacked : (s.stacked (vs :: fs)).closeFrame = (vs.reverse, s.stacked fs) := by
  have htake : vs.reverse.take vs.length = vs.reverse := List.take_of_length_le (by simp)
  simp [closeFrame, stacked, base, htake]

end OperandStack

/-! ### Computations on values -/

namespace ValuesM

theorem push_stacked : push id ⟨p, s.stacked (vs :: fs)⟩ = .ok () ⟨p, s.stacked ((id :: vs) :: fs)⟩ := by
  simp only [push, OperandStack.push_stacked]

theorem pop_stacked : pop ⟨p, s.stacked ((id :: vs) :: fs)⟩ = .ok id ⟨p, s.stacked (vs :: fs)⟩ := by
  simp only [pop, OperandStack.pop_stacked]

theorem popPair_stacked :
    popPair ⟨p, s.stacked ((b :: a :: vs) :: fs)⟩ = .ok (a, b) ⟨p, s.stacked (vs :: fs)⟩ := by
  simp only [popPair, bind, EStateM.bind, pop_stacked]
  rfl

theorem popMany_stacked {top : List NodeId} :
    popMany top.length ⟨p, s.stacked ((top ++ vs) :: fs)⟩ = .ok top.reverse ⟨p, s.stacked (vs :: fs)⟩ := by
  induction top with
  | nil => rfl
  | cons id top ih =>
    simp only [List.length_cons, popMany, bind, EStateM.bind, List.cons_append, pop_stacked, ih,
      List.reverse_cons]
    rfl

theorem closeFrame_stacked : closeFrame ⟨p, s.stacked (vs :: fs)⟩ = .ok vs ⟨p, s.stacked fs⟩ := by
  simp only [closeFrame, OperandStack.closeFrame_stacked, List.reverse_reverse]

theorem leave_stacked {n : Node} : leave n ⟨p, s.stacked (vs :: fs)⟩ =
    .ok () ⟨(p.intern n).2, s.stacked (((p.intern n).1 :: vs) :: fs)⟩ := by
  simp only [leave, bind, EStateM.bind, intern, push_stacked]

end ValuesM

namespace Machine

theorem openFrame_stacked : openFrame ⟨p, s.stacked fs⟩ = .ok () ⟨p, s.stacked ([] :: fs)⟩ := by
  simp only [openFrame, OperandStack.openFrame_stacked]

theorem takeArgs_stacked :
    takeArgs n ⟨p, s.stacked (vs :: fs)⟩ = .ok (vs.take n) ⟨p, s.stacked (vs.drop n :: fs)⟩ := by
  simp only [takeArgs, OperandStack.popMany_stacked]

/-! ### Steps and runs -/

theorem onValues_of_ok {α : Type} {f : ValuesM α} {k : α → Machine → Step} {a : α} {v v' : Values}
    {e : Environment} {b : Nat} (h : f v = .ok a v') : onValues ⟨v, e, b⟩ f k = k a ⟨v', e, b⟩ := by
  simp only [onValues, h]

theorem lexicon_of_lambda {es : List NodeId} {callee : Callee} (h : lambda p es = .ok callee) :
    callee.lexicon = [] := by
  unfold lambda at h
  split at h
  · split at h <;> cases h
    rfl
  · cases h

section

variable {m : Machine} {nid : NodeId} {t : Tag} {es : List NodeId} {plan : Plan} {err : Error}

/-- What a visit to a node with children leaves to be done. -/
def Plan.step (m : Machine) (plan : Plan) : Step :=
  if plan.frame then m.reducing openFrame plan.tasks else .ok plan.tasks m

theorem visit_of_plan (h : m.pool.get? nid = some (.branch t es)) (ht : t ≠ .lambda)
    (hplan : Machine.plan nid t es = .ok plan) : m.visit nid = plan.step m := by
  unfold visit
  cases t with
  | lambda => exact absurd rfl ht
  | _ => simp only [h, hplan]; rfl

theorem visit_of_error (h : m.pool.get? nid = some (.branch t es)) (ht : t ≠ .lambda)
    (hplan : Machine.plan nid t es = .error err) : m.visit nid = .error err m := by
  unfold visit
  cases t with
  | lambda => exact absurd rfl ht
  | _ => simp only [h, hplan]

end

variable {m : Machine} {t : Task} {ts : List Task}

theorem run_nil : m.run [] = .ok () m := by
  rw [run]

theorem run_cons : m.run (t :: ts) =
    match m.resume t with
    | .ok new m' => m'.run (new ++ ts)
    | .error e m' => .error e m' := by
  rw [run]
  split <;> rename_i heq <;> simp only [heq]

theorem run_of_resume {m' : Machine} {new : List Task} (h : m.resume t = .ok new m') (ts : List Task) :
    m.run (t :: ts) = m'.run (new ++ ts) := by
  rw [run_cons, h]

theorem fold_of_ok {s : OperandStack} {e : Environment} {b : Nat} {nid : NodeId}
    (h : run ⟨⟨p, s.openFrame⟩, e, operatorBudget⟩ [.operand nid] = .ok () m) : fold ⟨⟨p, s⟩, e, b⟩ nid = m.finish := by
  simp only [fold, h]

theorem fold_of_error {s : OperandStack} {e : Environment} {b : Nat} {nid : NodeId} {err : Error}
    (h : run ⟨⟨p, s.openFrame⟩, e, operatorBudget⟩ [.operand nid] = .error err m) :
    fold ⟨⟨p, s⟩, e, b⟩ nid = .error err ⟨⟨m.pool, {}⟩, m.env.exitTo e.depth, m.budget⟩ := by
  simp only [fold, h]
  rfl

end Machine

end Linefold
