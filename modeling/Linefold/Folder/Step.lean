import Linefold.Environment
import Linefold.Folder.Pattern
import Linefold.Folder.Reduction

/-!
# One step of a fold

`Machine.resume` carries out one task and gives the tasks that have to run next. Expression lists are
visited from the last expression to the first, so when a function is reached the values of what
follows it are on the stack and become its arguments.
-/

namespace Linefold

/-- What a fold works on, tasks apart. -/
structure Machine where
  values : Values
  env : Environment
  /-- How often operator words that stand as plain names may still be applied. -/
  budget : Nat

namespace Machine

instance : Inhabited Machine := ⟨⟨default, .initial, 0⟩⟩

/-- The outcome of a step: what has to run next, or an error. -/
abbrev Step := EStateM.Result Error Machine (List Task)

def pool (m : Machine) : Pool := m.values.pool

/-- A step on values alone, followed by tasks that it decides on. -/
def onValues {α : Type} (m : Machine) (f : ValuesM α) (k : α → Machine → Step) : Step :=
  match m with
  | ⟨v, env, budget⟩ =>
    match f v with
    | .ok a v => k a ⟨v, env, budget⟩
    | .error e v => .error e ⟨v, env, budget⟩

/-- A step on values alone that is followed by the given tasks. -/
def reducing (m : Machine) (f : ValuesM Unit) (tasks : List Task) : Step :=
  m.onValues f fun _ m => .ok tasks m

def fail (m : Machine) (fault : InternalFault) : Step := .error (.internal fault) m

/-- Opens a scope with the given words in it. -/
def entering (m : Machine) (name : String) (lexicon : Lexicon) (words : List Word)
    (tasks : List Task) : Step :=
  match m with
  | ⟨v, env, budget⟩ =>
    match env.enter name with
    | .error e => .error e ⟨v, env, budget⟩
    | .ok env =>
      .ok tasks ⟨v, words.foldl (fun env w => env.bind w.name w) (env.extend lexicon), budget⟩

/-! ### Frames -/

/-- Opens a frame on the operand stack. -/
def openFrame : ValuesM Unit := fun v =>
  match v with
  | ⟨pool, stack⟩ => .ok () ⟨pool, stack.openFrame⟩

/-- Takes up to `n` values from the current frame, top first. -/
def takeArgs (n : Nat) : ValuesM (List NodeId) := fun v =>
  match v with
  | ⟨pool, stack⟩ =>
    let (args, stack) := stack.popMany n
    .ok args ⟨pool, stack⟩

/-- Carries out a computation on the pool. -/
def onPool {α : Type} (f : Pattern.PoolM α) : ValuesM α := fun v =>
  match v with
  | ⟨pool, stack⟩ =>
    match f pool with
    | .ok a pool => .ok a ⟨pool, stack⟩
    | .error e pool => .error e ⟨pool, stack⟩

/-! ### Application -/

/-- A function that can be applied: a `let` definition or a `LAMBDA`. -/
structure Callee where
  name : String
  body : NodeId
  /-- A pattern for each argument. -/
  pattern : List NodeId
  /-- The words of the scope that the function was defined in. -/
  lexicon : Lexicon

/-- Binds the parameters of a function to arguments and gives the tasks for its body. A function
whose list pattern met an argument that is known only at the call stays applied; one with too few
arguments becomes a function of the parameters left. -/
def bindCallee (callee : Callee) (args : List NodeId) :
    Pattern.PoolM (List Word × List Task) := do
  let bound ← Pattern.bindAll args 0 callee.pattern
  if bound.late then
    let (names, pattern) ← Pattern.lambdaParts callee.pattern
    return (bound.words, .operand callee.body :: .reduce (.lambda names pattern) ::
      (args.map (.reduce <| .push ·) ++ [.reduce (.build .apply (args.length + 1)), .exit]))
  else if args.length = callee.pattern.length then
    return (bound.words, [.visit callee.body, .exit])
  else
    let (names, pattern) ← Pattern.lambdaParts (callee.pattern.drop args.length)
    return (bound.words, [.operand callee.body, .reduce (.lambda names pattern), .exit])

/-- Applies a function to the values of the current frame; the top one is the first argument. The
scope of the function is opened before its parameters are looked at. -/
def apply (m : Machine) (callee : Callee) : Step :=
  m.onValues (takeArgs callee.pattern.length) fun args m =>
    if m.env.limit < m.env.depth then .error (.recursion m.env.limit) m
    else m.onValues (onPool (bindCallee callee args)) fun (words, tasks) m =>
      m.entering callee.name callee.lexicon words tasks

/-! ### Names -/

/-- Folds a name. A value without a node stands for itself, and so does a function without a body. An
operator word takes two values and is folded as the operator over them. -/
def visitName (m : Machine) (nid : NodeId) (name : String) : Step :=
  match m.env.lookup? name with
  | none => m.reducing (ValuesM.push nid) []
  | some word =>
    match word.cls with
    | .value => m.reducing (ValuesM.push (if word.nid = 0 then nid else word.nid)) []
    | .function =>
      match word.closure with
      | none => m.reducing (ValuesM.push nid) []
      | some closure =>
        if word.nid = 0 then m.reducing (ValuesM.push nid) []
        else m.apply ⟨name, word.nid, closure.pattern, closure.lexicon⟩
    | .operator tag =>
      m.onValues (takeArgs 2) fun args m =>
        m.onValues (ValuesM.intern (.branch tag args)) fun id m =>
          if args.length = 2 then
            match m with
            | ⟨v, env, budget + 1⟩ => .ok [.visit id] ⟨v, env, budget⟩
            | ⟨v, env, 0⟩ => .error (.internal .operatorBudget) ⟨v, env, 0⟩
          else m.reducing (ValuesM.push id) []

/-! ### Case -/

/-- The parts of an `OF` node. A clause that binds a name lists it as a third child. -/
structure Clause where
  pattern : NodeId
  body : NodeId
  names : Option NodeId
  deriving DecidableEq, Repr

/-- The clause that a node describes. -/
def clause (p : Pool) (id : NodeId) : Except InternalFault Clause :=
  match p.get? id with
  | none => .error (.missingNode id)
  | some n =>
    match n.elts with
    | [pattern, body] => .ok ⟨pattern, body, none⟩
    | [pattern, body, names] => .ok ⟨pattern, body, some names⟩
    | _ => .error .malformedClause

/-- The name that a clause binds to the scrutinee, with the node that lists it. -/
def Clause.variable? (c : Clause) (p : Pool) : Option (String × NodeId) :=
  match c.names, p.get? c.pattern with
  | some names, some (.ident name) => some (name, names)
  | _, _ => none

/-- The tasks that rebuild a clause with folded parts. -/
def residualClause (p : Pool) (id : NodeId) : Except InternalFault (List Task) := do
  let c ← clause p id
  match c.variable? p with
  | some (name, names) =>
    return [.reduce (.push c.pattern), .enter name, .operand c.body, .exit, .reduce (.push names),
      .reduce (.build .of 3)]
  | none => return [.operand c.pattern, .operand c.body, .reduce (.build .of 2)]

/-- Rebuilds a case whose outcome depends on values known only later. -/
def residualCase (m : Machine) (nid scrutinee : NodeId) : Step :=
  match m.pool.get? nid with
  | none => m.fail (.missingNode nid)
  | some n =>
    match (n.elts.drop 1).mapM (residualClause m.pool) with
    | .error fault => m.fail fault
    | .ok tasks =>
      .ok (.reduce (.push scrutinee) :: (tasks.flatten ++ [.reduce (.build .case n.elts.length)])) m

/-- No clause is left. -/
def exhausted (m : Machine) (nid scrutinee : NodeId) : Step :=
  if m.pool.isGround scrutinee then
    let text := ((m.pool.tree? scrutinee).map Tree.text).getD ""
    .error (.nonExhaustiveCase text (m.pool.coord? nid)) m
  else m.residualCase nid scrutinee

/-- Tries the first of the clauses left. A pattern variable matches every value. -/
def select (m : Machine) (nid scrutinee : NodeId) (clauses : List NodeId) : Step :=
  match clauses with
  | [] => m.exhausted nid scrutinee
  | id :: _ =>
    match clause m.pool id with
    | .error fault => m.fail fault
    | .ok c =>
      match c.variable? m.pool with
      | some (name, _) =>
        m.entering "case" [] [{ Word.value name 0 with nid := scrutinee }] [.visit c.body, .exit]
      | none => .ok [.operand c.pattern, .clause nid clauses scrutinee] m

/-- Compares the folded pattern of the first clause left with the scrutinee. Equal nodes match; nodes
that differ and are their own values do not match; all else is left to a later fold. -/
def tryClause (m : Machine) (nid scrutinee pattern : NodeId) : List NodeId → Step
  | [] => m.fail .clauseOutOfRange
  | id :: clauses =>
    if m.pool.unwrapGroup pattern = m.pool.unwrapGroup scrutinee then
      match clause m.pool id with
      | .error fault => m.fail fault
      | .ok c => .ok [.visit c.body] m
    else if m.pool.isGround scrutinee && m.pool.isGround pattern then
      m.select nid scrutinee clauses
    else m.residualCase nid scrutinee

/-! ### Nodes -/

/-- How a node with children is folded: whether in a frame of its own, and by which tasks. -/
structure Plan where
  frame : Bool
  tasks : List Task

/-- The operator of a node over two operands, if it has an outcome at all. -/
def operatorPlan (elts : List NodeId) (reduction : Reduction) : Except Error Plan :=
  match elts with
  | [a, b] => .ok ⟨false, [.operand a, .operand b, .reduce reduction]⟩
  | _ => .error (.internal .operandCount)

/-- The plan for a node with children, a `LAMBDA` apart. -/
def plan (nid : NodeId) (tag : Tag) (elts : List NodeId) : Except Error Plan :=
  match tag with
  | .prog => .ok ⟨true, (elts.take 1).map .visit ++ [.reduce (.close .prog)]⟩
  | .exprs => .ok ⟨false, elts.reverse.map .visit⟩
  | .paren | .list => .ok ⟨true, elts.reverse.map .visit ++ [.reduce (.close tag)]⟩
  | .record | .apply | .val | .arg | .of =>
    .ok ⟨false, elts.map .operand ++ [.reduce (.build tag elts.length)]⟩
  | .binding =>
    match elts with
    | [key, value] =>
      .ok ⟨false, [.reduce (.push key), .operand value, .reduce (.build .binding 2)]⟩
    | _ => .error (.internal .malformedBinding)
  | .case =>
    match elts with
    | scrutinee :: _ => .ok ⟨false, [.operand scrutinee, .select nid]⟩
    | [] => .error (.internal .caseWithoutScrutinee)
  | .add | .sub | .div | .mod | .pow => operatorPlan elts (.arithmetic tag)
  | .concat => operatorPlan elts .concat
  | .eq | .ne | .lt | .gt | .le | .ge => operatorPlan elts (.compare tag)
  | .or | .and => .error (.unimplemented tag)
  | .neg =>
    match elts with
    | operand :: _ => .ok ⟨false, [.operand operand, .reduce .negate]⟩
    | [] => .error (.internal .negWithoutOperand)
  | .lambda => .error (.internal .malformedLambda)
  | .num | .str | .ident | .bool | .null => .error (.internal (.leafWithChildren tag))

/-- The function that a `LAMBDA` describes. -/
def lambda (p : Pool) (elts : List NodeId) : Except InternalFault Callee :=
  match elts with
  | [_, body, pattern] =>
    match p.get? pattern with
    | none => .error (.missingNode pattern)
    | some n => .ok ⟨"lambda", body, n.elts, []⟩
  | _ => .error .malformedLambda

/-- Folds a node. -/
def visit (m : Machine) (nid : NodeId) : Step :=
  match m.pool.get? nid with
  | none => m.fail (.missingNode nid)
  | some (.ident name) => m.visitName nid name
  | some (.branch .lambda elts) =>
    match lambda m.pool elts with
    | .error fault => m.fail fault
    | .ok callee => m.apply callee
  | some (.branch tag elts) =>
    match plan nid tag elts with
    | .error e => .error e m
    | .ok plan => if plan.frame then m.reducing openFrame plan.tasks else .ok plan.tasks m
  | some _ => m.reducing (ValuesM.push nid) []

/-! ### Tasks -/

/-- Carries out one task. -/
def resume (m : Machine) : Task → Step
  | .visit nid => m.visit nid
  | .operand nid => m.reducing openFrame [.visit nid, .reduce .collect]
  | .reduce r => m.reducing r.run []
  | .select nid =>
    m.onValues ValuesM.pop fun scrutinee m =>
      match m.pool.get? nid with
      | none => m.fail (.missingNode nid)
      | some n => m.select nid scrutinee (n.elts.drop 1)
  | .clause nid clauses scrutinee =>
    m.onValues ValuesM.pop fun pattern m => m.tryClause nid scrutinee pattern clauses
  | .enter name => m.entering "case" [] [.value name 0] []
  | .exit =>
    match m with
    | ⟨v, env, budget⟩ => .ok [] ⟨v, env.exit.2, budget⟩

end Machine

end Linefold
