import Linefold.Folder

/-!
# Folding by native recursion

The evaluator says what a fold computes without tasks and without an operand stack: `visit` folds a node
in a frame and gives the frame after it, `operand` folds a node in a frame of its own to one value. A frame
is a list of values, the top first. Frames and scopes are arguments, so that leaving a construct is
returning from it; only the pool is passed on. Operator words have no place here as names.
-/

namespace Linefold

/-! ### Scopes -/

/-- The number of scopes that may still be opened. -/
def Environment.room (e : Environment) : Nat := e.limit + 1 - e.depth

/-- A new innermost scope with the given words. -/
def Environment.opened (e : Environment) (name : String) (lexicon : Lexicon) (words : List Word) :
    Environment :=
  words.foldl (fun e w => e.bind w.name w)
    (Environment.extend { e with inner := ⟨name, []⟩ :: e.inner } lexicon)

theorem Environment.opened_length_limit (e : Environment) (name : String) (lexicon : Lexicon)
    (words : List Word) : (e.opened name lexicon words).inner.length = e.inner.length + 1 ∧
      (e.opened name lexicon words).limit = e.limit := by
  have hwords := Machine.length_inner_bindAll words
    (Environment.extend { e with inner := ⟨name, []⟩ :: e.inner } lexicon)
  have hlexicon := Machine.length_inner_extend { e with inner := ⟨name, []⟩ :: e.inner } lexicon
  exact ⟨hwords.1.trans hlexicon.1, hwords.2.trans hlexicon.2⟩

theorem Environment.room_opened_lt {e : Environment} (h : ¬ e.limit < e.depth) (name : String)
    (lexicon : Lexicon) (words : List Word) : (e.opened name lexicon words).room < e.room := by
  obtain ⟨hlength, hlimit⟩ := e.opened_length_limit name lexicon words
  simp only [room, depth, hlength, hlimit] at h ⊢
  omega

/-- A pattern variable that stands for a value. -/
def Word.bound (name : String) (id : NodeId) : Word := { Word.value name 0 with nid := id }

/-! ### Results of operators -/

/-- The outcome of a binary operator: a literal, or the operator over its operands. -/
def Pool.operatorNode (p : Pool) (t : Tag) (a b : NodeId) : Node :=
  let result : Option Node := match t with
    | .concat => do return .str ((← p.literal? a).toText ++ (← p.literal? b).toText)
    | .eq | .ne | .lt | .gt | .le | .ge => do
      return .bool (← Literal.compare? t (← p.literal? a) (← p.literal? b))
    | _ => do return .num (← Number.arithmetic? t (← p.number? a) (← p.number? b))
  result.getD (.branch t [a, b])

/-- A negated number, or the negation of anything else. -/
def Pool.negationNode (p : Pool) (a : NodeId) : Node :=
  match p.number? a with
  | some x => .num x.neg
  | none => .branch .neg [a]

/-! ### The evaluator -/

namespace Evaluator

open Pattern (PoolM)
open Machine (Callee Clause)

/-- One value stands for itself, any other number of them is an `EXPRS`. -/
def single : List NodeId → PoolM NodeId
  | [id] => return id
  | ids => PoolM.intern (.branch .exprs ids)

def fault {α : Type} (f : InternalFault) : PoolM α := throw (.internal f)

theorem clauses_lt {p : Pool} {nid : NodeId} {ids : List NodeId} {cs : List Clause}
    (h : ids.mapM (Machine.clause p) = .ok cs) (hids : ∀ c ∈ ids, c < nid) :
    ∀ c ∈ cs, c.pattern < nid ∧ c.body < nid := by
  refine Machine.forall_of_mapM h fun id hid c hc => ?_
  have hlt := Machine.lt_of_clause hc
  exact ⟨Nat.lt_trans hlt.1 (hids id hid), Nat.lt_trans hlt.2 (hids id hid)⟩

mutual

/-- Folds a node in a frame. -/
def visit (e : Environment) (nid : NodeId) (vs : List NodeId) : PoolM (List NodeId) := fun p =>
  match h : p.get? nid with
  | none => fault (.missingNode nid) p
  | some (.ident name) => visitName e nid name vs p
  | some (.branch .lambda es) =>
    match Machine.lambda p es with
    | .error f => fault f p
    | .ok callee => apply e callee vs p
  | some (.branch t es) => visitBranch e nid t es (fun _ => Pool.lt_of_get?_branch h) vs p
  | some _ => .ok (nid :: vs) p
termination_by (2 * e.room + 1, nid, 6, 0)

/-- Folds a node in a frame of its own to one value. -/
def operand (e : Environment) (nid : NodeId) : PoolM NodeId := do single (← visit e nid [])
termination_by (2 * e.room + 1, nid, 7, 0)

/-- Folds nodes in turn in one frame. -/
def visitAll (e : Environment) (nid : NodeId) (ids : List NodeId) (h : ∀ c ∈ ids, c < nid)
    (vs : List NodeId) : PoolM (List NodeId) :=
  match ids with
  | [] => return vs
  | c :: ids => do
    have := h c (.head _)
    visitAll e nid ids (fun c hc => h c (.tail _ hc)) (← visit e c vs)
termination_by (2 * e.room + 1, nid, 4, ids.length)

/-- Folds nodes in turn, each in a frame of its own. -/
def operands (e : Environment) (nid : NodeId) (ids : List NodeId) (h : ∀ c ∈ ids, c < nid) :
    PoolM (List NodeId) :=
  match ids with
  | [] => return []
  | c :: ids => do
    have := h c (.head _)
    let v ← operand e c
    return v :: (← operands e nid ids fun c hc => h c (.tail _ hc))
termination_by (2 * e.room + 1, nid, 4, ids.length)

/-- A value without a node stands for itself, and so does a function without a body. -/
def visitName (e : Environment) (nid : NodeId) (name : String) (vs : List NodeId) :
    PoolM (List NodeId) :=
  match e.lookup? name with
  | none => return nid :: vs
  | some word =>
    match word.cls with
    | .value => return (if word.nid = 0 then nid else word.nid) :: vs
    | .function =>
      match word.closure with
      | none => return nid :: vs
      | some closure =>
        if word.nid = 0 then return nid :: vs
        else apply e ⟨name, word.nid, closure.pattern, closure.lexicon⟩ vs
    | .operator _ => fault .operatorBudget
termination_by (2 * e.room + 1, nid, 5, 0)

/-- Folds a node with children, a `LAMBDA` apart. -/
def visitBranch (e : Environment) (nid : NodeId) (t : Tag) (es : List NodeId) (h : ∀ c ∈ es, c < nid)
    (vs : List NodeId) : PoolM (List NodeId) :=
  match t with
  | .prog => do
    let values ← visitAll e nid (es.take 1) (fun c hc => h c (List.mem_of_mem_take hc)) []
    let exprs ← PoolM.intern (.branch .exprs values)
    return (← PoolM.intern (.branch .prog [exprs])) :: vs
  | .exprs => visitAll e nid es.reverse (fun c hc => h c (List.mem_reverse.1 hc)) vs
  | .paren => do
    let inner ← single (← visitAll e nid es.reverse (fun c hc => h c (List.mem_reverse.1 hc)) [])
    return (← PoolM.intern (.branch .paren [inner])) :: vs
  | .list => do
    let values ← visitAll e nid es.reverse (fun c hc => h c (List.mem_reverse.1 hc)) []
    return (← PoolM.intern (.branch .list values)) :: vs
  | .record | .apply | .val | .arg | .of => do
    let values ← operands e nid es h
    return (← PoolM.intern (.branch t values)) :: vs
  | .binding =>
    match es with
    | [key, value] => do
      have := h value (.tail _ (.head _))
      let v ← operand e value
      return (← PoolM.intern (.branch .binding [key, v])) :: vs
    | _ => fault .malformedBinding
  | .case =>
    match es with
    | first :: clauses => do
      have := h first (.head _)
      let scrutinee ← operand e first
      have hclauses : ∀ c ∈ clauses, c < nid := fun c hc => h c (.tail _ hc)
      select e nid clauses hclauses scrutinee clauses hclauses vs
    | [] => fault .caseWithoutScrutinee
  | .add | .sub | .div | .mod | .pow | .concat | .eq | .ne | .lt | .gt | .le | .ge =>
    match es with
    | [x, y] => do
      have := h x (.head _)
      have := h y (.tail _ (.head _))
      let a ← operand e x
      let b ← operand e y
      let p ← get
      return (← PoolM.intern (p.operatorNode t a b)) :: vs
    | _ => fault .operandCount
  | .neg =>
    match es with
    | x :: _ => do
      have := h x (.head _)
      let a ← operand e x
      let p ← get
      return (← PoolM.intern (p.negationNode a)) :: vs
    | [] => fault .negWithoutOperand
  | .or | .and => throw (.unimplemented t)
  | .lambda => fault .malformedLambda
  | .num | .str | .ident | .bool | .null => fault (.leafWithChildren t)
termination_by (2 * e.room + 1, nid, 5, 0)

/-- Applies a function to the values of a frame, as many as it has parameters; the top one is the first
argument. -/
def apply (e : Environment) (callee : Callee) (vs : List NodeId) : PoolM (List NodeId) :=
  let args := vs.take callee.pattern.length
  let rest := vs.drop callee.pattern.length
  if h : e.limit < e.depth then throw (.recursion e.limit)
  else do
    let bound ← Pattern.bindAll args 0 callee.pattern
    have := Environment.room_opened_lt h callee.name callee.lexicon bound.words
    let inside := e.opened callee.name callee.lexicon bound.words
    if bound.late then
      let (names, pattern) ← Pattern.lambdaParts callee.pattern
      let body ← operand inside callee.body
      let lambda ← PoolM.intern (.branch .lambda [names, body, pattern])
      return (← PoolM.intern (.branch .apply (lambda :: args))) :: rest
    else if args.length = callee.pattern.length then visit inside callee.body rest
    else
      let (names, pattern) ← Pattern.lambdaParts (callee.pattern.drop args.length)
      let body ← operand inside callee.body
      return (← PoolM.intern (.branch .lambda [names, body, pattern])) :: rest
termination_by (2 * e.room, 0, 0, 0)

/-- Tries clauses `left` of those that case `nid` has. -/
def select (e : Environment) (nid : NodeId) (clauses : List NodeId) (hclauses : ∀ c ∈ clauses, c < nid)
    (scrutinee : NodeId) (left : List NodeId) (hleft : ∀ c ∈ left, c < nid) (vs : List NodeId) :
    PoolM (List NodeId) := fun p =>
  match left with
  | [] =>
    if p.isGround scrutinee then
      let text := ((p.tree? scrutinee).map Tree.text).getD ""
      .error (.nonExhaustiveCase text (p.coord? nid)) p
    else residual e nid clauses hclauses scrutinee vs p
  | id :: left =>
    match h : Machine.clause p id with
    | .error f => fault f p
    | .ok c =>
      have hid : id < nid := hleft id (.head _)
      have : c.pattern < nid := Nat.lt_trans (Machine.lt_of_clause h).1 hid
      have : c.body < nid := Nat.lt_trans (Machine.lt_of_clause h).2 hid
      match c.variable? p with
      | some (name, _) =>
        if h : e.limit < e.depth then .error (.recursion e.limit) p
        else
          have := Environment.room_opened_lt h "case" [] [.bound name scrutinee]
          visit (e.opened "case" [] [.bound name scrutinee]) c.body vs p
      | none =>
        let attempt : PoolM (List NodeId) := do
          let pattern ← operand e c.pattern
          let q ← get
          if q.unwrapGroup pattern = q.unwrapGroup scrutinee then visit e c.body vs
          else if q.isGround scrutinee && q.isGround pattern then
            select e nid clauses hclauses scrutinee left (fun c hc => hleft c (.tail _ hc)) vs
          else residual e nid clauses hclauses scrutinee vs
        attempt p
termination_by (2 * e.room + 1, nid, 4, left.length)

/-- Rebuilds a case over its scrutinee, with its clauses folded. -/
def residual (e : Environment) (nid : NodeId) (clauses : List NodeId) (hclauses : ∀ c ∈ clauses, c < nid)
    (scrutinee : NodeId) (vs : List NodeId) : PoolM (List NodeId) := fun p =>
  match h : clauses.mapM (Machine.clause p) with
  | .error f => fault f p
  | .ok cs =>
    let rebuild : PoolM (List NodeId) := do
      let ids ← residualClauses e nid cs (clauses_lt h hclauses)
      return (← PoolM.intern (.branch .case (scrutinee :: ids))) :: vs
    rebuild p
termination_by (2 * e.room + 1, nid, 3, 0)

def residualClauses (e : Environment) (nid : NodeId) (cs : List Clause)
    (h : ∀ c ∈ cs, c.pattern < nid ∧ c.body < nid) : PoolM (List NodeId) :=
  match cs with
  | [] => return []
  | c :: cs => do
    let id ← residualClause e nid c (h c (.head _))
    return id :: (← residualClauses e nid cs fun c hc => h c (.tail _ hc))
termination_by (2 * e.room + 1, nid, 2, cs.length)

/-- Folds the parts of a clause. The variable of a pattern stays free in the body. -/
def residualClause (e : Environment) (nid : NodeId) (c : Clause) (h : c.pattern < nid ∧ c.body < nid) :
    PoolM NodeId := fun p =>
  have : c.pattern < nid := h.1
  have : c.body < nid := h.2
  match c.variable? p with
  | some (name, names) =>
    if h : e.limit < e.depth then .error (.recursion e.limit) p
    else
      have := Environment.room_opened_lt h "case" [] [.value name 0]
      let rebuild : PoolM NodeId := do
        let body ← operand (e.opened "case" [] [.value name 0]) c.body
        PoolM.intern (.branch .of [c.pattern, body, names])
      rebuild p
  | none =>
    let rebuild : PoolM NodeId := do
      let pattern ← operand e c.pattern
      let body ← operand e c.body
      PoolM.intern (.branch .of [pattern, body])
    rebuild p
termination_by (2 * e.room + 1, nid, 1, 0)

end

/-! ### Its equations -/

section

variable {e : Environment} {p : Pool} {vs es clauses left : List NodeId} {nid id scrutinee names : NodeId}
  {t : Tag} {name : String} {n : Node} {c : Clause} {fault : InternalFault}
  {hclauses : ∀ c ∈ clauses, c < nid} {hleft : ∀ c ∈ id :: left, c < nid}

theorem visit_of_none (h : p.get? nid = none) :
    visit e nid vs p = .error (.internal (.missingNode nid)) p := by
  rw [visit]
  split <;> rename_i heq <;> rw [h] at heq <;> cases heq
  rfl

theorem visit_of_ident (h : p.get? nid = some (.ident name)) :
    visit e nid vs p = visitName e nid name vs p := by
  rw [visit]
  split <;> rename_i heq <;> rw [h] at heq <;> cases heq
  · rfl
  · next hne _ _ => exact absurd rfl (hne name)

theorem visit_of_lambda (h : p.get? nid = some (.branch .lambda es)) :
    visit e nid vs p = match Machine.lambda p es with
      | .error fault => .error (.internal fault) p
      | .ok callee => apply e callee vs p := by
  rw [visit]
  split <;> rename_i heq <;> rw [h] at heq <;> cases heq
  · rfl
  · next hne => exact absurd rfl hne
  · next hne _ => exact absurd rfl (hne es)

theorem visit_of_branch (h : p.get? nid = some (.branch t es)) (ht : t ≠ .lambda) :
    visit e nid vs p =
      visitBranch e nid t es (fun _ => Pool.lt_of_get?_branch h) vs p := by
  rw [visit]
  split <;> rename_i heq <;> rw [h] at heq <;> cases heq
  · exact absurd rfl ht
  · rfl
  · next hne => exact absurd rfl (hne _ _)

theorem visit_of_leaf (h : p.get? nid = some n) (hname : ∀ name, n ≠ .ident name)
    (hbranch : ∀ t es, n ≠ .branch t es) : visit e nid vs p = .ok (nid :: vs) p := by
  rw [visit]
  split <;> rename_i heq <;> rw [h] at heq <;> cases heq
  · exact absurd rfl (hname _)
  · exact absurd rfl (hbranch _ _)
  · exact absurd rfl (hbranch _ _)

theorem residualClause_of_none (hlt : c.pattern < nid ∧ c.body < nid)
    (h : c.variable? p = none) : residualClause e nid c hlt p = (do
      let pattern ← operand e c.pattern
      let body ← operand e c.body
      PoolM.intern (.branch .of [pattern, body]) : PoolM NodeId) p := by
  rw [residualClause]
  simp only [h]

theorem residualClause_of_some (hlt : c.pattern < nid ∧ c.body < nid)
    (h : c.variable? p = some (name, names)) : residualClause e nid c hlt p =
      if e.limit < e.depth then .error (.recursion e.limit) p
      else (do
        let body ← operand (e.opened "case" [] [.value name 0]) c.body
        PoolM.intern (.branch .of [c.pattern, body, names]) : PoolM NodeId) p := by
  rw [residualClause]
  simp only [h]
  split <;> rfl

theorem residual_of_ok {cs : List Clause} (h : clauses.mapM (Machine.clause p) = .ok cs) :
    residual e nid clauses hclauses scrutinee vs p = (do
      let ids ← residualClauses e nid cs (clauses_lt h hclauses)
      return (← PoolM.intern (.branch .case (scrutinee :: ids))) :: vs : PoolM (List NodeId)) p := by
  rw [residual]
  split <;> rename_i heq <;> rw [h] at heq <;> cases heq
  rfl

theorem residual_of_error (h : clauses.mapM (Machine.clause p) = .error fault) :
    residual e nid clauses hclauses scrutinee vs p = .error (.internal fault) p := by
  rw [residual]
  split <;> rename_i heq <;> rw [h] at heq <;> cases heq
  rfl

theorem select_nil {hnil : ∀ c ∈ ([] : List NodeId), c < nid} :
    select e nid clauses hclauses scrutinee [] hnil vs p =
      if p.isGround scrutinee then
        .error (.nonExhaustiveCase (((p.tree? scrutinee).map Tree.text).getD "") (p.coord? nid)) p
      else residual e nid clauses hclauses scrutinee vs p := by
  rw [select]

theorem select_of_error (h : Machine.clause p id = .error fault) :
    select e nid clauses hclauses scrutinee (id :: left) hleft vs p = .error (.internal fault) p := by
  rw [select]
  split <;> rename_i heq <;> rw [h] at heq <;> cases heq
  rfl

theorem select_of_some (h : Machine.clause p id = .ok c) (hvar : c.variable? p = some (name, names)) :
    select e nid clauses hclauses scrutinee (id :: left) hleft vs p =
      if e.limit < e.depth then .error (.recursion e.limit) p
      else visit (e.opened "case" [] [.bound name scrutinee]) c.body vs p := by
  rw [select]
  split <;> rename_i heq <;> rw [h] at heq <;> cases heq
  simp only [hvar]
  split <;> rfl

theorem select_of_none (h : Machine.clause p id = .ok c) (hvar : c.variable? p = none) :
    select e nid clauses hclauses scrutinee (id :: left) hleft vs p = (do
      let pattern ← operand e c.pattern
      let q ← get
      if q.unwrapGroup pattern = q.unwrapGroup scrutinee then visit e c.body vs
      else if q.isGround scrutinee && q.isGround pattern then
        select e nid clauses hclauses scrutinee left (fun c hc => hleft c (.tail _ hc)) vs
      else residual e nid clauses hclauses scrutinee vs : PoolM (List NodeId)) p := by
  rw [select]
  split <;> rename_i heq <;> rw [h] at heq <;> cases heq
  simp only [hvar]

end

/-! ### One frame -/

/-- The frame after some nodes are folded in it, the last of them first. -/
def visitBack (e : Environment) (ids vs : List NodeId) : PoolM (List NodeId) := ids.foldrM (visit e) vs

theorem visitBack_nil {e : Environment} {vs : List NodeId} : visitBack e [] vs = pure vs := by
  rw [visitBack, List.foldrM_nil]

theorem visitBack_cons {e : Environment} {id : NodeId} {ids vs : List NodeId} :
    visitBack e (id :: ids) vs = (do visit e id (← visitBack e ids vs)) := by
  rw [visitBack, List.foldrM_cons]
  rfl

theorem visitAll_eq_foldlM {e : Environment} {nid : NodeId} {ids vs : List NodeId} (hlt : ∀ c ∈ ids, c < nid) :
    visitAll e nid ids hlt vs = ids.foldlM (fun vs c => visit e c vs) vs := by
  induction ids generalizing vs with
  | nil => rw [visitAll, List.foldlM_nil]
  | cons c ids ih =>
    rw [visitAll, List.foldlM_cons]
    exact bind_congr fun us => ih fun c hc => hlt c (.tail _ hc)

theorem visitAll_reverse {e : Environment} {nid : NodeId} {ids vs : List NodeId} (hlt : ∀ c ∈ ids.reverse, c < nid) :
    visitAll e nid ids.reverse hlt vs = visitBack e ids vs := by
  rw [visitAll_eq_foldlM, List.foldlM_reverse, visitBack]

/-! ### Nodes by their tags -/

section

variable {e : Environment} {nid x y : NodeId} {es vs : List NodeId} {t : Tag}

theorem visitBranch_exprs {h : ∀ c ∈ es, c < nid} : visitBranch e nid .exprs es h vs = visitBack e es vs := by
  rw [visitBranch.eq_def]
  exact visitAll_reverse _

theorem visitBranch_list {h : ∀ c ∈ es, c < nid} : visitBranch e nid .list es h vs = (do
    let values ← visitBack e es []
    return (← PoolM.intern (.branch .list values)) :: vs) := by
  rw [visitBranch.eq_def, ← visitAll_reverse]

theorem visitBranch_paren {h : ∀ c ∈ es, c < nid} : visitBranch e nid .paren es h vs = (do
    let inner ← single (← visitBack e es [])
    return (← PoolM.intern (.branch .paren [inner])) :: vs) := by
  rw [visitBranch.eq_def, ← visitAll_reverse]

theorem visitBranch_prog {h : ∀ c ∈ [x], c < nid} : visitBranch e nid .prog [x] h vs = (do
    let exprs ← PoolM.intern (.branch .exprs (← visit e x []))
    return (← PoolM.intern (.branch .prog [exprs])) :: vs) := by
  rw [visitBranch.eq_def]
  dsimp only
  rw [visitAll_eq_foldlM]
  simp only [List.take_succ_cons, List.take_zero, List.foldlM_cons, List.foldlM_nil, bind_pure]

theorem visitBranch_binding {h : ∀ c ∈ [x, y], c < nid} : visitBranch e nid .binding [x, y] h vs = (do
    let v ← operand e y
    return (← PoolM.intern (.branch .binding [x, v])) :: vs) := by
  rw [visitBranch.eq_def]

theorem visitBranch_operator {h : ∀ c ∈ [x, y], c < nid} (ht : t.isOperator) (hlogical : t ≠ .or ∧ t ≠ .and) :
    visitBranch e nid t [x, y] h vs = (do
      let a ← operand e x
      let b ← operand e y
      let p ← get
      return (← PoolM.intern (p.operatorNode t a b)) :: vs) := by
  rw [visitBranch.eq_def]
  cases t with
  | or => exact absurd rfl hlogical.1
  | and => exact absurd rfl hlogical.2
  | add | sub | div | mod | pow | concat | eq | ne | lt | gt | le | ge => rfl
  | _ => cases ht

theorem visitBranch_neg {h : ∀ c ∈ [x], c < nid} : visitBranch e nid .neg [x] h vs = (do
    let a ← operand e x
    let p ← get
    return (← PoolM.intern (p.negationNode a)) :: vs) := by
  rw [visitBranch.eq_def]

end

end Evaluator

end Linefold
