import Linefold.Folder.Reduction
import Linefold.Proofs.Twins.Agree

/-!
# Reductions over two pools

Operand stacks are alike if they hold values that are alike, frame by frame. A reduction takes the same
number of them in both and leaves values that are alike (`Reduction.Alike.agree_run`).
-/

namespace Linefold

attribute [local irreducible] Pool.intern

/-! ### Operand stacks -/

/-- Frames start one inside the other, and none beyond the values. -/
def OperandStack.Nested (s : OperandStack) : Prop := List.Pairwise (· ≥ ·) (s.items.size :: s.frames)

namespace OperandStack.Nested

variable {s : OperandStack}

theorem base_le (h : s.Nested) : s.base ≤ s.items.size := by
  unfold base
  cases hf : s.frames with
  | nil => exact Nat.zero_le _
  | cons f frames => exact (List.pairwise_cons.1 h).1 f (by rw [hf]; exact .head _)

theorem le_base (h : s.Nested) : ∀ f ∈ s.frames, f ≤ s.base := by
  unfold Nested at h
  unfold base
  cases hf : s.frames with
  | nil => simp
  | cons f frames =>
    rw [hf] at h
    exact List.forall_mem_cons.2 ⟨Nat.le_refl _, (List.pairwise_cons.1 (List.pairwise_cons.1 h).2).1⟩

/-- The number of values may change as long as it stays above the start of the current frame. -/
theorem of_base_le {t : OperandStack} (h : s.Nested) (hframes : t.frames = s.frames)
    (hsize : s.base ≤ t.items.size) : t.Nested := by
  unfold Nested
  rw [hframes]
  exact List.pairwise_cons.2 ⟨fun f hf => Nat.le_trans (h.le_base f hf) hsize, (List.pairwise_cons.1 h).2⟩

theorem push (h : s.Nested) (id : NodeId) : (s.push id).Nested :=
  h.of_base_le rfl (Nat.le_trans h.base_le (by simp [OperandStack.push]))

theorem openFrame (h : s.Nested) : s.openFrame.Nested := by
  refine List.pairwise_cons.2 ⟨List.forall_mem_cons.2 ⟨Nat.le_refl _, ?_⟩, h⟩
  exact (List.pairwise_cons.1 h).1

theorem closeFrame (h : s.Nested) : s.closeFrame.2.Nested := by
  have hsize : s.closeFrame.2.items.size = s.base := by
    have hbase := h.base_le
    simp only [OperandStack.closeFrame, Array.take_eq_extract, Array.size_extract]
    omega
  show List.Pairwise _ (s.closeFrame.2.items.size :: s.frames.tail)
  rw [hsize]
  unfold Nested at h
  unfold base
  cases hf : s.frames with
  | nil => exact List.pairwise_singleton _ _
  | cons f frames =>
    rw [hf] at h
    exact (List.pairwise_cons.1 h).2

end OperandStack.Nested

structure OperandStack.Alike (T : Twin) (s t : OperandStack) : Prop where
  items : List.Forall₂ T.Alike s.items.toList t.items.toList
  frames : s.frames = t.frames
  nested : s.Nested

namespace OperandStack.Alike

variable {T U : Twin} {s t : OperandStack} {i j : NodeId} {n : Nat}

theorem mono (h : s.Alike T t) (hTU : T.Grows U) : s.Alike U t :=
  ⟨Twin.forall₂_mono h.items hTU, h.frames, h.nested⟩

theorem empty : OperandStack.Alike T {} {} := ⟨.nil, rfl, List.pairwise_singleton _ _⟩

theorem size_eq (h : s.Alike T t) : s.items.size = t.items.size := h.items.length_eq

theorem base_eq (h : s.Alike T t) : s.base = t.base := by
  unfold base
  rw [h.frames]

theorem push (h : s.Alike T t) (hij : T.Alike i j) : (s.push i).Alike T (t.push j) := by
  refine ⟨?_, h.frames, h.nested.push i⟩
  show List.Forall₂ _ (s.items.push i).toList (t.items.push j).toList
  rw [Array.toList_push, Array.toList_push]
  exact List.rel_append h.items (.cons hij .nil)

theorem getLast?_rel {is js : List NodeId} (h : List.Forall₂ T.Alike is js) :
    Option.Rel T.Alike is.getLast? js.getLast? := by
  rw [← List.head?_reverse, ← List.head?_reverse]
  have hreverse := List.rel_reverse h
  generalize is.reverse = left, js.reverse = right at hreverse ⊢
  cases hreverse with
  | nil => exact .none
  | cons hij _ => exact .some hij

theorem pop (h : s.Alike T t) :
    Option.Rel T.Alike s.pop.1 t.pop.1 ∧ s.pop.2.Alike T t.pop.2 := by
  unfold OperandStack.pop
  rw [h.base_eq, h.size_eq]
  split
  · next hlt =>
    have hsize : s.base ≤ s.items.pop.size := by
      rw [Array.size_pop, h.size_eq, h.base_eq]
      omega
    refine ⟨?_, ?_, h.frames, h.nested.of_base_le rfl hsize⟩
    · rw [← Array.getLast?_toList, ← Array.getLast?_toList]
      exact getLast?_rel h.items
    · show List.Forall₂ _ s.items.pop.toList t.items.pop.toList
      rw [Array.toList_pop, Array.toList_pop, List.dropLast_eq_take, List.dropLast_eq_take,
        h.items.length_eq]
      exact List.forall₂_take _ h.items
  · exact ⟨.none, h⟩

theorem popMany (h : s.Alike T t) :
    List.Forall₂ T.Alike (s.popMany n).1 (t.popMany n).1 ∧
      (s.popMany n).2.Alike T (t.popMany n).2 := by
  induction n generalizing s t with
  | zero => exact ⟨.nil, h⟩
  | succ n ih =>
    obtain ⟨htop, hrest⟩ := h.pop
    unfold OperandStack.popMany
    generalize s.pop = left, t.pop = right at htop hrest
    obtain ⟨top, s⟩ := left
    obtain ⟨top', t⟩ := right
    cases htop with
    | none => exact ⟨.nil, hrest⟩
    | some htop =>
      obtain ⟨hids, hrest⟩ := ih hrest
      exact ⟨.cons htop hids, hrest⟩

theorem openFrame (h : s.Alike T t) : s.openFrame.Alike T t.openFrame := by
  refine ⟨h.items, ?_, h.nested.openFrame⟩
  show _ :: _ = _ :: _
  rw [h.size_eq, h.frames]

theorem closeFrame (h : s.Alike T t) :
    List.Forall₂ T.Alike s.closeFrame.1 t.closeFrame.1 ∧ s.closeFrame.2.Alike T t.closeFrame.2 := by
  refine ⟨?_, ?_, congrArg List.tail h.frames, h.nested.closeFrame⟩
  all_goals
    unfold OperandStack.closeFrame
    rw [h.base_eq]
  · rw [h.size_eq, Array.toList_extract, Array.toList_extract]
    exact List.forall₂_take _ (List.forall₂_drop _ h.items)
  · show List.Forall₂ _ (s.items.take _).toList (t.items.take _).toList
    rw [Array.take_eq_extract, Array.take_eq_extract, Array.toList_extract, Array.toList_extract]
    exact List.forall₂_take _ h.items

end OperandStack.Alike

/-! ### Computations on values -/

instance : Pooled Values where
  pool := Values.pool
  Alike T v w := v.stack.Alike T w.stack

namespace ValuesM

variable {T : Twin} {n m : Node} {i j : NodeId} {is js : List NodeId} {k : Nat} {t : Tag}

theorem agree_intern (h : n.Matches T.Alike m) : Agree T (intern n) (intern m) Twin.Alike := by
  intro v w hT hst
  have hgrows := (Twin.of v w).grows_intern n m
  exact ⟨hgrows, hst.mono hgrows, Twin.alike_intern (Twin.matches_mono h hT)⟩

theorem agree_push (h : T.Alike i j) : Agree T (push i) (push j) fun _ => Eq :=
  fun _ _ hT hst => ⟨.refl _, hst.push (h.mono hT), rfl⟩

theorem agree_pop : Agree T pop pop Twin.Alike := by
  rintro ⟨p, s⟩ ⟨q, t⟩ hT hst
  obtain ⟨htop, hrest⟩ := OperandStack.Alike.pop hst
  generalize hs : s.pop = left, ht : t.pop = right at htop hrest
  obtain ⟨top, s'⟩ := left
  obtain ⟨top', t'⟩ := right
  simp only [pop, hs, ht]
  cases htop with
  | none => exact ⟨.refl _, hrest, rfl⟩
  | some htop => exact ⟨.refl _, hrest, htop⟩

theorem agree_popPair :
    Agree T popPair popPair fun U a b => U.Alike a.1 b.1 ∧ U.Alike a.2 b.2 :=
  agree_pop.bind fun _ _ _ _ hb => agree_pop.bind fun _ _ _ hUV ha =>
    agree_pure fun _ hVW => ⟨ha.mono hVW, hb.mono (hUV.trans hVW)⟩

theorem agree_popMany : Agree T (popMany k) (popMany k) fun U => List.Forall₂ U.Alike := by
  induction k generalizing T with
  | zero => exact agree_pure fun _ _ => .nil
  | succ k ih =>
    refine agree_pop.bind fun U _ _ _ htop => ih.bind fun V _ _ hUV hids => ?_
    refine agree_pure fun W hVW => List.rel_append (Twin.forall₂_mono hids hVW) ?_
    exact .cons (htop.mono (hUV.trans hVW)) .nil

theorem agree_closeFrame : Agree T closeFrame closeFrame fun U => List.Forall₂ U.Alike := by
  rintro ⟨p, s⟩ ⟨q, t⟩ hT hst
  obtain ⟨hids, hrest⟩ := OperandStack.Alike.closeFrame hst
  exact ⟨.refl _, hrest, List.rel_reverse hids⟩

theorem agree_ask {α : Type} {f g : Pool → α} (h : ∀ U, T.Grows U → f U.left = g U.right) :
    Agree T (ask f) (ask g) fun _ => Eq :=
  fun _ _ hT hst => ⟨.refl _, hst, h _ hT⟩

theorem agree_single (h : List.Forall₂ T.Alike is js) : Agree T (single is) (single js) Twin.Alike := by
  rcases h with _ | ⟨hij, _ | ⟨hkl, h⟩⟩
  · exact agree_intern (.branch _ .nil)
  · exact agree_pure fun _ hU => hij.mono hU
  · exact agree_intern (.branch _ (.cons hij (.cons hkl h)))

theorem agree_leave (h : n.Matches T.Alike m) : Agree T (leave n) (leave m) fun _ => Eq :=
  (agree_intern h).bind fun _ _ _ _ hid => agree_push hid

/-- A result that both computed is left in both. -/
theorem agree_leaveResult {i' j' : NodeId} {result : Option Node}
    (hresult : ∀ n, result = some n → n.isLiteral) (h : T.Alike i j) (h' : T.Alike i' j') :
    Agree T (leaveResult t i i' result) (leaveResult t j j' result) fun _ => Eq :=
  agree_leave (.getD hresult h h')

end ValuesM

/-! ### Reductions -/

inductive Reduction.Alike (T : Twin) : Reduction → Reduction → Prop where
  | collect : Reduction.Alike T .collect .collect
  | close (t : Tag) : Reduction.Alike T (.close t) (.close t)
  | push {i j : NodeId} (h : T.Alike i j) : Reduction.Alike T (.push i) (.push j)
  | build (t : Tag) (arity : Nat) : Reduction.Alike T (.build t arity) (.build t arity)
  | arithmetic (t : Tag) : Reduction.Alike T (.arithmetic t) (.arithmetic t)
  | concat : Reduction.Alike T .concat .concat
  | compare (t : Tag) : Reduction.Alike T (.compare t) (.compare t)
  | negate : Reduction.Alike T .negate .negate
  | lambda {names names' pattern pattern' : NodeId} (hnames : T.Alike names names')
      (hpattern : T.Alike pattern pattern') :
      Reduction.Alike T (.lambda names pattern) (.lambda names' pattern')

namespace Reduction

open ValuesM

variable {T U : Twin} {r r' : Reduction} {t : Tag}

theorem Alike.mono (h : r.Alike T r') (hTU : T.Grows U) : r.Alike U r' := by
  cases h with
  | push h => exact .push (h.mono hTU)
  | lambda hnames hpattern => exact .lambda (hnames.mono hTU) (hpattern.mono hTU)
  | _ => constructor

theorem agree_close : Agree T (run (.close t)) (run (.close t)) fun _ => Eq := by
  have hplain : Agree T (do ValuesM.leave (.branch t (← closeFrame)))
      (do ValuesM.leave (.branch t (← closeFrame))) fun _ => Eq :=
    agree_closeFrame.bind fun _ _ _ _ hids => agree_leave (.branch t hids)
  cases t
  case prog =>
    refine agree_closeFrame.bind fun U _ _ _ hids => ?_
    refine (agree_intern (.branch .exprs hids)).bind fun V _ _ _ hid => ?_
    exact agree_leave (.branch .prog (.cons hid .nil))
  case paren =>
    refine agree_closeFrame.bind fun U _ _ _ hids => ?_
    refine (agree_single hids).bind fun V _ _ _ hid => ?_
    exact agree_leave (.branch .paren (.cons hid .nil))
  all_goals exact hplain

/-- Operands that are alike are the same literals. -/
theorem agree_operator {α : Type} {read : Pool → NodeId → Option α}
    {f : Option α → Option α → Option Node}
    (hread : ∀ {U : Twin} {i j : NodeId}, U.Alike i j → read U.left i = read U.right j)
    (hf : ∀ x y n, f x y = some n → n.isLiteral) :
    let run : ValuesM Unit := do
      let (a, b) ← popPair
      let x ← ask (read · a)
      let y ← ask (read · b)
      leaveResult t a b (f x y)
    Agree T run run fun _ => Eq := by
  refine agree_popPair.bind ?_
  rintro U ⟨a, b⟩ ⟨a', b'⟩ - ⟨ha, hb⟩
  refine (agree_ask fun V hUV => hread (ha.mono hUV)).bind ?_
  rintro V x _ hUV rfl
  refine (agree_ask fun W hVW => hread (hb.mono (hUV.trans hVW))).bind ?_
  rintro W y _ hVW rfl
  exact agree_leaveResult (hf x y) (ha.mono (hUV.trans hVW)) (hb.mono (hUV.trans hVW))

theorem Alike.agree_run (h : r.Alike T r') : Agree T r.run r'.run fun _ => Eq := by
  cases h with
  | collect =>
    refine agree_closeFrame.bind fun U _ _ _ hids => ?_
    exact (agree_single hids).bind fun V _ _ _ hid => agree_push hid
  | close t => exact agree_close
  | push h => exact agree_push h
  | build t arity => exact agree_popMany.bind fun _ _ _ _ hids => agree_leave (.branch t hids)
  | arithmetic t =>
    exact agree_operator (fun h => h.number?_eq) fun _ _ _ => Node.isLiteral_of_arithmetic
  | concat => exact agree_operator (fun h => h.literal?_eq) fun _ _ _ => Node.isLiteral_of_concat
  | compare t => exact agree_operator (fun h => h.literal?_eq) fun _ _ _ => Node.isLiteral_of_compare
  | negate =>
    refine agree_pop.bind fun U a b _ hab => ?_
    refine (agree_ask fun V hUV => (hab.mono hUV).number?_eq).bind ?_
    rintro V x _ hUV rfl
    cases x with
    | some x => exact agree_leave (.num _)
    | none => exact agree_leave (.branch .neg (.cons (hab.mono hUV) .nil))
  | lambda hnames hpattern =>
    refine agree_pop.bind fun U body body' hTU hbody => ?_
    have hpattern := hpattern.mono hTU
    exact agree_leave (.branch .lambda (.cons (hnames.mono hTU) (.cons hbody (.cons hpattern .nil))))

end Reduction

end Linefold
