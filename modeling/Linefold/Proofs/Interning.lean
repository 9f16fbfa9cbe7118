import Linefold.Pool

/-!
# Interning

A pool only grows: what it holds stays where it is (`Pool.Extends`). Interning a node whose children
are held gives an id under which that very node is found, and adds no other node.
-/

namespace Linefold.Pool

variable {p q r : Pool} {id i j : NodeId} {n m : Node} {span : Span}

/-! ### Growth -/

/-- Every id of `p` means the same in `q`. -/
def Extends (p q : Pool) : Prop := ∀ id n, p.get? id = some n → q.get? id = some n

theorem Extends.refl (p : Pool) : p.Extends p := fun _ _ h => h

theorem Extends.trans (hpq : p.Extends q) (hqr : q.Extends r) : p.Extends r :=
  fun id n h => hqr id n (hpq id n h)

theorem Extends.get?_eq (hpq : p.Extends q) (hid : id ≤ p.size) : q.get? id = p.get? id := by
  cases id with
  | zero => rfl
  | succ i =>
    have hget : p.get? (i + 1) = some p.nodes[i] := Array.getElem?_eq_getElem hid
    rw [hget]
    exact hpq _ _ hget

/-! ### What interning adds -/

theorem ne_zero_of_get? (h : p.get? id = some n) : id ≠ 0 := by
  rintro rfl
  cases h

/-- A node is held under one id. -/
theorem eq_of_get? (hi : p.get? i = some n) (hj : p.get? j = some n) : i = j := by
  cases i with
  | zero => cases hi
  | succ i =>
    cases j with
    | zero => cases hj
    | succ j =>
      have hi' := (p.indexed n i).2 hi
      have hj' := (p.indexed n j).2 hj
      rw [hi'] at hj'
      exact Option.some.inj hj'

theorem get?_push (older : ∀ c ∈ n.elts, c ≤ p.nodes.size) (new : p.index[n]? = none) :
    (p.push n older new).get? id = if id = p.size + 1 then some n else p.get? id := by
  cases id with
  | zero => rfl
  | succ i =>
    show (p.nodes.push n)[i]? = _
    rw [Array.getElem?_push]
    by_cases hi : i = p.nodes.size
    · have hs : i.succ = p.size + 1 := congrArg Nat.succ hi
      rw [if_pos hi, if_pos hs]
    · have hs : ¬ i.succ = p.size + 1 := fun h => hi (Nat.succ.inj h)
      rw [if_neg hi, if_neg hs]
      rfl

/-- The node was held already, or it is the only one that is added. -/
theorem intern_cases (p : Pool) (n : Node) :
    (p.get? (p.intern n).1 = some (n.within p.size) ∧ (p.intern n).2 = p) ∨
      ((p.intern n).1 = p.size + 1 ∧ (∀ id, p.get? id ≠ some (n.within p.size)) ∧
        ∀ id, (p.intern n).2.get? id =
          if id = p.size + 1 then some (n.within p.size) else p.get? id) := by
  unfold intern
  simp only
  split
  · next id h =>
    left
    refine ⟨?_, rfl⟩
    cases id with
    | zero => exact absurd h (p.index_ne_zero _)
    | succ i => exact (p.indexed _ i).1 h
  · next h =>
    right
    refine ⟨rfl, fun id hid => ?_, fun id => get?_push (fun _ => Node.le_of_mem_elts_within) h⟩
    cases id with
    | zero => cases hid
    | succ i =>
      have hnone := (p.indexed (n.within p.size) i).2 hid
      rw [show p.index[n.within p.size]? = none from h] at hnone
      cases hnone

theorem get?_size_succ (p : Pool) : p.get? (p.size + 1) = none :=
  Array.getElem?_eq_none (Nat.le_refl _)

theorem extends_intern (p : Pool) (n : Node) : p.Extends (p.intern n).2 := by
  intro id m h
  rcases p.intern_cases n with ⟨-, heq⟩ | ⟨-, -, hget⟩
  · rw [heq]
    exact h
  · rw [hget, if_neg ?_]
    · exact h
    · rintro rfl
      rw [get?_size_succ] at h
      cases h

/-- What is interned has no place. -/
theorem coords_intern (p : Pool) (n : Node) : (p.intern n).2.coords = p.coords := by
  unfold intern
  simp only
  split <;> rfl

theorem get?_intern_within (p : Pool) (n : Node) :
    (p.intern n).2.get? (p.intern n).1 = some (n.within p.size) := by
  rcases p.intern_cases n with ⟨h, heq⟩ | ⟨hid, -, hget⟩
  · rw [heq]
    exact h
  · rw [hget, if_pos hid]

theorem get?_intern (hn : ∀ c ∈ n.elts, c ≤ p.size) :
    (p.intern n).2.get? (p.intern n).1 = some n := by
  rw [get?_intern_within, Node.within_eq_self hn]

/-- A node that is held is found, and nothing is added. -/
theorem intern_of_get? (h : p.get? id = some n) : p.intern n = (id, p) := by
  have hwithin : n.within p.size = n :=
    Node.within_eq_self fun c hc => Nat.le_trans (Nat.le_of_lt (lt_of_mem_elts h hc)) (le_size_of_get? h)
  rcases p.intern_cases n with ⟨hfound, hsame⟩ | ⟨-, hnew, -⟩
  · rw [hwithin] at hfound
    exact Prod.ext (eq_of_get? hfound h) hsame
  · rw [hwithin] at hnew
    exact absurd h (hnew id)

/-- What is found after interning was there before or is the node. -/
theorem of_get?_intern (h : (p.intern n).2.get? id = some m) :
    p.get? id = some m ∨ id = (p.intern n).1 ∧ m = n.within p.size := by
  rcases p.intern_cases n with ⟨-, heq⟩ | ⟨hid, -, hget⟩
  · rw [heq] at h
    exact .inl h
  · rw [hget] at h
    split at h
    · next hsize => exact .inr ⟨hsize.trans hid.symm, (Option.some.inj h).symm⟩
    · exact .inl h

theorem size_intern_le (p : Pool) (n : Node) : (p.intern n).2.size ≤ p.size + 1 := by
  unfold intern
  simp only
  split
  · exact Nat.le_succ _
  · exact Nat.le_of_eq (Array.size_push _)

theorem intern_of_new (hn : ∀ c ∈ n.elts, c ≤ p.size) (hnew : n ∉ p.nodes) :
    (p.intern n).1 = p.size + 1 ∧ (p.intern n).2.nodes = p.nodes.push n := by
  have hwithin : n.within p.nodes.size = n := Node.within_eq_self hn
  unfold intern
  simp only
  split
  · next id h =>
    rw [hwithin] at h
    cases id with
    | zero => exact absurd h (p.index_ne_zero _)
    | succ i => exact absurd (Array.mem_of_getElem? ((p.indexed _ i).1 h)) hnew
  · exact ⟨rfl, congrArg p.nodes.push hwithin⟩

/-- Distinct nodes that a pool does not hold are added to it in turn. -/
theorem nodes_foldl_intern {ns : List Node} (hdistinct : (p.nodes.toList ++ ns).Nodup)
    (holder : ∀ i (h : i < ns.length), ∀ c ∈ ns[i].elts, c ≤ p.size + i) :
    (ns.foldl (fun p n => (p.intern n).2) p).nodes = p.nodes ++ ns.toArray := by
  induction ns generalizing p with
  | nil => simp
  | cons n ns ih =>
    have hnew : n ∉ p.nodes := fun hmem =>
      (List.nodup_append.1 hdistinct).2.2 n (Array.mem_toList_iff.2 hmem) n (.head _) rfl
    have hpush : (p.intern n).2.nodes = p.nodes.push n :=
      (intern_of_new (holder 0 (Nat.zero_lt_succ _)) hnew).2
    have hsize : (p.intern n).2.size = p.size + 1 := by rw [size, hpush, Array.size_push, size]
    have hrest := ih (p := (p.intern n).2) (by simpa [hpush] using hdistinct) fun i h c hc => by
      rw [hsize, Nat.add_right_comm]
      exact holder (i + 1) (Nat.succ_lt_succ h) c hc
    rw [List.foldl_cons, hrest, hpush]
    simp

/-- The pool of some nodes, which are interned in turn. -/
def ofNodes (ns : List Node) : Pool := ns.foldl (fun p n => (p.intern n).2) empty

theorem nodes_ofNodes {ns : List Node} (hdistinct : ns.Nodup)
    (holder : ∀ i (h : i < ns.length), ∀ c ∈ ns[i].elts, c ≤ i) : (ofNodes ns).nodes = ns.toArray := by
  refine (nodes_foldl_intern (by simpa [empty] using hdistinct) ?_).trans (by simp [empty])
  simpa [size, empty] using holder

/-! ### Places -/

theorem extends_internAt (p : Pool) (n : Node) (span : Span) : p.Extends (p.internAt n span).2 :=
  extends_intern p n

end Linefold.Pool
