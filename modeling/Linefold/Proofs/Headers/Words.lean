import Linefold.Proofs.Turns.Scopes

/-!
# The words of a header

A header is read twice over: its nodes stand on the stack of operands, and the scope that belongs to it has a word for
each name. As long as the names are distinct, these words keep the order of the names, with offsets that count them
(`Lexicon.Lists`), whatever is nested in brackets; then the parameters of the scope are the names as they were read
(`Lexicon.Lists.params_eq`). A word that is no value does no harm unless it takes the place of one.
-/

namespace Linefold

/-- The values of a lexicon are words for the given names, in this order, with offsets from `k` on. -/
inductive Lexicon.Lists : Lexicon → Nat → List String → Prop where
  | nil {k} : Lists [] k []
  | value {x w l k xs} : w.isValue → w.name = x → w.offset = k → Lists l (k + 1) xs → Lists ((x, w) :: l) k (x :: xs)
  | other {x w l k xs} : w.isValue = false → Lists l k xs → Lists ((x, w) :: l) k xs

/-- The words of a scope of which only the names `xs` of a header have been read. -/
structure Lexicon.Spells (l : Lexicon) (xs : List String) : Prop where
  names : l.names ⊆ xs
  lists : xs.Nodup → l.Lists 0 xs

namespace Lexicon

variable {l : Lexicon} {k : Nat} {xs : List String} {x : String} {w u : Word}

/-! ### Words in order -/

theorem Lists.map_name (h : l.Lists k xs) : ((l.map Prod.snd).filter Word.isValue).map Word.name = xs := by
  induction h with
  | nil => rfl
  | value hw hname _ _ ih => rw [List.map_cons, List.filter_cons_of_pos hw, List.map_cons, ih, hname]
  | other hw _ ih =>
    rw [List.map_cons, List.filter_cons_of_neg (by simp [hw])]
    exact ih

theorem Lists.le_offset (h : l.Lists k xs) (hw : w ∈ (l.map Prod.snd).filter Word.isValue) : k ≤ w.offset := by
  induction h with
  | nil => cases hw
  | value hv _ hoffset _ ih =>
    rw [List.map_cons, List.filter_cons_of_pos hv] at hw
    rcases List.mem_cons.1 hw with rfl | hw
    · exact Nat.le_of_eq hoffset.symm
    · exact Nat.le_of_succ_le (ih hw)
  | other hv _ ih =>
    rw [List.map_cons, List.filter_cons_of_neg (by simp [hv])] at hw
    exact ih hw

theorem Lists.pairwise (h : l.Lists k xs) :
    ((l.map Prod.snd).filter Word.isValue).Pairwise fun v w => decide (v.offset ≤ w.offset) := by
  induction h with
  | nil => exact .nil
  | value hv _ hoffset h ih =>
    rw [List.map_cons, List.filter_cons_of_pos hv]
    refine .cons (fun w hw => decide_eq_true ?_) ih
    rw [hoffset]
    exact Nat.le_of_succ_le (h.le_offset hw)
  | other hv _ ih =>
    rw [List.map_cons, List.filter_cons_of_neg (by simp [hv])]
    exact ih

/-- The parameters by offset are the names in order. -/
theorem Lists.params_eq (h : l.Lists k xs) : l.params = xs := by
  unfold params
  rw [List.mergeSort_of_pairwise h.pairwise, h.map_name]

/-- A further parameter comes last. -/
theorem Lists.param (h : l.Lists k xs) (hx : x ∉ l.names) :
    (l.insert x (.value x (k + xs.length))).Lists k (xs ++ [x]) := by
  induction h with
  | nil => exact .value rfl rfl rfl .nil
  | @value y w l k xs hw hname hoffset _ ih =>
    have hy : y ≠ x := fun hy => hx (hy ▸ .head _)
    rw [insert, if_neg hy, List.length_cons, ← Nat.add_assoc, ← Nat.add_right_comm]
    exact .value hw hname hoffset (ih fun hmem => hx (.tail _ hmem))
  | @other y w l k xs hw _ ih =>
    have hy : y ≠ x := fun hy => hx (hy ▸ .head _)
    rw [insert, if_neg hy]
    exact .other hw (ih fun hmem => hx (.tail _ hmem))

/-- A word that is no value and has none of the names. -/
theorem Lists.define (h : l.Lists k xs) (hw : w.isValue = false) (hx : x ∉ xs) : (l.insert x w).Lists k xs := by
  induction h with
  | nil => exact .other hw .nil
  | @value y u l k xs hu hname hoffset _ ih =>
    have hy : y ≠ x := fun hy => hx (hy ▸ .head _)
    rw [insert, if_neg hy]
    exact .value hu hname hoffset (ih fun hmem => hx (.tail _ hmem))
  | @other y u l k xs hu h ih =>
    rw [insert]
    split
    · exact .other hw h
    · exact .other hu (ih hx)

/-- Only the patterns of a word are other ones. -/
theorem Lists.remember (h : l.Lists k xs) (hu : l.find? x = some u) (patterns : List NodeId) :
    (l.insert x { u with patterns }).Lists k xs := by
  induction h with
  | nil => cases hu
  | @value y w l k xs hw hname hoffset h ih =>
    rw [insert]
    rw [find?] at hu
    split
    · next hy =>
      rw [if_pos hy] at hu
      cases hu
      exact hy ▸ .value hw hname hoffset h
    · next hy =>
      rw [if_neg hy] at hu
      exact .value hw hname hoffset (ih hu)
  | @other y w l k xs hw h ih =>
    rw [insert]
    rw [find?] at hu
    split
    · next hy =>
      rw [if_pos hy] at hu
      cases hu
      exact .other hw h
    · next hy =>
      rw [if_neg hy] at hu
      exact .other hw (ih hu)

/-! ### The scope of a header -/

theorem spells_nil : Spells [] [] := ⟨List.nil_subset _, fun _ => .nil⟩

theorem Spells.param (h : l.Spells xs) : (l.insert x (.value x l.params.length)).Spells (xs ++ [x]) := by
  refine ⟨fun y hy => ?_, fun hdistinct => ?_⟩
  · rcases mem_names_insert.1 hy with rfl | hy
    · exact List.mem_append_right _ (.head _)
    · exact List.mem_append_left _ (h.names hy)
  · obtain ⟨hxs, -, hx⟩ := List.nodup_append.1 hdistinct
    have hlists := h.lists hxs
    have hnew : x ∉ l.names := fun hmem => hx x (h.names hmem) x (.head _) rfl
    rw [hlists.params_eq, ← Nat.zero_add xs.length]
    exact hlists.param hnew

theorem Spells.remember (h : l.Spells xs) (hu : l.find? x = some u) (patterns : List NodeId) :
    (l.insert x { u with patterns }).Spells xs := by
  refine ⟨fun y hy => ?_, fun hdistinct => (h.lists hdistinct).remember hu patterns⟩
  rcases mem_names_insert.1 hy with rfl | hy
  · exact h.names (mem_names_of_find? (by rw [hu]; rfl))
  · exact h.names hy

end Lexicon

/-- The innermost of `d` scopes has the words of a header so far. -/
def Environment.Spells (e : Environment) (d : Nat) (xs : List String) : Prop :=
  ∃ (e' : Environment) (name : String) (l : Lexicon), e = e'.under ⟨name, l⟩ ∧ e.depth = d ∧ l.Spells xs

namespace Environment

variable {e : Environment} {d : Nat} {xs : List String} {x : String} {w : Word}

theorem Spells.param (h : e.Spells d xs) : (e.bind x (.value x e.top.params.length)).Spells d (xs ++ [x]) := by
  obtain ⟨e', name, l, rfl, hd, hl⟩ := h
  exact ⟨e', name, _, bind_under, hd, hl.param⟩

theorem Spells.remember (h : e.Spells d xs) (hw : e.top.get? x = some w) (patterns : List NodeId) :
    (e.bind x { w with patterns }).Spells d xs := by
  obtain ⟨e', name, l, rfl, hd, hl⟩ := h
  exact ⟨e', name, _, bind_under, hd, hl.remember hw patterns⟩

end Environment

/-! ### The nodes of a header -/

/-- The nodes, last first, are patterns with the given names. -/
structure Pool.Spells (p : Pool) (ids : List NodeId) (xs : List String) : Prop where
  held : ∀ id ∈ ids, id ≤ p.size
  params : p.params ids.reverse = xs

namespace Pool

variable {p q : Pool} {id : NodeId} {ids front back : List NodeId} {xs : List String} {x : String}

theorem spells_nil : p.Spells [] [] := ⟨nofun, rfl⟩

theorem Spells.grow (h : p.Spells ids xs) (hpq : p.Extends q) : q.Spells ids xs := by
  refine ⟨fun id hid => hpq.le_size (h.held id hid), ?_⟩
  rw [hpq.params_eq fun id hid => h.held id (List.mem_reverse.1 hid), h.params]

theorem params_append : p.params (front ++ back) = p.params front ++ p.params back := by
  unfold params
  induction front with
  | nil => rfl
  | cons id front ih =>
    simp only [List.cons_append, List.map_cons, Pattern.identsOfAll, List.append_assoc]
    exact congrArg _ ih

theorem params_singleton : p.params [id] = (p.pattern id).idents := List.append_nil _

/-- A further pattern. -/
theorem Spells.cons (h : p.Spells ids xs) (hid : id ≤ p.size) : p.Spells (id :: ids) (xs ++ (p.pattern id).idents) := by
  refine ⟨fun i hi => ?_, ?_⟩
  · rcases List.mem_cons.1 hi with rfl | hi
    · exact hid
    · exact h.held i hi
  · rw [List.reverse_cons, params_append, params_singleton, h.params]

theorem Spells.ident (h : p.Spells ids xs) (hget : p.get? id = some (.ident x)) : p.Spells (id :: ids) (xs ++ [x]) := by
  have hcons := h.cons (le_size_of_get? hget)
  rwa [idents_ident hget] at hcons

/-- The last patterns become a list pattern. -/
theorem Spells.list (h : p.Spells (front ++ back) xs) (hget : p.get? id = some (.branch .list front.reverse)) :
    p.Spells (id :: back) xs := by
  have hback : p.Spells back (p.params back.reverse) := ⟨fun i hi => h.held i (List.mem_append_right _ hi), rfl⟩
  have hcons := hback.cons (le_size_of_get? hget)
  rwa [idents_list hget, ← params_append, ← List.reverse_append, h.params] at hcons

end Pool

/-! ### The positions of a header -/

/-- The positions of a header of which `n` operands have been reached; the header began at the height `base`. -/
def Brackets (base : Nat) : List Cont → Nat → Prop
  | [], n => base ≤ n
  | .params _ _ :: H, n => Brackets base H n
  | .paramList inner :: H, n => inner ≤ n ∧ Brackets base H inner
  | _, _ => False

theorem Brackets.mono {base n m : Nat} {H : List Cont} (h : Brackets base H n) (hnm : n ≤ m) : Brackets base H m := by
  induction H with
  | nil => exact Nat.le_trans h hnm
  | cons c H ih =>
    cases c with
    | params => exact ih h
    | paramList => exact ⟨Nat.le_trans h.1 hnm, h.2⟩
    | _ => exact h.elim

theorem Brackets.le {base n : Nat} {H : List Cont} (h : Brackets base H n) : base ≤ n := by
  induction H generalizing n with
  | nil => exact h
  | cons c H ih =>
    cases c with
    | params => exact ih h
    | paramList => exact Nat.le_trans (ih h.2) h.1
    | _ => exact h.elim

/-- Above the operands `low` the names `xs` of a header have been read, in the innermost of `d` scopes, and the
positions `H` go on with it. -/
structure Reading (low : List NodeId) (d : Nat) (H : List Cont) (s : Parsed) (ids : List NodeId) (xs : List String) :
    Prop where
  operands : s.operands = ids ++ low
  spells : s.pool.Spells ids xs
  scope : s.env.Spells d xs
  brackets : Brackets low.length H s.operands.length

namespace ParseM

variable {low ids : List NodeId} {d base : Nat} {H : List Cont} {s : Parsed} {xs : List String} {t : Token}
  {brk : TokenKind}

/-- The header is read on. -/
abbrev ReadsOn (low : List NodeId) (d : Nat) (H : List Cont) (f : ParseM Offer) (s : Parsed) : Prop :=
  Ensures f (fun a s' => ∃ ids xs, Reading low d (a.turn.next ++ H) s' ids xs) (fun _ _ => True) s

theorem readsOn_offerParam (h : Reading low d (.params brk base :: H) s ids xs) :
    ReadsOn low d H (offerParam brk base t) s := by
  obtain ⟨hoperands, hspells, hscope, hbrackets⟩ := h
  have hbrackets : Brackets low.length H s.operands.length := hbrackets
  unfold offerParam
  split
  · exact ⟨ids, xs, hoperands, hspells, hscope, hbrackets⟩
  split
  · exact ⟨ids, xs, hoperands, hspells, hscope, Nat.le_refl _, hbrackets⟩
  · unfold ReadsOn
    rw [Ensures.bind_iff, ensures_expect]
    split
    · have hspells' := (hspells.grow (s.pool.extends_internAt (.ident t.lexeme) t.span)).ident (Pool.get?_intern nofun)
      exact ⟨_, _, congrArg _ hoperands, hspells', hscope.param, hbrackets.mono (Nat.le_succ _)⟩
    · trivial

theorem ensures_markPattern_spells {list : NodeId} {E : Error → Parsed → Prop} {e : Environment}
    (hscope : e.Spells d xs) (henv : s.env = e) :
    Ensures (markPattern list ids) (fun _ s' => s' = { s with env := s'.env } ∧ s'.env.Spells d xs) E s := by
  subst henv
  induction ids generalizing s with
  | nil => exact ⟨rfl, hscope⟩
  | cons id ids ih =>
    unfold markPattern
    rw [Ensures.bind_iff, ensures_ask]
    split
    · rw [Ensures.bind_iff, ensures_ask]
      split
      · next w hw =>
        rw [Ensures.bind_iff, ensures_define]
        refine (ih (hscope.remember hw _)).mono (fun _ s' h => ⟨?_, h.2⟩) fun _ _ he => he
        exact h.1
      · exact ih hscope
    · exact ih hscope

theorem readsOn_takeParamList (h : Reading low d (.paramList base :: H) s ids xs) :
    ReadsOn low d H (takeParamList base t) s := by
  obtain ⟨hoperands, hspells, hscope, hbase, hbrackets⟩ := h
  have hlow : low.length ≤ base := hbrackets.le
  have hlength : s.operands.length = ids.length + low.length := by rw [hoperands, List.length_append]
  unfold ReadsOn takeParamList
  rw [Ensures.bind_iff, ensures_expect]
  split
  · -- The operands from `base` on are the last patterns of the header.
    obtain ⟨front, back, rfl, hfront⟩ : ∃ front back, ids = front ++ back ∧ front.length = s.operands.length - base :=
      ⟨ids.take _, ids.drop _, (List.take_append_drop ..).symm, List.length_take_of_le (by omega)⟩
    have hoperands : s.operands = front ++ (back ++ low) := by rw [hoperands, List.append_assoc]
    rw [Ensures.bind_iff, ensures_drainFrom, ← hfront, hoperands, List.take_left, List.drop_left, Ensures.bind_iff,
      ensures_intern]
    have hheld : ∀ c ∈ (Node.branch .list front.reverse).elts, c ≤ s.pool.size := fun c hc =>
      hspells.held c (List.mem_append_left _ (List.mem_reverse.1 hc))
    have hlist := (hspells.grow (s.pool.extends_intern _)).list (Pool.get?_intern hheld)
    refine Ensures.bind_iff.2 ((ensures_markPattern_spells hscope ?_).mono ?_ fun _ _ he => he)
    · rfl
    · rintro _ s' ⟨hs', hscope'⟩
      rw [hs']
      refine ⟨_, xs, rfl, hlist, hscope', hbrackets.mono ?_⟩
      show base ≤ (back ++ low).length + 1
      rw [hoperands, List.length_append] at hfront hbase
      omega
  · trivial

end ParseM

end Linefold
