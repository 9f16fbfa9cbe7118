import Linefold.Folder.Pattern
import Linefold.Proofs.Twins.Agree

/-!
# Binding patterns over two pools

Patterns that are alike, bound to values in relation, give words for the same names with values in relation
(`agree_bindAll`). Whether a list pattern meets a literal list, and so whether it is bound to elements or to
projections, is the same in both pools. The relation may be any that projections out of values keep
(`Twin.Valued`), such as being alike.
-/

namespace Linefold

attribute [local irreducible] Pool.intern

/-! ### Patterns -/

mutual

inductive Pattern.Alike (T : Twin) : Pattern → Pattern → Prop where
  | name {i j : NodeId} (s : String) (h : T.Alike i j) : Pattern.Alike T (.name i s) (.name j s)
  | list {ps qs : List Pattern} (h : Pattern.AllAlike T ps qs) : Pattern.Alike T (.list ps) (.list qs)
  | faulty (fault : InternalFault) : Pattern.Alike T (.faulty fault) (.faulty fault)

inductive Pattern.AllAlike (T : Twin) : List Pattern → List Pattern → Prop where
  | nil : Pattern.AllAlike T [] []
  | cons {x y : Pattern} {ps qs : List Pattern} (h : Pattern.Alike T x y)
      (rest : Pattern.AllAlike T ps qs) : Pattern.AllAlike T (x :: ps) (y :: qs)

end

section

variable {T : Twin} {i j : NodeId} {is js : List NodeId}

theorem Pattern.allAlike_map {f g : NodeId → Pattern}
    (h : List.Forall₂ (fun i j => (f i).Alike T (g j)) is js) :
    Pattern.AllAlike T (is.map f) (js.map g) := by
  induction h with
  | nil => exact .nil
  | cons hij _ ih => exact .cons hij ih

theorem Twin.Alike.pattern (h : T.Alike i j) : (T.left.pattern i).Alike T (T.right.pattern j) := by
  induction i using Nat.strongRecOn generalizing j with
  | ind i ih =>
    cases h with
    | absent =>
      rw [Pool.pattern_of_none rfl, Pool.pattern_of_none rfl]
      exact .faulty _
    | node hi hj hm =>
      have hfaulty (hname : ∀ s, T.left.get? i ≠ some (.ident s) ∧ T.right.get? j ≠ some (.ident s))
          (hlist : ∀ es, T.left.get? i ≠ some (.branch .list es) ∧
            T.right.get? j ≠ some (.branch .list es)) :
          (T.left.pattern i).Alike T (T.right.pattern j) := by
        rw [Pool.pattern_of_ne hi (fun s h => (hname s).1 (h ▸ hi)) fun es h => (hlist es).1 (h ▸ hi),
          Pool.pattern_of_ne hj (fun s h => (hname s).2 (h ▸ hj)) fun es h => (hlist es).2 (h ▸ hj)]
        exact .faulty _
      cases hm with
      | ident s =>
        rw [Pool.pattern_of_ident hi, Pool.pattern_of_ident hj]
        exact .name s (.node hi hj (.ident s))
      | branch t hes =>
        by_cases ht : t = .list
        · subst ht
          rw [Pool.pattern_of_list hi, Pool.pattern_of_list hj]
          refine .list (Pattern.allAlike_map (forall₂_imp_mem hes fun c hc d hd => ?_))
          exact ih c (Pool.lt_of_get?_branch hi hc) hd
        · apply hfaulty <;> simp [hi, hj, ht]
      | _ => apply hfaulty <;> simp [hi, hj]

mutual

theorem Pattern.Alike.names : ∀ {x y : Pattern}, x.Alike T y →
    SameOutcome (List.Forall₂ T.Alike) x.names y.names
  | _, _, .name _ h => .ok (.cons h .nil)
  | _, _, .list h => Pattern.AllAlike.names h
  | _, _, .faulty fault => .error fault

theorem Pattern.AllAlike.names : ∀ {ps qs : List Pattern}, Pattern.AllAlike T ps qs →
    SameOutcome (List.Forall₂ T.Alike) (Pattern.namesOfAll ps) (Pattern.namesOfAll qs)
  | _, _, .nil => .ok .nil
  | _, _, .cons h rest => (Pattern.Alike.names h).bind fun _ _ hids =>
    (Pattern.AllAlike.names rest).bind fun _ _ hrest => .ok (List.rel_append hids hrest)

end

end

/-! ### Computations on a pool -/

namespace Pattern

instance : Pooled Pool where
  pool := id
  Alike _ _ _ := True

variable {T : Twin} {n m : Node} {i j : NodeId} {is js args args' : List NodeId} {pos : Nat}

namespace PoolM

theorem agree_get : Agree T (get : PoolM Pool) get fun U p q => U = ⟨p, q⟩ :=
  fun _ _ _ _ => ⟨.refl _, trivial, rfl⟩

theorem agree_intern (h : n.Matches T.Alike m) : Agree T (intern n) (intern m) Twin.Alike :=
  fun s t hT _ => ⟨Twin.grows_intern ⟨s, t⟩ n m, trivial, Twin.alike_intern (Twin.matches_mono h hT)⟩

end PoolM

end Pattern

/-! ### Values -/

/-- What a relation on values must do for patterns to be bound to them in step. -/
class Twin.Valued (V : Twin → NodeId → NodeId → Prop) : Prop where
  mono {T U : Twin} {i j : NodeId} (h : V T i j) (hTU : T.Grows U) : V U i j
  resembling (T : Twin) : T.Resembling (V T)
  absent (T : Twin) : V T 0 0
  number (T : Twin) (x : Number) : V (T.intern (.num x) (.num x)) (T.left.intern (.num x)).1 (T.right.intern (.num x)).1
  branch {T : Twin} {t : Tag} {es fs : List NodeId} (ht : t = .val ∨ t = .arg) (h : List.Forall₂ (V T) es fs) :
    V (T.intern (.branch t es) (.branch t fs)) (T.left.intern (.branch t es)).1 (T.right.intern (.branch t fs)).1

instance : Twin.Valued Twin.Alike where
  mono := Twin.Alike.mono
  resembling := Twin.resembling_alike
  absent _ := .absent
  number _ x := Twin.alike_intern (.num x)
  branch _ h := Twin.alike_intern (.branch _ h)

/-- Two values of one name, in relation. -/
structure Word.Paired (V : Twin → NodeId → NodeId → Prop) (T : Twin) (w v : Word) : Prop where
  left : ∃ offset, w = { Word.value w.name offset with nid := w.nid }
  right : v = { w with nid := v.nid }
  value : V T w.nid v.nid

theorem Word.Paired.mono {V : Twin → NodeId → NodeId → Prop} [Twin.Valued V] {T U : Twin} {w v : Word}
    (h : w.Paired V T v) (hTU : T.Grows U) : w.Paired V U v :=
  { h with value := Twin.Valued.mono h.value hTU }

theorem Word.Paired.alike {T : Twin} {w v : Word} (h : w.Paired Twin.Alike T v) : w.Alike T v := by
  obtain ⟨⟨offset, hw⟩, hv, hvalue⟩ := h
  rw [hv, hw]
  exact Word.alike_value hvalue

namespace Pattern

open Twin (Valued)

variable {V : Twin → NodeId → NodeId → Prop} [Valued V]

theorem forall₂_valued_mono {U : Twin} (h : List.Forall₂ (V T) is js) (hTU : T.Grows U) : List.Forall₂ (V U) is js :=
  h.imp fun _ _ h => Valued.mono h hTU

theorem agree_number {x : Number} : Agree T (PoolM.intern (.num x)) (PoolM.intern (.num x)) V :=
  fun s t _ _ => ⟨Twin.grows_intern ⟨s, t⟩ _ _, trivial, Valued.number ⟨s, t⟩ x⟩

theorem agree_part {t : Tag} {es fs : List NodeId} (ht : t = .val ∨ t = .arg) (h : List.Forall₂ (V T) es fs) :
    Agree T (PoolM.intern (.branch t es)) (PoolM.intern (.branch t fs)) V :=
  fun s u hT _ => ⟨Twin.grows_intern ⟨s, u⟩ _ _, trivial, Valued.branch ht (forall₂_valued_mono h hT)⟩

theorem agree_listItems? (h : V T i j) :
    Agree T (PoolM.listItems? i) (PoolM.listItems? j) fun U => Option.Rel (List.Forall₂ (V U)) :=
  fun s t hT _ => ⟨.refl _, trivial, (Valued.resembling ⟨s, t⟩).listItems? (Valued.mono h hT)⟩

theorem agree_projection (h : V T i j) : Agree T (projection pos i) (projection pos j) V :=
  agree_number.bind fun _ _ _ hU hindex => agree_part (.inl rfl) (.cons hindex (.cons (Valued.mono h hU) .nil))

/-! ### Words of a pattern -/

theorem valued_head? (h : List.Forall₂ (V T) is js) : V T (is.head?.getD 0) (js.head?.getD 0) := by
  cases h with
  | nil => exact Valued.absent T
  | cons hij _ => exact hij

theorem forall₂_tail {R : NodeId → NodeId → Prop} (h : List.Forall₂ R is js) : List.Forall₂ R is.tail js.tail := by
  cases h with
  | nil => exact .nil
  | cons _ h => exact h

theorem agree_append {f f' g g' : PoolM (List Word)}
    (hf : Agree T f f' fun U => List.Forall₂ (Word.Paired V U))
    (hg : ∀ U, T.Grows U → Agree U g g' fun U => List.Forall₂ (Word.Paired V U)) :
    Agree T (do return (← f) ++ (← g)) (do return (← f') ++ (← g'))
      fun U => List.Forall₂ (Word.Paired V U) :=
  hf.bind fun U _ _ hU hws => (hg U hU).bind fun _ _ _ hUV hvs =>
    agree_pure fun _ hVW => List.rel_append (hws.imp fun _ _ h => h.mono (hUV.trans hVW))
      (hvs.imp fun _ _ h => h.mono hVW)

-- The pools grow while the recursion stays on the patterns of the first pair of them.
mutual

theorem agree_words {U : Twin} {i j : NodeId} (hTU : T.Grows U) (h : V U i j) (pos : Nat) :
    ∀ {x y : Pattern}, x.Alike T y →
      Agree U (words i pos x) (words j pos y) fun W => List.Forall₂ (Word.Paired V W)
  | _, _, .name s _ => agree_pure fun _ hUV => .cons ⟨⟨pos, rfl⟩, rfl, Valued.mono h hUV⟩ .nil
  | _, _, .list hps =>
    (agree_listItems? h).bind fun _ _ _ hUV hitems =>
      match hitems with
      | .none => agree_wordsOfParts (hTU.trans hUV) (Valued.mono h hUV) 0 hps
      | .some hitems => agree_wordsOfItems (hTU.trans hUV) hitems 0 hps
  | _, _, .faulty fault => agree_throw

theorem agree_wordsOfItems {U : Twin} {is js : List NodeId} (hTU : T.Grows U)
    (h : List.Forall₂ (V U) is js) (pos : Nat) : ∀ {ps qs : List Pattern}, AllAlike T ps qs →
      Agree U (wordsOfItems is pos ps) (wordsOfItems js pos qs) fun W => List.Forall₂ (Word.Paired V W)
  | _, _, .nil => agree_pure fun _ _ => .nil
  | _, _, .cons hx hps =>
    agree_append (agree_words hTU (valued_head? h) pos hx) fun _ hUV =>
      agree_wordsOfItems (hTU.trans hUV) (forall₂_valued_mono (forall₂_tail h) hUV) (pos + 1) hps

theorem agree_wordsOfParts {U : Twin} {i j : NodeId} (hTU : T.Grows U) (h : V U i j) (pos : Nat) :
    ∀ {ps qs : List Pattern}, AllAlike T ps qs →
      Agree U (wordsOfParts i pos ps) (wordsOfParts j pos qs) fun W => List.Forall₂ (Word.Paired V W)
  | _, _, .nil => agree_pure fun _ _ => .nil
  | _, _, .cons hx hps =>
    (agree_projection h).bind fun _ _ _ hUV hpart =>
      agree_append (agree_words (hTU.trans hUV) hpart pos hx) fun _ hVW =>
        agree_wordsOfParts (hTU.trans (hUV.trans hVW)) (Valued.mono h (hUV.trans hVW)) (pos + 1) hps

end

/-! ### Parameters -/

structure Binding.Paired (V : Twin → NodeId → NodeId → Prop) (T : Twin) (b c : Binding) : Prop where
  words : List.Forall₂ (Word.Paired V T) b.words c.words
  late : b.late = c.late

theorem isNone_eq {α β : Type} {R : α → β → Prop} {x : Option α} {y : Option β} (h : Option.Rel R x y) :
    x.isNone = y.isNone := by
  cases h <;> rfl

/-- Binding depends on no id: an argument that is absent is so in both pools. -/
theorem agree_bindAll (hargs : List.Forall₂ (V T) args args') (h : List.Forall₂ T.Alike is js) :
    Agree T (bindAll args pos is) (bindAll args' pos js) (Binding.Paired V) := by
  induction is generalizing T pos js args args' with
  | nil =>
    cases h
    exact agree_pure fun _ _ => ⟨.nil, rfl⟩
  | cons i is ih =>
    rcases h with _ | @⟨_, j, _, js, hij, h⟩
    unfold bindAll
    refine PoolM.agree_get.bind ?_
    rintro U p q hTU rfl
    have hargs := forall₂_valued_mono hargs hTU
    have hij := hij.mono hTU
    extract_lets arg late shape jp arg' late' shape' jp'
    have harg : V ⟨p, q⟩ arg arg' := valued_head? hargs
    have hresembling := Valued.resembling (V := V) ⟨p, q⟩
    have hlate : late = late' := by
      have hzero : decide (arg ≠ 0) = decide (arg' ≠ 0) :=
        decide_eq_decide.2 (not_congr (hresembling.eq_zero_iff harg))
      have htag : p.tag? i = q.tag? j := hij.tag?_eq
      have hitems : (p.listItems? arg).isNone = (q.listItems? arg').isNone :=
        isNone_eq (hresembling.listItems? harg)
      show (_ && _ && _) = (_ && _ && _)
      rw [hzero, htag, hitems]
    have hrest : ∀ W source source', Twin.Grows ⟨p, q⟩ W → V W source source' →
        Agree W (jp source) (jp' source') (Binding.Paired V) := by
      intro W source source' hUW hsource
      refine (agree_words hUW hsource pos hij.pattern).bind fun X ws vs hWX hws => ?_
      have hUX := hUW.trans hWX
      have hbound : Agree X (bindAll args.tail (pos + 1) is) (bindAll args'.tail (pos + 1) js)
          (Binding.Paired V) :=
        ih (forall₂_valued_mono (forall₂_tail hargs) hUX) (Twin.forall₂_mono h (hTU.trans hUX))
      refine hbound.bind fun Y bound bound' hXY hbound => ?_
      refine agree_pure fun Z hYZ => ⟨List.rel_append ?_ ?_, ?_⟩
      · exact hws.imp fun _ _ h => h.mono (hXY.trans hYZ)
      · exact hbound.words.imp fun _ _ h => h.mono hYZ
      · show (_ || _) = (_ || _)
        rw [hlate, hbound.late]
    rw [← hlate]
    split
    · refine (agree_number (V := V)).bind fun W index index' hUW hindex => ?_
      refine (agree_part (.inr rfl) (.cons hindex .nil)).bind fun X source source' hWX h => ?_
      exact hrest X source source' (hUW.trans hWX) h
    · exact (agree_pure fun _ hUW => Valued.mono harg hUW).bind fun W _ _ hUW h => hrest W _ _ hUW h

theorem agree_lambdaParts (h : List.Forall₂ T.Alike is js) :
    Agree T (lambdaParts is) (lambdaParts js) fun U a b => U.Alike a.1 b.1 ∧ U.Alike a.2 b.2 := by
  unfold lambdaParts
  refine PoolM.agree_get.bind ?_
  rintro U p q hTU rfl
  have hps := Pattern.allAlike_map <|
    (Twin.forall₂_mono h hTU).imp fun _ _ hij => Twin.Alike.pattern (T := ⟨p, q⟩) hij
  have hnames := hps.names
  generalize namesOfAll (is.map p.pattern) = left, namesOfAll (js.map q.pattern) = right at hnames ⊢
  cases hnames with
  | ok hnames =>
    refine (PoolM.agree_intern (.branch .list hnames)).bind fun V names names' hUV hnames => ?_
    have h := Twin.forall₂_mono h (hTU.trans hUV)
    refine (PoolM.agree_intern (.branch .list h)).bind fun W pattern pattern' hVW hpattern => ?_
    exact agree_pure fun X hWX => ⟨hnames.mono (hVW.trans hWX), hpattern.mono hWX⟩
  | error fault => exact agree_throw

end Pattern

end Linefold
