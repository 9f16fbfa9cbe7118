import Linefold.Proofs.Folding.Binding

/-!
# Reductions find their operands

A reduction that turns one layout of the frames into another never fails on frames that are laid out
that way (`becomes_run`).
-/

namespace Linefold

attribute [local irreducible] Pool.intern

variable {s : OperandStack} {p : Pool} {L L' : List Layout} {l : Layout} {fs : List (List NodeId)}
  {vs : List NodeId} {part : Part} {r : Reduction} {n : Node} {id a b : NodeId} {t : Tag}

namespace Values

/-- In a well-shaped pool, the open frames on `s` hold what their layouts say. -/
def Filled (s : OperandStack) (L : List Layout) (v : Values) : Prop :=
  ∃ p fs, v = ⟨p, s.stacked fs⟩ ∧ p.WellShaped ∧ List.Forall₂ p.Fills L fs

theorem Filled.forget {v : Values} (h : v.Filled s (.on .value .values :: L)) :
    v.Filled s (.values :: L) := by
  obtain ⟨p, fs, rfl, hp, hfs⟩ := h
  cases hfs with
  | cons hvs hfs => exact ⟨p, _, rfl, hp, .cons hvs.forget hfs⟩

theorem Filled.wellShaped {v : Values} (h : v.Filled s L) : v.pool.WellShaped := by
  obtain ⟨p, fs, rfl, hp, -⟩ := h
  exact hp

/-- The computation succeeds, adds no names and leaves the frames laid out as `L`. -/
def Becomes (s : OperandStack) (L : List Layout) (f : ValuesM Unit) (v : Values) : Prop :=
  Ensures f (fun _ v' => v.pool.Grows v'.pool ∧ v'.Filled s L) (fun _ _ => False) v

theorem forall₂_fills_mono {q : Pool} (h : List.Forall₂ p.Fills L fs) (hpq : p.Extends q) :
    List.Forall₂ q.Fills L fs :=
  h.imp fun _ _ h => h.mono hpq

theorem becomes_push (hp : p.WellShaped) (hid : p.Fits part id) (hvs : p.Fills l vs)
    (hfs : List.Forall₂ p.Fills L fs) :
    Becomes s (.on part l :: L) (ValuesM.push id) ⟨p, s.stacked (vs :: fs)⟩ :=
  .of_ok ValuesM.push_stacked ⟨.refl p, p, _, rfl, hp, .cons (.on hid hvs) hfs⟩

theorem becomes_leave (hp : p.WellShaped) (hn : n.Shaped p) (hname : n.tag ≠ .ident)
    (hpart : ∀ q id, Pool.get? q id = some n → q.Fits part id) (hvs : p.Fills l vs)
    (hfs : List.Forall₂ p.Fills L fs) :
    Becomes s (.on part l :: L) (ValuesM.leave n) ⟨p, s.stacked (vs :: fs)⟩ := by
  have hext := p.extends_intern n
  have hid := hpart _ _ (Pool.get?_intern_of_shaped hn)
  refine .of_ok ValuesM.leave_stacked ⟨p.grows_intern hname, _, _, rfl, hp.intern hn, ?_⟩
  exact .cons (.on hid (hvs.mono hext)) (forall₂_fills_mono hfs hext)

theorem becomes_leave_literal (hp : p.WellShaped) (hn : n.isLiteral) (hvs : p.Fills l vs)
    (hfs : List.Forall₂ p.Fills L fs) :
    Becomes s (.on .value l :: L) (ValuesM.leave n) ⟨p, s.stacked (vs :: fs)⟩ := by
  refine becomes_leave hp (shaped_of_isLiteral hn) ?_ (fun _ _ => fits_value_of_isLiteral hn) hvs hfs
  cases n <;> simp_all [Node.isLiteral, Node.tag]

theorem becomes_leave_branch {es : List NodeId} (hp : p.WellShaped)
    (hn : (Node.branch t es).Shaped p) (ht : t ≠ .ident) (hvs : p.Fills l vs)
    (hfs : List.Forall₂ p.Fills L fs) :
    Becomes s (.on t.part l :: L) (ValuesM.leave (.branch t es)) ⟨p, s.stacked (vs :: fs)⟩ :=
  becomes_leave hp hn ht (fun _ _ h => Pool.fits_part h) hvs hfs

/-- The operator over its operands, or the literal that it comes to. -/
theorem becomes_leaveResult {result : Option Node} (ht : t.isOperator)
    (hresult : ∀ n, result = some n → n.isLiteral) (hp : p.WellShaped) (ha : p.Fits .value a)
    (hb : p.Fits .value b) (hvs : p.Fills l vs) (hfs : List.Forall₂ p.Fills L fs) :
    Becomes s (.on .value l :: L) (ValuesM.leaveResult t a b result) ⟨p, s.stacked (vs :: fs)⟩ := by
  unfold ValuesM.leaveResult
  cases result with
  | some n => exact becomes_leave_literal hp (hresult n rfl) hvs hfs
  | none =>
    have hn : (Node.branch t [a, b]).Shaped p :=
      ⟨_, admits_of_isOperator ht, .cons ha (.cons hb .nil)⟩
    refine becomes_leave hp hn ?_ (fun _ _ h => ⟨_, h, ?_⟩) hvs hfs
    · rintro rfl
      cases ht
    · constructor <;> (intro heq; cases heq; cases ht)

/-! ### Single reductions -/

theorem ensures_intern {st : OperandStack} {Q : NodeId → Values → Prop} {E : Error → Values → Prop} :
    Ensures (ValuesM.intern n) Q E ⟨p, st⟩ ↔ Q (p.intern n).1 ⟨(p.intern n).2, st⟩ := Iff.rfl

/-- The one value, or a node over all values. -/
theorem ensures_single {st : OperandStack} (hp : p.WellShaped) (hvs : ∀ v ∈ vs, p.Fits .value v) :
    Ensures (ValuesM.single vs) (fun id v => ∃ q, v = ⟨q, st⟩ ∧ p.Grows q ∧ q.WellShaped ∧
      q.Fits .value id) (fun _ _ => False) ⟨p, st⟩ := by
  unfold ValuesM.single
  split
  · exact ⟨p, rfl, .refl p, hp, hvs _ (.head _)⟩
  · have hn : (Node.branch .exprs vs).Shaped p := shaped_of_forall (fun _ h => h) hvs
    refine ⟨(p.intern _).2, rfl, p.grows_intern (by simp [Node.tag]), hp.intern hn, ?_⟩
    exact ⟨_, Pool.get?_intern_of_shaped hn, by simp [Node.tag]⟩

theorem Becomes.mono_left {q : Pool} {f : ValuesM Unit} {st st' : OperandStack} (hpq : p.Grows q)
    (h : Ensures f (fun _ v' => q.Grows v'.pool ∧ v'.Filled s L) (fun _ _ => False) ⟨q, st⟩) :
    Ensures f (fun _ v' => (Values.mk p st').pool.Grows v'.pool ∧ v'.Filled s L) (fun _ _ => False)
      ⟨q, st⟩ :=
  h.mono (fun _ _ ⟨hq, hv⟩ => ⟨hpq.trans hq, hv⟩) fun _ _ h => h

theorem becomes_collect (hp : p.WellShaped) (hws : ∀ v ∈ vs, p.Fits .value v) {ws : List NodeId}
    (hvs : p.Fills l ws) (hfs : List.Forall₂ p.Fills L fs) :
    Becomes s (.on .value l :: L) Reduction.collect.run ⟨p, s.stacked (vs :: ws :: fs)⟩ := by
  refine Ensures.bind_iff.2 (.of_ok ValuesM.closeFrame_stacked ?_)
  refine Ensures.bind_iff.2 ((ensures_single hp hws).mono ?_ fun _ _ h => h)
  rintro id _ ⟨q, rfl, hpq, hq, hid⟩
  exact Becomes.mono_left hpq (becomes_push hq hid (hvs.mono hpq.keeps) (forall₂_fills_mono hfs hpq.keeps))

theorem becomes_close (ht : t = .prog ∨ t = .paren ∨ t = .list) (hp : p.WellShaped)
    (hws : ∀ v ∈ vs, p.Fits .value v) {ws : List NodeId} (hvs : p.Fills l ws)
    (hfs : List.Forall₂ p.Fills L fs) :
    Becomes s (.on .value l :: L) (Reduction.close t).run ⟨p, s.stacked (vs :: ws :: fs)⟩ := by
  rcases ht with rfl | rfl | rfl
  · refine Ensures.bind_iff.2 (.of_ok ValuesM.closeFrame_stacked ?_)
    have hn : (Node.branch .exprs vs).Shaped p := shaped_of_forall (fun _ h => h) hws
    have hpq := p.grows_intern (n := .branch .exprs vs) (by simp [Node.tag])
    have hexprs : (p.intern (.branch .exprs vs)).2.Fits .exprs (p.intern (.branch .exprs vs)).1 :=
      ⟨vs, Pool.get?_intern_of_shaped hn⟩
    refine Ensures.bind_iff.2 (ensures_intern.2 (Becomes.mono_left hpq ?_))
    exact becomes_leave_branch (t := .prog) (hp.intern hn) ⟨_, rfl, .cons hexprs .nil⟩ (by simp)
      (hvs.mono hpq.keeps) (forall₂_fills_mono hfs hpq.keeps)
  · refine Ensures.bind_iff.2 (.of_ok ValuesM.closeFrame_stacked ?_)
    refine Ensures.bind_iff.2 ((ensures_single hp hws).mono ?_ fun _ _ h => h)
    rintro id _ ⟨q, rfl, hpq, hq, hid⟩
    refine Becomes.mono_left hpq ?_
    exact becomes_leave_branch (t := .paren) hq ⟨_, rfl, .cons hid .nil⟩ (by simp)
      (hvs.mono hpq.keeps) (forall₂_fills_mono hfs hpq.keeps)
  · refine Ensures.bind_iff.2 (.of_ok ValuesM.closeFrame_stacked ?_)
    exact becomes_leave_branch (t := .list) hp (shaped_of_forall (fun _ h => h) hws) (by simp) hvs hfs

theorem becomes_build {parts : List Part} (ht : t.Admits parts) (hp : p.WellShaped)
    (hvs : p.Fills (l.onto parts.reverse) vs) (hfs : List.Forall₂ p.Fills L fs) :
    Becomes s (.on t.part l :: L) (Reduction.build t parts.length).run ⟨p, s.stacked (vs :: fs)⟩ := by
  obtain ⟨top, rest, rfl, htop, hrest⟩ := hvs.onto
  have hlength : parts.length = top.length := by simpa using htop.length_eq
  refine Ensures.bind_iff.2 (.of_ok (hlength ▸ ValuesM.popMany_stacked) ?_)
  refine becomes_leave_branch hp ⟨parts, ht, ?_⟩ ?_ hrest hfs
  · rw [← List.reverse_reverse parts]
    exact List.rel_reverse htop
  · rintro rfl
    cases ht.1

theorem becomes_operator (ht : t.isOperator) (hr : r = .arithmetic t ∨ r = .concat ∨ r = .compare t)
    (hp : p.WellShaped) (ha : p.Fits .value a) (hb : p.Fits .value b) (hvs : p.Fills l vs)
    (hfs : List.Forall₂ p.Fills L fs) :
    Becomes s (.on .value l :: L) r.run ⟨p, s.stacked ((b :: a :: vs) :: fs)⟩ := by
  rcases hr with rfl | rfl | rfl
  all_goals
    refine Ensures.bind_iff.2 (.of_ok ValuesM.popPair_stacked ?_)
    refine Ensures.bind_iff.2 (.of_ok rfl (Ensures.bind_iff.2 (.of_ok rfl ?_)))
  · exact becomes_leaveResult ht (fun _ => Node.isLiteral_of_arithmetic) hp ha hb hvs hfs
  · exact becomes_leaveResult (by decide) (fun _ => Node.isLiteral_of_concat) hp ha hb hvs hfs
  · exact becomes_leaveResult ht (fun _ => Node.isLiteral_of_compare) hp ha hb hvs hfs

theorem becomes_negate (hp : p.WellShaped) (ha : p.Fits .value a) (hvs : p.Fills l vs)
    (hfs : List.Forall₂ p.Fills L fs) :
    Becomes s (.on .value l :: L) Reduction.negate.run ⟨p, s.stacked ((a :: vs) :: fs)⟩ := by
  refine Ensures.bind_iff.2 (.of_ok ValuesM.pop_stacked ?_)
  refine Ensures.bind_iff.2 (.of_ok rfl ?_)
  split
  · exact becomes_leave_literal hp rfl hvs hfs
  · exact becomes_leave_branch (t := .neg) hp ⟨_, rfl, .cons ha .nil⟩ (by simp) hvs hfs

theorem becomes_lambda {names pattern : NodeId} (hnames : p.Fits .names names)
    (hpattern : p.Fits .patterns pattern) (hp : p.WellShaped) (ha : p.Fits .value a)
    (hvs : p.Fills l vs) (hfs : List.Forall₂ p.Fills L fs) :
    Becomes s (.on .value l :: L) (Reduction.lambda names pattern).run
      ⟨p, s.stacked ((a :: vs) :: fs)⟩ := by
  refine Ensures.bind_iff.2 (.of_ok ValuesM.pop_stacked ?_)
  exact becomes_leave_branch (t := .lambda) hp
    ⟨_, rfl, .cons hnames (.cons ha (.cons hpattern .nil))⟩ (by simp) hvs hfs

/-! ### All reductions -/

theorem becomes_run (h : Task.Turns p (.reduce r) L L') (hp : p.WellShaped)
    (hfs : List.Forall₂ p.Fills L fs) : Becomes s L' r.run ⟨p, s.stacked fs⟩ := by
  cases h with
  | collect =>
    cases hfs with
    | cons hws hfs =>
      cases hfs with
      | cons hvs hfs =>
        cases hws with
        | values hws => exact becomes_collect hp hws hvs hfs
  | collectBinding =>
    cases hfs with
    | cons hws hfs =>
      cases hfs with
      | cons hvs hfs =>
        cases hws with
        | on hid hws =>
          cases hws
          refine Ensures.bind_iff.2 (.of_ok ValuesM.closeFrame_stacked ?_)
          exact becomes_push hp hid hvs hfs
  | close ht =>
    cases hfs with
    | cons hws hfs =>
      cases hfs with
      | cons hvs hfs =>
        cases hws with
        | values hws => exact becomes_close ht hp hws hvs hfs
  | push hid =>
    cases hfs with
    | cons hvs hfs => exact becomes_push hp hid hvs hfs
  | build parts ht hn =>
    subst hn
    cases hfs with
    | cons hvs hfs => exact becomes_build ht hp hvs hfs
  | operator ht hr =>
    cases hfs with
    | cons hvs hfs =>
      cases hvs with
      | on hb hvs =>
        cases hvs with
        | on ha hvs => exact becomes_operator ht hr hp ha hb hvs hfs
  | negate =>
    cases hfs with
    | cons hvs hfs =>
      cases hvs with
      | on ha hvs => exact becomes_negate hp ha hvs hfs
  | lambda hnames hpattern =>
    cases hfs with
    | cons hvs hfs =>
      cases hvs with
      | on ha hvs => exact becomes_lambda hnames hpattern hp ha hvs hfs

end Values

end Linefold
