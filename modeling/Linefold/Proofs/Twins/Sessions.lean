import Linefold.Proofs.Twins.Folding
import Linefold.Proofs.Twins.Parsing
import Linefold.Session

/-!
# Sessions over two pools

Sessions that are alike scan a line to the same tokens, class them alike (`Session.Alike.parseLine`) and
end in outcomes with the same trees (`Session.Alike.finish`), or in the same errors.
-/

namespace Linefold

attribute [local irreducible] Pool.intern

/-! ### Lines -/

/-- Of a lexicon, the scanner asks for nothing but the operator words. -/
theorem Scanner.scan_congr {g k : Scope} (h : ∀ name, g.operator? name = k.operator? name)
    (s : Scanner) : s.scan g = s.scan k := by
  have hlexeme : ∀ c cs, lexeme g c cs = lexeme k c cs := by
    intro c cs
    unfold lexeme signKind nameKind
    simp only [h]
  unfold scan
  simp only [hlexeme]

namespace Session

/-- The pools of two sessions. -/
def twin (s s' : Session) : Twin := ⟨s.pool, s'.pool⟩

structure Alike (s s' : Session) : Prop where
  config : s.config = s'.config
  env : s.env.Alike (s.twin s') s'.env
  state : s.state.Alike (s.twin s') s'.state
  line : s.line = s'.line

/-- Both sessions went on and are alike again; the settings of the first are what they were. -/
structure Follows (s s' r r' : Session) : Prop where
  grows : (s.twin s').Grows (r.twin r')
  alike : r.Alike r'
  config : r.config = s.config
  env : r.env = s.env

variable {s s' r r' : Session} {t : Token}

theorem Follows.trans {q q' : Session} (h : Follows s s' r r') (h' : Follows r r' q q') :
    Follows s s' q q' :=
  ⟨h.grows.trans h'.grows, h'.alike, h'.config.trans h.config, h'.env.trans h.env⟩

namespace Alike

theorem refl (h : s.Alike s') : Follows s s' s s' := ⟨.refl _, h, rfl, rfl⟩

theorem step (h : s.Alike s') :
    (s.step t).1 = (s'.step t).1 ∧ Follows s s' (s.step t).2 (s'.step t).2 := by
  obtain ⟨hresult, hgrows, hstate⟩ := h.state.step (t := t)
  exact ⟨hresult, hgrows, ⟨h.config, h.env.mono hgrows, hstate, h.line⟩, rfl, rfl⟩

theorem scan_eq (h : s.Alike s') (scanner : Scanner) :
    scanner.scan s.state.env.globals = scanner.scan s'.state.env.globals :=
  Scanner.scan_congr (fun _ => h.state.env.globals.operator?_eq) scanner

theorem feed (h : s.Alike s') (scanner : Scanner) :
    (s.feed scanner).1 = (s'.feed scanner).1 ∧
      Follows s s' (s.feed scanner).2 (s'.feed scanner).2 := by
  induction hn : scanner.rest.length using Nat.strongRecOn generalizing s s' scanner with
  | ind n ih =>
    subst hn
    have hscan := h.scan_eq scanner
    generalize hs : scanner.scan s.state.env.globals = lexed at hscan
    rcases lexed with ⟨_ | lexed, rest⟩
    · rw [feed_of_none hs, feed_of_none hscan.symm]
      exact ⟨rfl, h.refl⟩
    · have hlt := Scanner.length_rest_scan_lt hs
      cases lexed with
      | comment span =>
        obtain ⟨hrest, hfollows⟩ := ih _ hlt h _ rfl
        rw [feed_of_comment hs, feed_of_comment hscan.symm, hrest]
        exact ⟨rfl, hfollows⟩
      | token t =>
        obtain ⟨hresult, hstep⟩ := h.step (t := t)
        obtain ⟨hrest, hfollows⟩ := ih _ hlt hstep.alike _ rfl
        rw [feed_of_token hs, feed_of_token hscan.symm, hresult, hrest]
        exact ⟨rfl, hstep.trans hfollows⟩

theorem parseLine (h : s.Alike s') (text : String) :
    (s.parseLine text).1 = (s'.parseLine text).1 ∧
      Follows s s' (s.parseLine text).2 (s'.parseLine text).2 := by
  unfold Session.parseLine
  rw [h.line]
  obtain ⟨hresult, hgrows, hfeed, hconfig, henv⟩ := h.feed (.ofText s'.line text)
  have hline : (s.feed _).2.line + 1 = (s'.feed _).2.line + 1 := congrArg (· + 1) hfeed.line
  exact ⟨hresult, hgrows, ⟨hfeed.config, hfeed.env, hfeed.state, hline⟩, hconfig, henv⟩

/-! ### The end of a text -/

theorem close (h : s.Alike s') : Follows s s' s.close s'.close := by
  have hstatus := h.state.status
  unfold Session.close
  rw [h.line]
  generalize s.state.status = left, s'.state.status = right at hstatus ⊢
  cases hstatus with
  | parsing => exact h.step.2
  | _ => exact h.refl

end Alike

theorem topValues_alike {T : Twin} {i j : NodeId} (h : T.Alike i j) :
    List.Forall₂ T.Alike (topValues T.left i) (topValues T.right j) := by
  unfold topValues
  have helts := h.forall₂_elts
  generalize T.left.elts i = left, T.right.elts j = right at helts ⊢
  rcases helts with _ | ⟨hexprs, _ | ⟨hx, hrest⟩⟩
  · exact .nil
  · cases hexprs with
    | absent => exact .nil
    | node hi hj hm =>
      simp only [hi, hj]
      cases hm with
      | branch t hes => cases t <;> first | exact hes | exact .nil
      | _ => exact .nil
  · exact .nil

end Session

/-- An outcome with the trees of its nodes. -/
structure Outcome.Trees where
  parsed : Option Tree
  root : Option Tree
  values : List (Option Tree)
  diagnostics : Array Diagnostic

def Outcome.trees (o : Outcome) (p : Pool) : Outcome.Trees :=
  ⟨p.tree? o.parsed, p.tree? o.root, o.values.map p.tree?, o.diagnostics⟩

theorem Outcome.trees_eq {T : Twin} {o o' : Outcome} (hparsed : T.Alike o.parsed o'.parsed)
    (hroot : T.Alike o.root o'.root) (hvalues : List.Forall₂ T.Alike o.values o'.values)
    (hdiagnostics : o.diagnostics = o'.diagnostics) : o.trees T.left = o'.trees T.right := by
  unfold Outcome.trees
  rw [hparsed.tree?_eq, hroot.tree?_eq, Twin.map_tree?_eq hvalues, hdiagnostics]

namespace Session

variable {s s' : Session}

/-- What the end of a text brings, ids and the place of a case apart. -/
def report (r : Except Error Outcome × Session) : Except Error Outcome.Trees :=
  match r with
  | (.ok o, s) => .ok (o.trees s.pool)
  | (.error e, _) => .error e.bare

theorem Alike.finish (h : s.Alike s') :
    report s.finish = report s'.finish ∧ Follows s s' s.finish.2 s'.finish.2 := by
  have hclose := h.close
  have hstate := hclose.alike.state
  have hstatus := hstate.status
  have hfolded (hl : ∀ e, s.close.state.status ≠ .failed e) (hr : ∀ e, s'.close.state.status ≠ .failed e) :
      report s.finish = report s'.finish ∧ Follows s s' s.finish.2 s'.finish.2 := by
    have hfold := Machine.Alike.fold (m := .ofPool s.close.pool s.close.state.env)
      (n := .ofPool s'.close.pool s'.close.state.env) ⟨.empty, hstate.env, rfl⟩ hstate.root
    rw [finish_of_ne_failed hl, finish_of_ne_failed hr]
    unfold Machine.Corresponds at hfold
    split at hfold
    · next root m root' m' hm hm' =>
      obtain ⟨hgrows, -, hroot⟩ := hfold
      simp only [hm, hm']
      refine ⟨?_, hclose.trans ⟨hgrows, ?_, rfl, rfl⟩⟩
      · have hparsed := hstate.root.mono hgrows
        exact congrArg Except.ok
          (Outcome.trees_eq (T := m.twin m') hparsed hroot (topValues_alike hroot) hstate.errors)
      · exact ⟨hclose.alike.config, hclose.alike.env.mono hgrows, hstate.mono hgrows, hclose.alike.line⟩
    · next e m e' m' hm hm' =>
      obtain ⟨hgrows, -, he⟩ := hfold
      simp only [hm, hm']
      refine ⟨congrArg Except.error he, hclose.trans ⟨hgrows, ?_, rfl, rfl⟩⟩
      exact ⟨hclose.alike.config, hclose.alike.env.mono hgrows, hstate.mono hgrows, hclose.alike.line⟩
    · exact hfold.elim
  generalize hl : s.close.state.status = left, hr : s'.close.state.status = right at hstatus
  cases hstatus with
  | parsing => exact hfolded (by simp [hl]) (by simp [hr])
  | complete => exact hfolded (by simp [hl]) (by simp [hr])
  | failed e =>
    rw [finish_of_failed hl, finish_of_failed hr]
    exact ⟨rfl, hclose⟩

end Session

end Linefold
