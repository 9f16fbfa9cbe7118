import Linefold.Environment
import Linefold.Proofs.Twins.Alike

/-!
# Environments over two pools

Two environments are alike if they have the same scopes with the same names, whose words differ in
nothing but the ids of their nodes, and there only as pools may differ. Every operation on environments
keeps them alike, and whatever of an environment is no id is the same in both.
-/

namespace Linefold

/-! ### Words -/

/-- Words that are alike, closures apart. -/
structure Word.HeadAlike (T : Twin) (w v : Word) : Prop where
  cls : w.cls = v.cls
  name : w.name = v.name
  offset : w.offset = v.offset
  nid : T.Alike w.nid v.nid
  arity : w.arity = v.arity
  patterns : List.Forall₂ T.Alike w.patterns v.patterns

mutual

inductive Word.Alike (T : Twin) : Word → Word → Prop where
  | intro {w v : Word} (head : w.HeadAlike T v) (closure : Word.ClosureAlike T w.closure v.closure) :
      Word.Alike T w v

inductive Word.ClosureAlike (T : Twin) : Option (Closure Word) → Option (Closure Word) → Prop where
  | none : Word.ClosureAlike T none none
  | some {c d : Closure Word} (lexicon : Lexicon.Alike T c.lexicon d.lexicon) (params : c.params = d.params)
      (pattern : List.Forall₂ T.Alike c.pattern d.pattern) : Word.ClosureAlike T (some c) (some d)

inductive Lexicon.Alike (T : Twin) : Lexicon → Lexicon → Prop where
  | nil : Lexicon.Alike T [] []
  | cons {name : String} {w v : Word} {l m : Lexicon} (word : Word.Alike T w v)
      (rest : Lexicon.Alike T l m) : Lexicon.Alike T ((name, w) :: l) ((name, v) :: m)

end

section

variable {T U : Twin} {w v : Word} {l m : Lexicon} {name : String}

theorem Word.HeadAlike.mono (h : w.HeadAlike T v) (hTU : T.Grows U) : w.HeadAlike U v :=
  { h with nid := h.nid.mono hTU, patterns := Twin.forall₂_mono h.patterns hTU }

mutual

theorem Word.Alike.mono (hTU : T.Grows U) : ∀ {w v : Word}, w.Alike T v → w.Alike U v
  | _, _, .intro head closure => .intro (head.mono hTU) (Word.ClosureAlike.mono hTU closure)

theorem Word.ClosureAlike.mono (hTU : T.Grows U) :
    ∀ {c d : Option (Closure Word)}, Word.ClosureAlike T c d → Word.ClosureAlike U c d
  | _, _, .none => .none
  | _, _, .some lexicon params pattern =>
    .some (Lexicon.Alike.mono hTU lexicon) params (Twin.forall₂_mono pattern hTU)

theorem Lexicon.Alike.mono (hTU : T.Grows U) : ∀ {l m : Lexicon}, l.Alike T m → l.Alike U m
  | _, _, .nil => .nil
  | _, _, .cons word rest => .cons (Word.Alike.mono hTU word) (Lexicon.Alike.mono hTU rest)

end

theorem Word.Alike.head (h : w.Alike T v) : w.HeadAlike T v := by
  cases h with
  | intro head _ => exact head

theorem Word.Alike.closure (h : w.Alike T v) : Word.ClosureAlike T w.closure v.closure := by
  cases h with
  | intro _ closure => exact closure

/-- A word without nodes. -/
theorem Word.alike_plain (hnid : w.nid = 0) (hclosure : w.closure = none)
    (hpatterns : w.patterns = []) : w.Alike T w := by
  refine .intro ⟨rfl, rfl, rfl, ?_, rfl, ?_⟩ ?_
  · rw [hnid]
    exact .absent
  · rw [hpatterns]
    exact .nil
  · rw [hclosure]
    exact .none

/-- A name that stands for a node. -/
theorem Word.alike_value {i j : NodeId} {offset : Nat} (h : T.Alike i j) :
    Word.Alike T { Word.value name offset with nid := i } { Word.value name offset with nid := j } :=
  .intro ⟨rfl, rfl, rfl, h, rfl, .nil⟩ .none

/-! ### Lexicons -/

namespace Lexicon.Alike

theorem find? (h : l.Alike T m) : Option.Rel (Word.Alike T) (l.find? name) (m.find? name) := by
  induction l generalizing m with
  | nil =>
    cases h
    exact .none
  | cons _ l ih =>
    cases h with
    | cons word rest =>
      unfold Lexicon.find?
      split
      · exact .some word
      · exact ih rest

theorem insert (h : l.Alike T m) (hw : w.Alike T v) : (l.insert name w).Alike T (m.insert name v) := by
  induction l generalizing m with
  | nil =>
    cases h
    exact .cons hw .nil
  | cons _ l ih =>
    cases h with
    | cons word rest =>
      unfold Lexicon.insert
      split
      · exact .cons hw rest
      · exact .cons word (ih rest)

theorem extend {l' m' : Lexicon} (h : l.Alike T m) (h' : l'.Alike T m') :
    (l.extend l').Alike T (m.extend m') := by
  induction l' generalizing l m m' with
  | nil =>
    cases h'
    exact h
  | cons _ l' ih =>
    cases h' with
    | @cons n w v _ m' word rest =>
      show Lexicon.Alike T ((l.insert n w).extend l') ((m.insert n v).extend m')
      exact ih (h.insert word) rest

/-- What the order of parameters depends on. -/
theorem values_eq (h : l.Alike T m) :
    ((l.map Prod.snd).filter Word.isValue).map (fun w => (w.offset, w.name)) =
      ((m.map Prod.snd).filter Word.isValue).map fun w => (w.offset, w.name) := by
  induction l generalizing m with
  | nil =>
    cases h
    rfl
  | cons _ l ih =>
    cases h with
    | @cons _ w v _ _ word rest =>
      have hvalue : w.isValue = v.isValue := by rw [Word.isValue, Word.isValue, word.head.cls]
      simp only [List.map_cons, List.filter_cons, hvalue]
      split
      · rw [List.map_cons, List.map_cons, ih rest, word.head.offset, word.head.name]
      · exact ih rest

theorem params_eq (h : l.Alike T m) : l.params = m.params := by
  have hsort (l : List Word) : (l.mergeSort fun v w => v.offset ≤ w.offset).map Word.name =
      ((l.map fun w => (w.offset, w.name)).mergeSort fun a b => a.1 ≤ b.1).map Prod.snd := by
    rw [← List.map_mergeSort (r := fun v w : Word => v.offset ≤ w.offset) (by simp), List.map_map]
    rfl
  show List.map Word.name _ = List.map Word.name _
  rw [hsort, hsort, h.values_eq]

end Lexicon.Alike

end

/-! ### Scopes -/

structure Scope.Alike (T : Twin) (s t : Scope) : Prop where
  name : s.name = t.name
  lexicon : s.lexicon.Alike T t.lexicon

structure Environment.Alike (T : Twin) (e f : Environment) : Prop where
  inner : List.Forall₂ (Scope.Alike T) e.inner f.inner
  globals : e.globals.Alike T f.globals
  limit : e.limit = f.limit

section

variable {T U : Twin} {w v : Word} {l m : Lexicon} {name : String} {s t : Scope} {e f : Environment}
  {depth : Nat}

namespace Scope.Alike

theorem mono (h : s.Alike T t) (hTU : T.Grows U) : s.Alike U t := ⟨h.name, h.lexicon.mono hTU⟩

theorem get? (h : s.Alike T t) : Option.Rel (Word.Alike T) (s.get? name) (t.get? name) :=
  h.lexicon.find?

theorem bind (h : s.Alike T t) (hw : w.Alike T v) : (s.bind name w).Alike T (t.bind name v) :=
  ⟨h.name, h.lexicon.insert hw⟩

theorem params_eq (h : s.Alike T t) : s.params = t.params := h.lexicon.params_eq

theorem operator?_eq (h : s.Alike T t) : s.operator? name = t.operator? name := by
  unfold Scope.operator?
  have hget : Option.Rel _ (s.get? name) (t.get? name) := h.get?
  generalize s.get? name = left, t.get? name = right at hget ⊢
  cases hget with
  | none => rfl
  | @some w v hw =>
    obtain ⟨c⟩ := w
    obtain ⟨d⟩ := v
    obtain rfl : c = d := hw.head.cls
    cases c <;> rfl

end Scope.Alike

namespace Environment.Alike

theorem mono (h : e.Alike T f) (hTU : T.Grows U) : e.Alike U f :=
  ⟨h.inner.imp fun _ _ h => h.mono hTU, h.globals.mono hTU, h.limit⟩

theorem depth_eq (h : e.Alike T f) : e.depth = f.depth := by
  unfold Environment.depth
  rw [h.inner.length_eq]

theorem top (h : e.Alike T f) : e.top.Alike T f.top := by
  unfold Environment.top
  have hinner := h.inner
  generalize e.inner = left, f.inner = right at hinner ⊢
  cases hinner with
  | nil => exact h.globals
  | cons hs _ => exact hs

theorem modifyTop (h : e.Alike T f) {g k : Scope → Scope}
    (hgk : ∀ s t : Scope, s.Alike T t → (g s).Alike T (k t)) : (e.modifyTop g).Alike T (f.modifyTop k) := by
  obtain ⟨inner, globals, limit⟩ := e
  obtain ⟨inner', globals', limit'⟩ := f
  obtain ⟨hinner, hglobals, hlimit⟩ := h
  cases hinner with
  | nil => exact ⟨.nil, hgk _ _ hglobals, hlimit⟩
  | cons hs hinner => exact ⟨.cons (hgk _ _ hs) hinner, hglobals, hlimit⟩

theorem bind (h : e.Alike T f) (hw : w.Alike T v) : (e.bind name w).Alike T (f.bind name v) :=
  h.modifyTop fun _ _ hs => hs.bind hw

theorem extend (h : e.Alike T f) (hl : l.Alike T m) : (e.extend l).Alike T (f.extend m) :=
  h.modifyTop fun _ _ hs => ⟨hs.name, hs.lexicon.extend hl⟩

theorem bindAll {ws vs : List Word} (h : e.Alike T f) (hws : List.Forall₂ (Word.Alike T) ws vs) :
    (ws.foldl (fun env w => env.bind w.name w) e).Alike T
      (vs.foldl (fun env w => env.bind w.name w) f) := by
  induction hws generalizing e f with
  | nil => exact h
  | cons hw _ ih =>
    rw [List.foldl_cons, List.foldl_cons, hw.head.name]
    exact ih (h.bind hw)

theorem forall₂_modify {i : Nat} {ss ts : List Scope} {g k : Scope → Scope}
    (h : List.Forall₂ (Scope.Alike T) ss ts)
    (hgk : ∀ s t : Scope, s.Alike T t → (g s).Alike T (k t)) :
    List.Forall₂ (Scope.Alike T) (ss.modify i g) (ts.modify i k) := by
  induction h generalizing i with
  | nil => cases i <;> exact .nil
  | cons hs hrest ih =>
    cases i with
    | zero => exact .cons (hgk _ _ hs) hrest
    | succ i => exact .cons hs ih

theorem bindAt (h : e.Alike T f) (hw : w.Alike T v) :
    (e.bindAt depth name w).Alike T (f.bindAt depth name v) := by
  have hbind : ∀ s t : Scope, s.Alike T t → (s.bind name w).Alike T (t.bind name v) :=
    fun _ _ hs => hs.bind hw
  unfold Environment.bindAt
  rw [h.inner.length_eq]
  split
  · exact ⟨h.inner, hbind _ _ h.globals, h.limit⟩
  · split
    · exact ⟨forall₂_modify h.inner hbind, h.globals, h.limit⟩
    · exact h

theorem enter (h : e.Alike T f) (scope : String) :
    (e.enter scope = .error (.recursion e.limit) ∧ f.enter scope = .error (.recursion e.limit)) ∨
      ∃ e' f', e.enter scope = .ok e' ∧ f.enter scope = .ok f' ∧ e'.Alike T f' := by
  unfold Environment.enter
  rw [h.depth_eq, ← h.limit]
  split
  · exact .inl ⟨rfl, rfl⟩
  · exact .inr ⟨_, _, rfl, rfl, .cons ⟨rfl, .nil⟩ h.inner, h.globals, rfl⟩

theorem exit (h : e.Alike T f) :
    Option.Rel (Scope.Alike T) e.exit.1 f.exit.1 ∧ e.exit.2.Alike T f.exit.2 := by
  obtain ⟨inner, globals, limit⟩ := e
  obtain ⟨inner', globals', limit'⟩ := f
  obtain ⟨hinner, hglobals, hlimit⟩ := h
  cases hinner with
  | nil => exact ⟨.none, .nil, hglobals, hlimit⟩
  | cons hs hinner => exact ⟨.some hs, hinner, hglobals, hlimit⟩

theorem exitTo (h : e.Alike T f) : (e.exitTo depth).Alike T (f.exitTo depth) := by
  refine ⟨?_, h.globals, h.limit⟩
  show List.Forall₂ _ (e.inner.drop _) (f.inner.drop _)
  rw [h.depth_eq]
  exact List.forall₂_drop _ h.inner

theorem lookup? (h : e.Alike T f) :
    Option.Rel (Word.Alike T) (e.lookup? name) (f.lookup? name) := by
  unfold Environment.lookup?
  have hinner := h.inner
  generalize e.inner = left, f.inner = right at hinner ⊢
  induction hinner with
  | nil => exact h.globals.get?
  | @cons s t _ _ hs _ ih =>
    have hget : Option.Rel _ (s.get? name) (t.get? name) := hs.get?
    rw [List.findSome?_cons, List.findSome?_cons]
    generalize s.get? name = found, t.get? name = found' at hget ⊢
    cases hget with
    | none => exact ih
    | some hw => exact .some hw

end Environment.Alike

end

end Linefold
