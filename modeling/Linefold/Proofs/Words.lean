import Linefold.Environment

/-!
# What holds of all words

`Environment.All P`: every name in every scope has a word for which `P` holds. Scopes come and go and
words are replaced, but none is made up, so such a property is kept as long as it holds of the words
that are put in.
-/

namespace Linefold

variable {P Q : String → Word → Prop} {name : String} {w : Word} {l m : Lexicon}

namespace Lexicon

def All (P : String → Word → Prop) (l : Lexicon) : Prop := ∀ nw ∈ l, P nw.1 nw.2

theorem all_nil : All P [] := fun _ h => nomatch h

theorem All.mono (h : All P l) (hPQ : ∀ n w, P n w → Q n w) : All Q l := fun nw hnw => hPQ _ _ (h nw hnw)

theorem All.find? (h : All P l) (hw : l.find? name = some w) : P name w := by
  induction l with
  | nil => cases hw
  | cons nw l ih =>
    obtain ⟨n, v⟩ := nw
    unfold Lexicon.find? at hw
    split at hw
    · next hn =>
      cases hw
      subst hn
      exact h _ (List.mem_cons_self ..)
    · exact ih (fun nw hnw => h nw (List.mem_cons_of_mem _ hnw)) hw

theorem All.insert (h : All P l) (hw : P name w) : All P (l.insert name w) := by
  induction l with
  | nil =>
    rintro _ (_ | ⟨_, ⟨⟩⟩)
    exact hw
  | cons nw l ih =>
    obtain ⟨n, v⟩ := nw
    have htail : All P l := fun nw hnw => h nw (List.mem_cons_of_mem _ hnw)
    unfold Lexicon.insert
    split
    · rintro _ (_ | ⟨_, hmem⟩)
      · exact hw
      · exact htail _ hmem
    · rintro _ (_ | ⟨_, hmem⟩)
      · exact h _ (List.mem_cons_self ..)
      · exact ih htail _ hmem

theorem All.extend (h : All P l) (hm : All P m) : All P (l.extend m) := by
  unfold Lexicon.extend
  induction m generalizing l with
  | nil => exact h
  | cons nw m ih =>
    exact ih (h.insert (hm nw (List.mem_cons_self ..)))
      fun x hx => hm x (List.mem_cons_of_mem _ hx)

end Lexicon

/-! ### Words within words -/

/-- The property holds of the word and, if it is a function, of all words that it carries with it. -/
inductive Word.Throughout (P : String → Word → Prop) : String → Word → Prop where
  | intro {name : String} {w : Word} (self : P name w)
      (carried : w.cls = .function → ∀ c, w.closure = some c → ∀ nw ∈ c.lexicon,
        Throughout P nw.1 nw.2) : Throughout P name w

namespace Word.Throughout

theorem self (h : w.Throughout P name) : P name w := by
  cases h with
  | intro self _ => exact self

theorem lexicon {c : Closure Word} (h : w.Throughout P name) (hw : w.cls = .function)
    (hc : w.closure = some c) : Lexicon.All (Word.Throughout P) c.lexicon := by
  cases h with
  | intro _ carried => exact carried hw c hc

theorem mono (h : w.Throughout P name) (hPQ : ∀ n w, P n w → Q n w) : w.Throughout Q name := by
  induction h with
  | intro self _ ih => exact .intro (hPQ _ _ self) ih

theorem of_ne (hw : w.cls ≠ .function) (h : P name w) : w.Throughout P name :=
  .intro h fun hfunction => absurd hfunction hw

end Word.Throughout

namespace Environment

variable {e : Environment}

structure All (P : String → Word → Prop) (e : Environment) : Prop where
  globals : e.globals.lexicon.All P
  inner : ∀ s ∈ e.inner, s.lexicon.All P

theorem All.mono (h : e.All P) (hPQ : ∀ n w, P n w → Q n w) : e.All Q :=
  ⟨h.globals.mono hPQ, fun s hs => (h.inner s hs).mono hPQ⟩

theorem All.top (h : e.All P) : e.top.lexicon.All P := by
  unfold Environment.top
  cases he : e.inner with
  | nil => exact h.globals
  | cons s inner => exact h.inner s (by simp [he])

theorem All.lookup? (h : e.All P) (hw : e.lookup? name = some w) : P name w := by
  unfold Environment.lookup? at hw
  rcases Option.or_eq_some_iff.1 hw with hw | ⟨-, hw⟩
  · obtain ⟨s, hs, hw⟩ := List.exists_of_findSome?_eq_some hw
    exact (h.inner s hs).find? hw
  · exact h.globals.find? hw

theorem All.bind (h : e.All P) (hw : P name w) : (e.bind name w).All P := by
  unfold Environment.bind Environment.modifyTop
  split
  · exact ⟨h.globals.insert hw, h.inner⟩
  · next s inner hi =>
    refine ⟨h.globals, ?_⟩
    rintro _ (_ | ⟨_, hmem⟩)
    · exact (h.inner s (by simp [hi])).insert hw
    · exact h.inner _ (by rw [hi]; exact .tail _ hmem)

theorem All.bindAt {depth : Nat} (h : e.All P) (hw : P name w) : (e.bindAt depth name w).All P := by
  unfold Environment.bindAt
  split
  · exact ⟨h.globals.insert hw, h.inner⟩
  · split
    · refine ⟨h.globals, fun s hs => ?_⟩
      obtain ⟨i, hi, rfl⟩ := List.getElem_of_mem hs
      rw [List.length_modify] at hi
      have hmem := h.inner e.inner[i] (List.getElem_mem hi)
      rw [List.getElem_modify]
      split
      · exact hmem.insert hw
      · exact hmem
    · exact h

theorem enter_cases (e : Environment) (scope : String) : e.enter scope = .error (.recursion e.limit) ∨
    e.enter scope = .ok { e with inner := ⟨scope, []⟩ :: e.inner } := by
  unfold Environment.enter
  split
  · exact .inl rfl
  · exact .inr rfl

theorem All.enter (h : e.All P) (scope : String) :
    All P { e with inner := ⟨scope, []⟩ :: e.inner } := by
  refine ⟨h.globals, ?_⟩
  rintro _ (_ | ⟨_, hmem⟩)
  · exact Lexicon.all_nil
  · exact h.inner _ hmem

theorem All.exit (h : e.All P) : e.exit.2.All P := by
  unfold Environment.exit
  split
  · exact h
  · next s inner hi => exact ⟨h.globals, fun x hx => h.inner x (by simp [hi, hx])⟩

theorem All.exitTo {depth : Nat} (h : e.All P) : (e.exitTo depth).All P :=
  ⟨h.globals, fun s hs => h.inner s (List.mem_of_mem_drop hs)⟩

theorem All.extend (h : e.All P) (hl : l.All P) : (e.extend l).All P := by
  unfold Environment.extend Environment.modifyTop
  split
  · exact ⟨h.globals.extend hl, h.inner⟩
  · next s inner hi =>
    refine ⟨h.globals, ?_⟩
    rintro _ (_ | ⟨_, hmem⟩)
    · exact (h.inner s (by simp [hi])).extend hl
    · exact h.inner _ (by rw [hi]; exact .tail _ hmem)

theorem All.bindAll {ws : List Word} (h : e.All P) (hws : ∀ w ∈ ws, P w.name w) :
    (ws.foldl (fun env w => env.bind w.name w) e).All P := by
  induction ws generalizing e with
  | nil => exact h
  | cons w ws ih =>
    exact ih (h.bind (hws w (List.mem_cons_self ..))) fun x hx => hws x (List.mem_cons_of_mem _ hx)

theorem all_operatorLexicon {words : List (String × Tag)}
    (h : ∀ w ∈ words, P w.1 (.operator w.1 w.2)) : (operatorLexicon words).All P := by
  unfold operatorLexicon
  exact List.foldlRecOn words _ Lexicon.all_nil fun l hl w hw => hl.insert (h w hw)

/-- The first environment has operator words only. -/
theorem all_initial (h : ∀ w ∈ operatorWords, P w.1 (.operator w.1 w.2)) : initial.All P :=
  ⟨all_operatorLexicon h, fun _ hs => nomatch hs⟩

theorem isOperator_of_operatorTag? {tagName : String} {tag : Tag}
    (h : operatorTag? tagName = some tag) : tag.isOperator :=
  (Option.filter_eq_some_iff.1 h).2

theorem All.addOperators {e' : Environment} {words : List (String × String)} (h : e.All P)
    (hP : ∀ n t, t.isOperator → P n (.operator n t)) (he : e.addOperators words = .ok e') :
    e'.All P ∧ e'.inner = e.inner := by
  induction words generalizing e with
  | nil =>
    cases he
    exact ⟨h, rfl⟩
  | cons w words ih =>
    unfold Environment.addOperators at he
    split at he
    · next t ht =>
      have hword := hP w.1 t (isOperator_of_operatorTag? ht)
      exact ih (e := { e with globals := e.globals.bind w.1 (.operator w.1 t) })
        ⟨h.globals.insert hword, h.inner⟩ he
    · cases he

/-- A configured environment has words of binary operators only. -/
theorem all_of_ofConfig {config : Config} (hP : ∀ n t, t.isOperator → P n (.operator n t))
    (he : ofConfig config = .ok e) : e.All P ∧ e.inner = [] := by
  have hwords : ∀ w ∈ operatorWords, w.2.isOperator := by decide
  have hinitial : initial.All P := all_initial fun w hw => hP w.1 w.2 (hwords w hw)
  exact All.addOperators (e := { initial with limit := config.recursionLimit })
    ⟨hinitial.globals, hinitial.inner⟩ hP he

/-! ### The number of scopes -/

theorem exit_of_length_inner {n : Nat} (h : e.inner.length = n + 1) :
    ∃ scope inner, e.inner = scope :: inner ∧ e.exit = (some scope, { e with inner }) := by
  unfold Environment.exit
  cases hi : e.inner with
  | nil =>
    rw [hi] at h
    cases h
  | cons scope inner => exact ⟨scope, inner, rfl, rfl⟩

@[simp] theorem length_inner_modifyTop {f : Scope → Scope} :
    (e.modifyTop f).inner.length = e.inner.length := by
  unfold Environment.modifyTop
  split
  · rfl
  · next s inner hi => simp [hi]

@[simp] theorem length_inner_bind : (e.bind name w).inner.length = e.inner.length :=
  length_inner_modifyTop

@[simp] theorem length_inner_bindAt {depth : Nat} :
    (e.bindAt depth name w).inner.length = e.inner.length := by
  unfold Environment.bindAt
  split
  · rfl
  · split
    · exact List.length_modify ..
    · rfl

end Environment

end Linefold
