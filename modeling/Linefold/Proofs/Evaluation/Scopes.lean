import Linefold.Proofs.Evaluation.Evaluator
import Linefold.Proofs.Folding.Steps

/-!
# Scopes that are entered

What a fold needs to know of the words that it finds: that none of an operator names a node
(`Environment.Unnamed`). Binding parameters adds no names to the pool and value words to the scope, so it
stays so in every scope that is entered.
-/

namespace Linefold

attribute [local irreducible] Pool.intern

/-! ### Words that name no node -/

/-- A word of an operator does not name a node. -/
def Word.Unnamed (p : Pool) (name : String) (w : Word) : Prop :=
  ∀ t, w.cls = .operator t → ∀ id, p.get? id ≠ some (.ident name)

theorem Word.Unnamed.mono {p q : Pool} {name : String} {w : Word} (h : w.Unnamed p name)
    (hpq : p.Grows q) : w.Unnamed q name := by
  intro t ht id hid
  obtain ⟨id, hid⟩ := hpq.names _ _ hid
  exact h t ht id hid

theorem Word.Usable.unnamed {p : Pool} {name : String} {w : Word} (h : w.Usable p name) :
    w.Throughout (Word.Unnamed p) name := by
  induction h with
  | operator hcls hname => exact .of_ne (by simp [hcls]) fun _ _ => hname
  | operand hcls _ _ _ ih => exact .intro (fun t ht => absurd ht (hcls t)) fun _ => ih

/-- No operator word of the environment is the name of a node. -/
def Environment.Unnamed (e : Environment) (p : Pool) : Prop := e.All (Word.Throughout (Word.Unnamed p))

theorem Environment.Unnamed.mono {e : Environment} {p q : Pool} (h : e.Unnamed p) (hpq : p.Grows q) :
    e.Unnamed q :=
  All.mono h fun _ _ h => h.mono fun _ _ h => h.mono hpq

theorem WellFormed.unnamed {p : Pool} {e : Environment} (h : WellFormed p e) : e.Unnamed p :=
  h.words.mono fun _ _ h => h.unnamed

/-! ### Scopes -/

/-- The scope that an environment is opened with. -/
def Scope.opening (name : String) (lexicon : Lexicon) (words : List Word) : Scope :=
  words.foldl (fun sc w => sc.bind w.name w) ⟨name, Lexicon.extend [] lexicon⟩

theorem Environment.opened_eq (e : Environment) (name : String) (lexicon : Lexicon) (words : List Word) :
    e.opened name lexicon words = { e with inner := .opening name lexicon words :: e.inner } := by
  have hbindAll (words : List Word) (sc : Scope) :
      words.foldl (fun e w => e.bind w.name w) { e with inner := sc :: e.inner } =
        { e with inner := words.foldl (fun sc w => sc.bind w.name w) sc :: e.inner } := by
    induction words generalizing sc with
    | nil => rfl
    | cons w words ih => exact ih (sc.bind w.name w)
  exact hbindAll words _

theorem Environment.All.opened {e : Environment} {P : String → Word → Prop} {lexicon : Lexicon}
    {words : List Word} (h : e.All P) (name : String) (hlexicon : lexicon.All P)
    (hwords : ∀ w ∈ words, P w.name w) : (e.opened name lexicon words).All P :=
  ((h.enter name).extend hlexicon).bindAll hwords

namespace Machine

theorem entering_of_lt {v : Values} {e : Environment} {b : Nat} {name : String} {lexicon : Lexicon}
    {words : List Word} {tasks : List Task} (h : e.limit < e.depth) :
    entering ⟨v, e, b⟩ name lexicon words tasks = .error (.recursion e.limit) ⟨v, e, b⟩ := by
  simp only [entering, Environment.enter, if_pos h]

theorem entering_of_not_lt {v : Values} {e : Environment} {b : Nat} {name : String} {lexicon : Lexicon}
    {words : List Word} {tasks : List Task} (h : ¬ e.limit < e.depth) :
    entering ⟨v, e, b⟩ name lexicon words tasks = .ok tasks ⟨v, e.opened name lexicon words, b⟩ := by
  simp only [entering, Environment.enter, if_neg h]
  rfl

end Machine

/-! ### Bindings -/

namespace Pattern

/-- The computation adds no names to the pool, and what it gives has the property. -/
def Adds {α : Type} (f : PoolM α) (P : α → Prop) : Prop :=
  ∀ p, Ensures f (fun a q => p.Grows q ∧ P a) (fun _ _ => True) p

section

variable {α β : Type} {f : PoolM α} {g : α → PoolM β} {P Q : α → Prop} {R : β → Prop} {n : Node}

theorem adds_pure {a : α} (h : P a) : Adds (pure a) P := fun p => ⟨.refl p, h⟩

theorem adds_throw {e : Error} : Adds (throw e) P := fun _ => trivial

theorem Adds.bind (hf : Adds f P) (hg : ∀ a, P a → Adds (g a) R) : Adds (f >>= g) R := by
  intro p
  refine Ensures.bind_iff.2 ((hf p).mono ?_ fun _ _ h => h)
  rintro a q ⟨hpq, ha⟩
  exact (hg a ha q).mono (fun _ _ h => ⟨hpq.trans h.1, h.2⟩) fun _ _ h => h

theorem adds_get : Adds (get : PoolM Pool) fun _ => True := fun p => ⟨.refl p, trivial⟩

theorem adds_intern (hn : n.tag ≠ .ident) : Adds (PoolM.intern n) fun _ => True :=
  fun p => ⟨p.grows_intern hn, trivial⟩

theorem adds_listItems? {value : NodeId} : Adds (PoolM.listItems? value) fun _ => True :=
  fun p => ⟨.refl p, trivial⟩

end

mutual

/-- The names that a pattern binds, in source order. -/
def idents : Pattern → List String
  | name _ s => [s]
  | list ps => identsOfAll ps
  | faulty _ => []

def identsOfAll : List Pattern → List String
  | [] => []
  | p :: ps => idents p ++ identsOfAll ps

end

/-- All words are values. -/
def AllValues (ws : List Word) : Prop := ∀ w ∈ ws, w.cls = .value

/-- The words are values for the names. -/
def ValuesFor (names : List String) (ws : List Word) : Prop := AllValues ws ∧ ws.map Word.name = names

theorem ValuesFor.append {ss ts : List String} {ws vs : List Word} (hws : ValuesFor ss ws)
    (hvs : ValuesFor ts vs) : ValuesFor (ss ++ ts) (ws ++ vs) := by
  refine ⟨fun w hw => (List.mem_append.1 hw).elim (hws.1 w) (hvs.1 w), ?_⟩
  rw [List.map_append, hws.2, hvs.2]

theorem adds_projection {i value : Nat} : Adds (projection i value) fun _ => True :=
  (adds_intern (by simp [Node.tag])).bind fun _ _ => adds_intern (by simp [Node.tag])

theorem adds_append {f g : PoolM (List Word)} {ss ts : List String} (hf : Adds f (ValuesFor ss))
    (hg : Adds g (ValuesFor ts)) : Adds (do return (← f) ++ (← g)) (ValuesFor (ss ++ ts)) :=
  hf.bind fun _ hws => hg.bind fun _ hvs => adds_pure (hws.append hvs)

mutual

theorem adds_words (value : NodeId) (i : Nat) : ∀ x : Pattern, Adds (words value i x) (ValuesFor x.idents)
  | .name _ _ => adds_pure ⟨by simp [AllValues, Word.value], rfl⟩
  | .list ps => adds_listItems?.bind fun items _ =>
    match items with
    | none => adds_wordsOfParts value 0 ps
    | some items => adds_wordsOfItems items 0 ps
  | .faulty _ => adds_throw

theorem adds_wordsOfItems (items : List NodeId) (i : Nat) :
    ∀ ps : List Pattern, Adds (wordsOfItems items i ps) (ValuesFor (identsOfAll ps))
  | [] => adds_pure ⟨(fun _ h => nomatch h), rfl⟩
  | x :: ps => adds_append (adds_words _ i x) (adds_wordsOfItems items.tail (i + 1) ps)

theorem adds_wordsOfParts (value : NodeId) (i : Nat) :
    ∀ ps : List Pattern, Adds (wordsOfParts value i ps) (ValuesFor (identsOfAll ps))
  | [] => adds_pure ⟨(fun _ h => nomatch h), rfl⟩
  | x :: ps => adds_projection.bind fun part _ =>
    adds_append (adds_words part i x) (adds_wordsOfParts value (i + 1) ps)

end

end Pattern

/-! ### Parameters -/

namespace Pattern

section

variable {p : Pool} {arg c : NodeId} {args cs es items : List NodeId} {x : String} {i : Nat}

theorem get_bind {α : Type} (k : Pool → PoolM α) : (get >>= k) p = k p p := rfl

/-- A parameter that is a name takes any argument. -/
theorem bindAll_cons_name (hc : p.get? c = some (.ident x)) : bindAll args i (c :: cs) p = (do
    let rest ← bindAll args.tail (i + 1) cs
    return ⟨{ Word.value x i with nid := args.head?.getD 0 } :: rest.words, rest.late⟩ : PoolM Binding) p := by
  have htag : p.tag? c = some .ident := by rw [Pool.tag?, hc]; rfl
  have hlate : decide (some Tag.ident = some Tag.list) = false := rfl
  rw [bindAll, get_bind]
  simp only [htag, hlate, Bool.and_false, Bool.false_and, Bool.false_eq_true, ↓reduceIte, pure_bind,
    Pool.pattern_of_ident hc, words, Bool.false_or]
  rfl

/-- A literal list is taken as it is. -/
theorem bindAll_cons_items (hitems : p.listItems? arg = some items) :
    bindAll (arg :: args) i (c :: cs) p = (do
      let ws ← words arg i (p.pattern c)
      let rest ← bindAll args (i + 1) cs
      return ⟨ws ++ rest.words, rest.late⟩ : PoolM Binding) p := by
  rw [bindAll, get_bind]
  simp only [List.head?_cons, Option.getD_some, List.tail_cons, hitems, Option.isNone_some, Bool.and_false, Bool.false_eq_true,
    ↓reduceIte, pure_bind, Bool.false_or]

/-- A list pattern takes an argument that is no literal list by its position. -/
theorem bindAll_cons_late (hc : p.get? c = some (.branch .list es)) (harg : arg ≠ 0) (hitems : p.listItems? arg = none) :
    bindAll (arg :: args) i (c :: cs) p = (do
      let source ← (do PoolM.intern (.branch .arg [← PoolM.intern (.num (.ofInt i))]))
      let ws ← words source i (p.pattern c)
      let rest ← bindAll args (i + 1) cs
      return ⟨ws ++ rest.words, true⟩ : PoolM Binding) p := by
  have htag : p.tag? c = some .list := by rw [Pool.tag?, hc]; rfl
  rw [bindAll, get_bind]
  simp only [List.head?_cons, Option.getD_some, List.tail_cons, hitems, htag, Option.isNone_none, ne_eq, harg, not_false_eq_true,
    decide_true, Bool.and_true, ↓reduceIte, bind_assoc, Bool.true_or]

end

end Pattern

/-- The names that parameters bind, in source order. -/
def Pool.params (p : Pool) (patterns : List NodeId) : List String :=
  Pattern.identsOfAll (patterns.map p.pattern)

theorem Pool.Extends.pattern_eq {p q : Pool} {id : NodeId} (hpq : p.Extends q) (hid : id ≤ p.size) :
    q.pattern id = p.pattern id := by
  induction id using Nat.strongRecOn with
  | ind id ih =>
    have hget := hpq.get?_eq hid
    cases hn : p.get? id with
    | none => rw [pattern_of_none hn, pattern_of_none (hget.trans hn)]
    | some n =>
      have hn' := hget.trans hn
      by_cases hname : ∃ s, n = .ident s
      · obtain ⟨s, rfl⟩ := hname
        rw [pattern_of_ident hn, pattern_of_ident hn']
      · by_cases hlist : ∃ es, n = .branch .list es
        · obtain ⟨es, rfl⟩ := hlist
          rw [pattern_of_list hn, pattern_of_list hn']
          refine congrArg _ (List.map_congr_left fun c hc => ?_)
          have hlt := lt_of_get?_branch hn hc
          exact ih c hlt (Nat.le_trans (Nat.le_of_lt hlt) hid)
        · rw [pattern_of_ne hn (not_exists.1 hname) (not_exists.1 hlist),
            pattern_of_ne hn' (not_exists.1 hname) (not_exists.1 hlist)]

namespace Pattern

/-- Binding parameters adds no names to the pool, and gives values to the parameters' names. -/
theorem ensures_bindAll {p₀ p : Pool} {patterns : List NodeId} (args : List NodeId) (i : Nat)
    (hp : p₀.Extends p) : Ensures (bindAll args i patterns) (fun bound q => p.Grows q ∧
      AllValues bound.words ∧
        ((∀ id ∈ patterns, id ≤ p₀.size) → bound.words.map Word.name = p₀.params patterns))
      (fun _ _ => True) p := by
  induction patterns generalizing args i p with
  | nil => exact ⟨.refl p, (fun _ h => nomatch h), fun _ => rfl⟩
  | cons pattern patterns ih =>
    unfold bindAll
    refine Ensures.bind_iff.2 (.of_ok rfl ?_)
    extract_lets arg late shape jp
    have hrest : ∀ source q, p.Grows q → Ensures (jp source) (fun bound r => p.Grows r ∧
        AllValues bound.words ∧ ((∀ id ∈ pattern :: patterns, id ≤ p₀.size) →
          bound.words.map Word.name = p₀.params (pattern :: patterns))) (fun _ _ => True) q := by
      intro source q hpq
      refine Ensures.bind_iff.2 ((adds_words source i shape q).mono ?_ fun _ _ h => h)
      rintro ws r ⟨hqr, hvalues, hnames⟩
      have hpr := hpq.trans hqr
      refine Ensures.bind_iff.2 ((ih args.tail (i + 1) (hp.trans hpr.keeps)).mono ?_ fun _ _ h => h)
      rintro bound u ⟨hru, hvalues', hnames'⟩
      refine ⟨hpr.trans hru, fun w hw => (List.mem_append.1 hw).elim (hvalues w) (hvalues' w), fun hle => ?_⟩
      obtain ⟨hpattern, hpatterns⟩ := List.forall_mem_cons.1 hle
      rw [List.map_append, hnames, hnames' hpatterns]
      show (p.pattern pattern).idents ++ _ = (p₀.pattern pattern).idents ++ _
      rw [hp.pattern_eq hpattern]
      rfl
    split
    · have hindex := p.grows_intern (n := .num (.ofInt i)) (by simp [Node.tag])
      refine Ensures.bind_iff.2 (.of_ok rfl (Ensures.bind_iff.2 (.of_ok rfl (hrest _ _ ?_))))
      exact hindex.trans (Pool.grows_intern (by simp [Node.tag]))
    · exact hrest arg p (.refl p)

theorem adds_bindAll (args : List NodeId) (i : Nat) (patterns : List NodeId) :
    Adds (bindAll args i patterns) fun bound => AllValues bound.words :=
  fun p => (ensures_bindAll args i (.refl p)).mono (fun _ _ h => ⟨h.1, h.2.1⟩) fun _ _ h => h

theorem adds_lambdaParts (patterns : List NodeId) : Adds (lambdaParts patterns) fun _ => True := by
  unfold lambdaParts
  refine adds_get.bind fun p _ => ?_
  split
  · exact adds_throw
  · refine (adds_intern (by simp [Node.tag])).bind fun names _ => ?_
    exact (adds_intern (by simp [Node.tag])).bind fun pattern _ => adds_pure trivial

end Pattern

theorem Environment.Unnamed.opened {e : Environment} {p : Pool} {lexicon : Lexicon} {words : List Word}
    (he : e.Unnamed p) (name : String) (hlexicon : lexicon.All (Word.Throughout (Word.Unnamed p)))
    (hwords : Pattern.AllValues words) : (e.opened name lexicon words).Unnamed p := by
  refine All.opened he name hlexicon fun w hw => ?_
  have hcls := hwords w hw
  exact .of_ne (by simp [hcls]) fun t ht => nomatch hcls.symm.trans ht

end Linefold
