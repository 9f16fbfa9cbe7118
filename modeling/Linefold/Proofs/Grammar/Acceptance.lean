import Linefold.Proofs.Grammar.Ending
import Linefold.Proofs.Grammar.Recognition

/-!
# The parser accepts its grammar

The positions of a parse are the derivative of the grammar by the tokens so far: `step_expected` is the
step, `run_expected` the run. That every stack of positions can be left (`exists_expects`) turns this
into the statement about prefixes of sentences, `run_initial`.
-/

namespace Linefold

variable {t : Token} {K : List Cont} {o : Bool} {w : List TokenKind}

/-- The kinds begin a sentence of the grammar. -/
def Viable (apart : Category) (w : List TokenKind) : Prop :=
  ∃ rest, Phrase apart .program (w ++ rest) []

/-! ### One token -/

/-- What is left after a token was offered to a stack of positions agrees with the grammar. -/
def AdvanceFollows (t : Token) (K : List Cont) (o : Bool) : Advance → Prop
  | .taken _ next => Nested next ∧ ∀ w, Expects K o (t.kind :: w) ↔ Expects next false w
  | .finished _ => t.kind = .eof ∧ ∀ w, Expects K o (t.kind :: w) ↔ w = []

/-- The token is handed on until a position takes it; each time the positions below expect the same
with it still to come. -/
theorem advance_follows (hK : Nested K) (ho : o = true → t.kind.startsExpr = false) (s : Parsed) :
    Ensures (advance t K) (fun a _ => AdvanceFollows t K o a) (fun e _ => Refuses t K o e) s := by
  induction K generalizing o s with
  | nil => cases hK
  | cons c K ih =>
    unfold advance
    rw [Ensures.bind_iff]
    refine (agrees_offer hK ho s).mono ?_ fun _ _ he => he
    intro a s ha
    cases a with
    | taken cls next => exact ha
    | finished root => exact ha
    | declined =>
      obtain ⟨-, hN, o', ho', heq⟩ := ha
      refine (ih hN ho' s).mono ?_ fun _ _ he => he.congr heq
      intro a _ h
      cases a with
      | taken cls next => exact ⟨h.1, fun w => (heq w).trans (h.2 w)⟩
      | finished root => exact ⟨h.1, fun w => (heq w).trans (h.2 w)⟩

theorem expects_iff_of_isReduction {c : Cont} (hc : c.isReduction) :
    Expects (c :: K) o w ↔ Expects K o w := by
  cases c with
  | letBody | negate | ofEnd => exact Iff.rfl
  | _ => cases hc

/-- Positions that need no token expect what the positions below them expect. -/
theorem settle_expects (hK : Nested K) (s : Parsed) :
    Ensures (settle K) (fun K' _ => Nested K' ∧ ∀ w, Expects K false w ↔ Expects K' false w)
      (fun e _ => e.isStop) s := by
  induction K generalizing s with
  | nil => cases hK
  | cons c K ih =>
    unfold settle
    split
    · next hc =>
      rw [Ensures.bind_iff]
      refine (c.neverSyntax_reduce s).mono ?_ fun _ _ he => he
      intro _ s _
      have hN : Nested K := by
        refine Stacked.nested hK fun h => ?_
        obtain rfl := Cont.eq_program_of_beneath h
        cases hc
      refine (ih hN s).mono ?_ fun _ _ he => he
      rintro K' _ ⟨hN, heq⟩
      exact ⟨hN, fun w => (expects_iff_of_isReduction hc).trans (heq w)⟩
    · exact ⟨hK, fun _ => Iff.rfl⟩

theorem consume_follows (hK : Nested K) (s : Parsed) :
    Ensures (ParseState.consume t K) (fun a _ => AdvanceFollows t K false a)
      (fun e _ => Refuses t K false e) s := by
  unfold ParseState.consume
  rw [Ensures.bind_iff]
  refine (advance_follows hK (by simp) s).mono ?_ fun _ _ he => he
  intro a s ha
  cases a with
  | finished root => exact ha
  | taken cls next =>
    obtain ⟨hN, heq⟩ := ha
    refine Ensures.bind_iff.2 ((settle_expects hN s).mono ?_ fun _ _ he => .inl he)
    rintro K' _ ⟨hN, heq'⟩
    exact ⟨hN, fun w => (heq w).trans (heq' w)⟩

/-! ### Parse states -/

namespace ParseState

variable {s : ParseState} {pool : Pool}

/-- Feeds tokens one by one. -/
def run (s : ParseState) (pool : Pool) : List Token → ParseState × Pool
  | [] => (s, pool)
  | t :: ts => (s.step pool t).2.1.run (s.step pool t).2.2 ts

/-- The parse was stopped by an error that is none of the grammar's. -/
def IsStopped (s : ParseState) : Prop := ∃ e, s.status = .failed e ∧ e.isStop

/-- What may still come. -/
def Expected (s : ParseState) (w : List TokenKind) : Prop :=
  match s.status with
  | .parsing => Expects s.conts false w
  | .complete _ => w = []
  | .failed _ => False

/-- The parse goes on or has failed. -/
def Ongoing (s : ParseState) : Prop :=
  s.status = .parsing ∧ Nested s.conts ∨ ∃ e, s.status = .failed e

theorem step_of_ne_parsing (h : s.status ≠ .parsing) : s.step pool t = (.ok .error, s, pool) := by
  unfold step
  split
  · exact absurd rfl h
  · rfl

theorem run_of_ne_parsing (h : s.status ≠ .parsing) (ts : List Token) :
    s.run pool ts = (s, pool) := by
  induction ts with
  | nil => rfl
  | cons t ts ih =>
    unfold run
    rw [step_of_ne_parsing h]
    exact ih

/-- What a token does to a parse that goes on. -/
theorem step_cases (hs : s.status = .parsing) (hK : Nested s.conts) (pool : Pool) (t : Token) :
    ((s.step pool t).2.1.status = .parsing ∧ Nested (s.step pool t).2.1.conts ∧
      ∀ w, s.Expected (t.kind :: w) ↔ (s.step pool t).2.1.Expected w) ∨
    ((∃ root, (s.step pool t).2.1.status = .complete root) ∧ t.kind = .eof ∧
      ∀ w, s.Expected (t.kind :: w) ↔ (s.step pool t).2.1.Expected w) ∨
    ∃ e, (s.step pool t).1 = .error e ∧ (s.step pool t).2.1.status = .failed e ∧
      Refuses t s.conts false e := by
  obtain ⟨conts, operands, env, errors, status⟩ := s
  obtain rfl : status = .parsing := hs
  have h := consume_follows (t := t) hK ⟨pool, operands, env, errors⟩
  unfold Ensures at h
  unfold step
  simp only
  split at h
  · next a s heq =>
    rw [heq]
    cases a with
    | taken cls next => exact .inl ⟨rfl, h.1, h.2⟩
    | finished root => exact .inr (.inl ⟨⟨root, rfl⟩, h.1, h.2⟩)
  · next e s heq =>
    rw [heq]
    exact .inr (.inr ⟨e, rfl, rfl, h⟩)

/-- A step is the derivative of what may still come. -/
theorem step_expected (hs : s.Ongoing) (hr : ¬ (s.step pool t).2.1.IsStopped) (w : List TokenKind) :
    s.Expected (t.kind :: w) ↔ (s.step pool t).2.1.Expected w := by
  rcases hs with ⟨hs, hK⟩ | ⟨e, he⟩
  · rcases step_cases hs hK pool t with ⟨-, -, h⟩ | ⟨-, -, h⟩ | ⟨e, -, he, h⟩
    · exact h w
    · exact h w
    · rcases h with h | ⟨-, h⟩
      · exact absurd ⟨e, he, h⟩ hr
      · unfold Expected
        rw [hs, he]
        exact iff_false_intro (h w)
  · rw [step_of_ne_parsing (by rw [he]; simp)]
    unfold Expected
    rw [he]

theorem Ongoing.step (hs : s.Ongoing) (ht : t.kind ≠ .eof) : (s.step pool t).2.1.Ongoing := by
  rcases hs with ⟨hs, hK⟩ | ⟨e, he⟩
  · rcases step_cases hs hK pool t with ⟨h, hN, -⟩ | ⟨-, h, -⟩ | ⟨e, -, he, -⟩
    · exact .inl ⟨h, hN⟩
    · exact absurd h ht
    · exact .inr ⟨e, he⟩
  · rw [step_of_ne_parsing (by rw [he]; simp)]
    exact .inr ⟨e, he⟩

theorem IsStopped.run (h : s.IsStopped) (ts : List Token) : (s.run pool ts).1.IsStopped := by
  obtain ⟨e, he, -⟩ := id h
  rw [run_of_ne_parsing (by rw [he]; simp)]
  exact h

/-- What may come after some tokens is what may follow their kinds. -/
theorem run_expected {ts : List Token} (hs : s.Ongoing) (hts : ∀ t ∈ ts, t.kind ≠ .eof)
    (hr : ¬ (s.run pool ts).1.IsStopped) :
    (s.run pool ts).1.Ongoing ∧
      ∀ w, s.Expected (ts.map Token.kind ++ w) ↔ (s.run pool ts).1.Expected w := by
  induction ts generalizing s pool with
  | nil => exact ⟨hs, fun _ => Iff.rfl⟩
  | cons t ts ih =>
    have hr' : ¬ (s.step pool t).2.1.IsStopped := fun h => hr (h.run ts)
    have ht : t.kind ≠ .eof := hts t (List.mem_cons_self ..)
    obtain ⟨ho, h⟩ := ih (hs.step ht) (fun t ht => hts t (List.mem_cons_of_mem _ ht)) hr
    exact ⟨ho, fun w => (step_expected hs hr' _).trans (h w)⟩

theorem Ongoing.parsing_iff (hs : s.Ongoing) : s.status = .parsing ↔ ∃ w, s.Expected w := by
  rcases hs with ⟨hs, hK⟩ | ⟨e, he⟩
  · refine iff_of_true hs ?_
    obtain ⟨w, h⟩ := exists_expects s.conts
    refine ⟨w, ?_⟩
    unfold Expected
    rw [hs]
    exact h.closed
  · unfold Expected
    rw [he]
    simp

theorem initial_ongoing (env : Environment) : (initial env).Ongoing := .inl ⟨rfl, rfl, rfl⟩

theorem initial_expected (env : Environment) (w : List TokenKind) :
    (initial env).Expected w ↔ Reads .program w [] := by
  refine Iff.trans (readsList_iff fun _ => Iff.rfl) ?_
  constructor
  · rintro ⟨_, hl, v, rfl, rfl⟩
    exact .program hl
  · rintro ⟨hl⟩
    exact ⟨_, hl, [], rfl, rfl⟩

/-! ### Sentences and their prefixes -/

/-- The end of the program ends the parse. -/
theorem step_eof_ne_parsing (hs : s.Ongoing) (ht : t.kind = .eof) :
    (s.step pool t).2.1.status ≠ .parsing := by
  rcases hs with ⟨hs, hK⟩ | ⟨e, he⟩
  · rcases step_cases hs hK pool t with ⟨h, hN, hexp⟩ | ⟨⟨root, h⟩, -⟩ | ⟨e, -, h, -⟩
    · obtain ⟨w, hw⟩ := (Ongoing.parsing_iff (.inl ⟨h, hN⟩)).1 h
      have hw' := (hexp w).2 hw
      unfold Expected at hw hw'
      rw [hs, ht] at hw'
      rw [h, hK.eq_nil_of_expects_eof hw'] at hw
      exact absurd hw hN.not_expects_nil
    · simp [h]
    · simp [h]
  · rw [step_of_ne_parsing (by rw [he]; simp), he]
    simp

theorem step_complete_iff (hs : s.Ongoing) (ht : t.kind = .eof)
    (hr : ¬ (s.step pool t).2.1.IsStopped) :
    (∃ root, (s.step pool t).2.1.status = .complete root) ↔ s.Expected [.eof] := by
  rw [← ht, step_expected hs hr]
  have failed {s : ParseState} {e : Error} (he : s.status = .failed e) :
      (∃ root, s.status = .complete root) ↔ s.Expected [] := by
    unfold Expected
    rw [he]
    simp
  rcases hs with ⟨hs, hK⟩ | ⟨e, he⟩
  · rcases step_cases hs hK pool t with ⟨h, hN, -⟩ | ⟨⟨root, h⟩, -⟩ | ⟨e, -, he, -⟩
    · unfold Expected
      rw [h]
      simpa using hN.not_expects_nil
    · unfold Expected
      rw [h]
      simp
    · exact failed he
  · rw [step_of_ne_parsing (by rw [he]; simp)]
    exact failed he

/-- A token that nothing may start with is refused. -/
theorem step_refuses (hs : s.Ongoing) (hp : s.status = .parsing)
    (hr : ¬ (s.step pool t).2.1.IsStopped) (hnone : ∀ w, ¬ s.Expected (t.kind :: w)) :
    ∃ kind, (s.step pool t).1 = .error (.unexpected kind t.kind t.span) := by
  rcases hs with ⟨-, hK⟩ | ⟨e, he⟩
  · rcases step_cases hp hK pool t with ⟨h, hN, hexp⟩ | ⟨⟨root, h⟩, -, hexp⟩ | ⟨e, he, h, href⟩
    · obtain ⟨w, hw⟩ := (Ongoing.parsing_iff (.inl ⟨h, hN⟩)).1 h
      exact absurd ((hexp w).2 hw) (hnone w)
    · refine absurd ((hexp []).2 ?_) (hnone [])
      unfold Expected
      rw [h]
    · rcases href with hstop | ⟨⟨kind, rfl⟩, -⟩
      · exact absurd ⟨e, h, hstop⟩ hr
      · exact ⟨kind, he⟩
  · rw [he] at hp
    cases hp

/-- The parser goes on exactly as long as the kinds so far begin a sentence, refuses the first token
after which they do not, and ends with the end of the text exactly if they are a sentence. -/
theorem run_initial (env : Environment) (pool : Pool) (ts : List Token)
    (hts : ∀ t ∈ ts, t.kind ≠ .eof) (hr : ¬ ((initial env).run pool ts).1.IsStopped) :
    let s := ((initial env).run pool ts).1
    let pool' := ((initial env).run pool ts).2
    let kinds := ts.map Token.kind
    (s.status = .parsing ↔ Viable .closed kinds) ∧
    ∀ t, ¬ (s.step pool' t).2.1.IsStopped →
      (Viable .closed kinds → ¬ Viable .closed (kinds ++ [t.kind]) →
        ∃ kind, (s.step pool' t).1 = .error (.unexpected kind t.kind t.span)) ∧
      (t.kind = .eof → ((∃ root, (s.step pool' t).2.1.status = .complete root) ↔
        Phrase .closed .program (kinds ++ [.eof]) [])) := by
  intro s pool' kinds
  obtain ⟨ho, hrun⟩ := run_expected (initial_ongoing env) hts hr
  have hexp (w : List TokenKind) : Phrase .closed .program (kinds ++ w) [] ↔ s.Expected w :=
    (initial_expected env _).symm.trans (hrun w)
  have hviable : s.status = .parsing ↔ Viable .closed kinds :=
    ho.parsing_iff.trans (exists_congr fun w => (hexp w).symm)
  refine ⟨hviable, fun t ht => ⟨fun hv hnot => ?_, fun heof => ?_⟩⟩
  · refine step_refuses ho (hviable.2 hv) ht fun w hw => hnot ⟨w, ?_⟩
    rw [List.append_assoc]
    exact (hexp _).2 hw
  · rw [hexp]
    exact step_complete_iff ho heof ht

/-- A number, and a record with a definition and then a key without a comma. -/
def keyAfterDefinition : List Token :=
  [⟨.num, "1", ⟨0, 0, 1⟩⟩, ⟨.leftBrace, "\x7b", ⟨0, 2, 3⟩⟩, ⟨.ident, "a", ⟨0, 3, 4⟩⟩,
    ⟨.colon, ":", ⟨0, 4, 5⟩⟩, ⟨.keyLet, "let", ⟨0, 6, 9⟩⟩, ⟨.ident, "f", ⟨0, 10, 11⟩⟩,
    ⟨.equal, "=", ⟨0, 12, 13⟩⟩, ⟨.ident, "b", ⟨0, 14, 15⟩⟩, ⟨.colon, ":", ⟨0, 15, 16⟩⟩]

theorem run_keyAfterDefinition_status :
    ((initial .initial).run .empty keyAfterDefinition).1.status =
      .failed (.unexpected .ident .colon ⟨0, 15, 16⟩) := by decide +kernel

theorem not_isStopped_run_keyAfterDefinition :
    ¬ ((initial .initial).run .empty keyAfterDefinition).1.IsStopped := by
  rintro ⟨e, he, hstop⟩
  rw [run_keyAfterDefinition_status] at he
  cases he
  cases hstop

/-- Up to the colon the tokens begin a sentence, in which the last name belongs to the definition. -/
theorem viable_before_keyAfterDefinition :
    Viable .closed ((keyAfterDefinition.take 8).map Token.kind) ∧
      ¬ Viable .closed (keyAfterDefinition.map Token.kind) := by
  have hrun : ((initial .initial).run .empty (keyAfterDefinition.take 8)).1.status = .parsing := by
    decide +kernel
  have hr : ¬ ((initial .initial).run .empty (keyAfterDefinition.take 8)).1.IsStopped := by
    rintro ⟨e, he, -⟩
    rw [hrun] at he
    cases he
  refine ⟨(run_initial .initial .empty _ (by decide) hr).1.1 hrun, fun hv => ?_⟩
  have h := (run_initial .initial .empty keyAfterDefinition (by decide)
    not_isStopped_run_keyAfterDefinition).1.2 hv
  rw [run_keyAfterDefinition_status] at h
  cases h

/-- If a comma might be left out after any value, the last name could be the next key. -/
theorem run_keyAfterDefinition_ne :
    (∀ t ∈ keyAfterDefinition, t.kind ≠ .eof) ∧
    ¬ ((initial .initial).run .empty keyAfterDefinition).1.IsStopped ∧
    ¬ (((initial .initial).run .empty keyAfterDefinition).1.status = .parsing ↔
      Viable .expr (keyAfterDefinition.map Token.kind)) := by
  refine ⟨by decide, not_isStopped_run_keyAfterDefinition, ?_⟩
  have value {v : List TokenKind} : Phrase .expr .expr (.num :: v) v :=
    .expr (.operation (.positive (.atom rfl)) .noOperator)
  have hbindings : Phrase .expr .bindings [.ident, .colon, .keyLet, .ident, .equal, .ident, .colon,
      .num, .rightBrace, .eof] [.rightBrace, .eof] :=
    .bindingApart rfl (.definition .noParam (.list .nothing)) (.binding rfl value)
  have hviable : Viable .expr (keyAfterDefinition.map Token.kind) := by
    refine ⟨[.num, .rightBrace, .eof], .program (.list ?_)⟩
    exact .series value (.items (.series (.expr (.operation (.positive (.record hbindings))
      .noOperator)) (.items .nothing)))
  rw [run_keyAfterDefinition_status]
  exact fun h => absurd (h.2 hviable) (by simp)

end ParseState

end Linefold
