import Linefold.Proofs.Operands.Run
import Linefold.Session

/-!
# Texts parse to well-shaped nodes

`parse_text`: fed line by line and then ended, a text is complete, with nothing but well-shaped nodes
below its root, or is refused with an error that a text may have. This takes that no definition
stands where the value of an expression is waited for, that is as the value of a binding, as the
scrutinee of a case or as the condition of a conditional: there it leaves nothing on the operand stack
although one operand is taken later (`definition_for_value`).
-/

namespace Linefold

/-! ### Scanned tokens -/

namespace Scanner

variable {globals : Scope} {c : Char} {cs : List Char}

theorem punctuation?_ne_binOp : punctuation? c ≠ some .binOp := by
  unfold punctuation?
  split <;> simp

theorem keyword?_ne_binOp {lexeme : String} : keyword? lexeme ≠ some .binOp := by
  unfold keyword?
  split <;> simp

/-- A lexeme is an operator only if the lexicon says so. -/
theorem isSome_operator?_of_lexeme {n : Nat} (h : lexeme globals c cs = (some .binOp, n)) :
    (globals.operator? (String.ofList (c :: cs.take n))).isSome := by
  unfold lexeme at h
  split at h
  · next k hk =>
    cases h
    exact absurd hk punctuation?_ne_binOp
  · split at h
    · split at h <;> cases h
    · split at h
      · cases h
      · split at h
        · cases h
        · split at h
          · obtain ⟨hk, rfl⟩ := Prod.mk.inj h
            unfold signKind at hk
            split at hk
            · next hop =>
              rw [Char.toString_eq_singleton, String.singleton_eq_ofList] at hop
              exact hop
            · cases hk
          · split at h
            · obtain ⟨hk, rfl⟩ := Prod.mk.inj h
              unfold nameKind at hk
              split at hk
              · next k hkey => exact absurd (hkey.trans hk) keyword?_ne_binOp
              · split at hk
                · next hop =>
                  rw [List.prefix_iff_eq_take.1 (List.takeWhile_prefix isNameChar)] at hop
                  exact hop
                · cases hk
            · split at h <;> cases h

/-- The lexeme of an operator token is an operator word. -/
theorem isSome_operator?_of_scan {s rest : Scanner} {t : Token}
    (h : s.scan globals = (some (.token t), rest)) (ht : t.kind = .binOp) :
    (globals.operator? t.lexeme).isSome := by
  unfold scan at h
  simp only at h
  split at h
  · cases h
  · next c cs hrest =>
    split at h
    · cases h
    · next k hk =>
      cases h
      obtain rfl : k = .binOp := ht
      exact isSome_operator?_of_lexeme (Prod.ext hk rfl)

end Scanner

/-! ### Lines -/

namespace Session

variable {s : Session}

/-- The tokens of a line, each with the state of the parse that it is fed to. -/
def fed (s : Session) (scanner : Scanner) : List (ParseState × Token) :=
  match h : scanner.scan s.state.env.globals with
  | (none, _) => []
  | (some (.comment _), rest) =>
    have := Scanner.length_rest_scan_lt h
    s.fed rest
  | (some (.token t), rest) =>
    have := Scanner.length_rest_scan_lt h
    (s.state, t) :: (s.step t).2.fed rest
termination_by scanner.rest.length

/-- The tokens of some lines. -/
def fedLines (s : Session) : List String → List (ParseState × Token)
  | [] => []
  | text :: lines => s.fed (.ofText s.line text) ++ (s.parseLine text).2.fedLines lines

/-- A definition does not come where the value of an expression is waited for. -/
def NotForValue (x : ParseState × Token) : Prop :=
  x.2.kind = .keyLet → x.1.conts.head? ≠ some .expr

def Sound (s : Session) : Prop := s.state.Sound s.pool

theorem Sound.step {t : Token} (h : s.Sound) (hlet : NotForValue (s.state, t))
    (hop : t.kind = .binOp → (s.state.env.globals.operator? t.lexeme).isSome) :
    (s.step t).2.Sound := by
  refine ParseState.Sound.step h fun _ => ?_
  unfold SuitsHead
  split
  · trivial
  · next c K hconts =>
    refine ⟨?_, fun hbin _ _ => hop hbin⟩
    rintro rfl hk
    exact hlet hk (by rw [hconts]; rfl)

theorem Sound.feed {scanner : Scanner} (h : s.Sound) (hfed : ∀ x ∈ s.fed scanner, NotForValue x) :
    (s.feed scanner).2.Sound := by
  fun_induction Session.fed s scanner with
  | case1 s scanner rest hscan =>
    rw [feed_of_none hscan]
    exact h
  | case2 s scanner span rest hscan _ ih =>
    rw [feed_of_comment hscan]
    exact ih h hfed
  | case3 s scanner t rest hscan _ ih =>
    rw [feed_of_token hscan]
    refine ih (h.step (hfed _ (List.mem_cons_self ..)) ?_) fun x hx => hfed x (List.mem_cons_of_mem _ hx)
    exact Scanner.isSome_operator?_of_scan hscan

theorem Sound.parseLines {lines : List String} (h : s.Sound)
    (hfed : ∀ x ∈ s.fedLines lines, NotForValue x) : (s.parseLines lines).Sound := by
  induction lines generalizing s with
  | nil => exact h
  | cons text lines ih =>
    have hline : (s.parseLine text).2.Sound :=
      h.feed fun x hx => hfed x (List.mem_append_left _ hx)
    exact ih hline fun x hx => hfed x (List.mem_append_right _ hx)

theorem Sound.close (h : s.Sound) : s.close.Sound := by
  unfold Session.close
  split
  · refine h.step ?_ ?_
    · rintro ⟨⟩
    · rintro ⟨⟩
  · exact h

theorem close_ne_parsing (h : s.Sound) : s.close.state.status ≠ .parsing := by
  unfold Session.close
  split
  · next hs =>
    unfold Sound ParseState.Sound at h
    rw [hs] at h
    exact ParseState.step_eof_ne_parsing (.inl ⟨hs, h.1⟩) rfl
  · next hs => exact hs

/-! ### Fresh sessions -/

theorem sound_of_ofConfig {config : Config} (h : ofConfig config = .ok s) : s.Sound := by
  unfold ofConfig Except.map at h
  split at h
  · cases h
  · next env henv =>
    cases h
    obtain ⟨hwords, hinner⟩ : env.OperatorsBinary ∧ _ := Environment.all_of_ofConfig
      (fun _ _ ht _ h => WordClass.operator.inj h ▸ ht) henv
    refine ⟨⟨rfl, rfl⟩, rfl, [], ⟨0, [], rfl, rfl, rfl, rfl⟩, .nil, Pool.wellShaped_empty, hwords, ?_⟩
    exact congrArg List.length hinner

end Session

/-! ### Whole texts -/

namespace Pool

/-- One node stands below another. -/
inductive Reaches (p : Pool) (root : NodeId) : NodeId → Prop where
  | refl : Reaches p root root
  | child {id c : NodeId} {n : Node} (h : Reaches p root id) (hn : p.get? id = some n) (hc : c ∈ n.elts) :
      Reaches p root c

theorem WellShaped.exists_of_reaches {p : Pool} {root id : NodeId} {n : Node} (h : p.WellShaped)
    (hroot : p.get? root = some n) (hid : p.Reaches root id) : ∃ n, p.get? id = some n ∧ n.Shaped p := by
  induction hid with
  | refl => exact ⟨n, hroot, h _ _ hroot⟩
  | child _ hn hc ih =>
    obtain ⟨m, hm, hshaped⟩ := ih
    obtain rfl := Option.some.inj (hn.symm.trans hm)
    obtain ⟨part, hfits⟩ := hshaped.exists_fits hc
    obtain ⟨k, hk⟩ := hfits.exists_get?
    exact ⟨k, hk, h _ _ hk⟩

end Pool

namespace Session

/-- Every text is either parsed to well-shaped nodes or refused with an error that a text may have, if
no definition stands where the value of an expression is waited for. -/
theorem parse_text {config : Config} {s : Session} (hs : ofConfig config = .ok s) (lines : List String)
    (hfed : ∀ x ∈ s.fedLines lines, NotForValue x) :
    (∃ root es, (s.parseLines lines).close.state.status = .complete root ∧
      (s.parseLines lines).close.pool.get? root = some (.branch .prog es) ∧
      ∀ id, (s.parseLines lines).close.pool.Reaches root id →
        ∃ n, (s.parseLines lines).close.pool.get? id = some n ∧
          n.Shaped (s.parseLines lines).close.pool) ∨
    (∃ expected found span, (s.parseLines lines).close.state.status =
      .failed (.unexpected expected found span)) ∨
    ∃ limit, (s.parseLines lines).close.state.status = .failed (.recursion limit) := by
  have hlines := (sound_of_ofConfig hs).parseLines hfed
  have hne := close_ne_parsing hlines
  have hclose := hlines.close
  unfold Sound ParseState.Sound at hclose
  split at hclose
  · next h => exact absurd h hne
  · next root h =>
    obtain ⟨hpool, es, hroot⟩ := hclose
    exact .inl ⟨root, es, h, hroot, fun id hid => hpool.exists_of_reaches hroot hid⟩
  · next e h =>
    cases e with
    | unexpected expected found span => exact .inr (.inl ⟨expected, found, span, h⟩)
    | recursion limit => exact .inr (.inr ⟨limit, h⟩)
    | _ => cases hclose

def definitions : List String :=
  ["let f x = [x, let g = 1]", "case null of y: let h = y y end \x7ba: f\x7d"]

/-- Definitions in lists do no harm. -/
theorem parse_text_definitions :
    ∃ root es, (fresh.parseLines definitions).close.pool.get? root = some (.branch .prog es) := by
  have hs : ofConfig {} = .ok fresh := rfl
  have hfed : ∀ x ∈ fresh.fedLines definitions, NotForValue x := by
    unfold NotForValue
    decide +kernel
  have hfatal : (fresh.parseLines definitions).close.state.fatal? = none := by decide +kernel
  unfold ParseState.fatal? at hfatal
  rcases parse_text hs _ hfed with ⟨root, es, -, h, -⟩ | ⟨_, _, _, h⟩ | ⟨_, h⟩
  · exact ⟨root, es, h⟩
  · rw [h] at hfatal
    cases hfatal
  · rw [h] at hfatal
    cases hfatal

/-- Where one value is waited for, a definition leaves a conditional or a binding short of it. -/
theorem definition_for_value :
    (fresh.parseLines ["if let f = 1 then 2 end"]).close.state.status =
      .failed (.internal .malformedConditional) ∧
    (fresh.parseLines ["\x7ba: let f = 1\x7d"]).close.state.status =
      .failed (.internal .operandUnderflow) := by
  constructor <;> decide +kernel

end Session

end Linefold
