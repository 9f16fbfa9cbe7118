import Linefold.Proofs.Requests
import Linefold.Proofs.Turns.Scopes
import Mathlib.Data.List.Induction

/-!
# Environments are nested maps

The reference for an environment is a list of maps, the global one first, in which a definition changes one
map and a look-up takes the innermost map that has the name (`ScopeMap.innermost?_eq_some_iff`). Whatever is
asked of an environment, it gives the replies of its maps and stays in step with them
(`Environment.Nests.serve`), and what happens between a scope's opening and its closing leaves no trace
(`Environment.Over.exit_serveEach`). All this starts from any configuration (`Environment.serveEach_nests`).
-/

namespace Linefold

/-- What may be asked of an environment. A lexicon gives a name one word. -/
inductive ScopeRequest where
  | enter (name : String)
  | exit
  | bind (name : String) (word : Word)
  | bindAt (depth : Nat) (name : String) (word : Word)
  | extend (lexicon : Lexicon) (distinct : lexicon.names.Nodup)
  | lookup (name : String)
  | find (name : String)

/-- The words of a scope as a map. -/
structure ScopeMap where
  name : String
  words : String → Option Word

inductive ScopeReply where
  | done
  | refused (e : Error)
  | closed (scope : Option ScopeMap)
  | word (w : Option Word)
  | found (w : Option (Nat × Word))

/-! ### Lists of maps -/

namespace ScopeMap

def empty (name : String) : ScopeMap := ⟨name, fun _ => none⟩

def set (m : ScopeMap) (name : String) (word : Word) : ScopeMap :=
  { m with words := fun n => if n = name then some word else m.words n }

/-- The words of `new`, and for other names those of the map. -/
def overwrite (m : ScopeMap) (new : String → Option Word) : ScopeMap :=
  { m with words := fun n => (new n).or (m.words n) }

/-- The word of a name in the last map that has it, with the number of maps before that one. -/
def innermost? (name : String) : List ScopeMap → Option (Nat × Word)
  | [] => none
  | m :: ms =>
    match innermost? name ms with
    | some (d, w) => some (d + 1, w)
    | none => (m.words name).map (0, ·)

/-- The reply of the maps, of which there are at most `limit + 1`. -/
def serve (limit : Nat) : ScopeRequest → List ScopeMap → ScopeReply × List ScopeMap
  | .enter name, ms => if limit < ms.length then (.refused (.recursion limit), ms) else (.done, ms ++ [empty name])
  | .exit, ms => if ms.length = 1 then (.closed none, ms) else (.closed ms.getLast?, ms.dropLast)
  | .bind name word, ms => (.done, ms.modify (ms.length - 1) (·.set name word))
  | .bindAt depth name word, ms => (.done, ms.modify depth (·.set name word))
  | .extend lexicon _, ms => (.done, ms.modify (ms.length - 1) (·.overwrite lexicon.find?))
  | .lookup name, ms => (.word ((innermost? name ms).map Prod.snd), ms)
  | .find name, ms => (.found (innermost? name ms), ms)

variable {name : String} {m : ScopeMap} {ms : List ScopeMap} {d : Nat} {w : Word}

theorem modify_concat (f : ScopeMap → ScopeMap) :
    (ms ++ [m]).modify d f = if d = ms.length then ms ++ [f m] else ms.modify d f ++ [m] := by
  induction ms generalizing d with
  | nil => cases d <;> simp
  | cons m' ms ih =>
    cases d with
    | zero => simp
    | succ d =>
      simp only [List.cons_append, List.modify_succ_cons, ih, List.length_cons, Nat.add_right_cancel_iff]
      split <;> rfl

theorem innermost?_concat : innermost? name (ms ++ [m]) =
    match m.words name with
    | some w => some (ms.length, w)
    | none => innermost? name ms := by
  induction ms with
  | nil => cases h : m.words name <;> simp [innermost?, h]
  | cons m' ms ih =>
    rw [List.cons_append, innermost?, ih]
    cases h : m.words name <;> simp [innermost?]

/-- The name is in the map, and in no map further in. -/
theorem innermost?_eq_some_iff : innermost? name ms = some (d, w) ↔
    ∃ around m within, ms = around ++ m :: within ∧ around.length = d ∧ m.words name = some w ∧
      ∀ m' ∈ within, m'.words name = none := by
  constructor
  · intro h
    induction ms using List.reverseRecOn with
    | nil => cases h
    | append_singleton ms m ih =>
      rw [innermost?_concat] at h
      split at h
      · next v hv =>
        cases h
        exact ⟨ms, m, [], rfl, rfl, hv, nofun⟩
      · next hnone =>
        obtain ⟨around, m', within, rfl, hlength, hword, hwithin⟩ := ih h
        refine ⟨around, m', within ++ [m], by simp, hlength, hword, fun x hx => ?_⟩
        rcases List.mem_append.1 hx with hx | hx
        · exact hwithin x hx
        · rw [List.mem_singleton.1 hx, hnone]
  · rintro ⟨around, m, within, rfl, rfl, hword, hwithin⟩
    induction within using List.reverseRecOn with
    | nil => rw [innermost?_concat, hword]
    | append_singleton within m' ih =>
      have hlast : m'.words name = none := hwithin m' (by simp)
      rw [← List.cons_append, ← List.append_assoc, innermost?_concat, hlast]
      exact ih fun x hx => hwithin x (List.mem_append_left _ hx)

end ScopeMap

/-! ### The maps of an environment -/

theorem Lexicon.find?_extend {l m : Lexicon} (h : m.names.Nodup) (name : String) :
    (l.extend m).find? name = (m.find? name).or (l.find? name) := by
  induction m generalizing l with
  | nil => rfl
  | cons nw m ih =>
    obtain ⟨n, w⟩ := nw
    obtain ⟨hn, hm⟩ := List.nodup_cons.1 h
    have hextend : l.extend ((n, w) :: m) = (l.insert n w).extend m := rfl
    rw [hextend, ih hm, Lexicon.find?_insert, Lexicon.find?]
    by_cases heq : n = name
    · subst heq
      have hnone : Lexicon.find? m n = none := Option.not_isSome_iff_eq_none.1 fun h => hn (Lexicon.mem_names_of_find? h)
      rw [if_pos rfl, if_pos rfl, hnone]
      rfl
    · rw [if_neg heq, if_neg fun h => heq h.symm]

namespace Scope

def toMap (s : Scope) : ScopeMap := ⟨s.name, s.get?⟩

theorem toMap_bind (s : Scope) (name : String) (word : Word) : (s.bind name word).toMap = s.toMap.set name word := by
  have hwords : (s.bind name word).get? = fun n => if n = name then some word else s.get? n :=
    funext fun n => Lexicon.find?_insert _ name word n
  unfold toMap ScopeMap.set
  rw [hwords]
  rfl

theorem toMap_extend (s : Scope) {lexicon : Lexicon} (h : lexicon.names.Nodup) :
    toMap { s with lexicon := s.lexicon.extend lexicon } = s.toMap.overwrite lexicon.find? := by
  have hwords : get? { s with lexicon := s.lexicon.extend lexicon } = fun n => (lexicon.find? n).or (s.get? n) :=
    funext fun n => Lexicon.find?_extend h n
  unfold toMap ScopeMap.overwrite
  rw [hwords]

end Scope

namespace Environment

variable {e e' : Environment} {name : String} {word w : Word} {d limit : Nat} {ms : List ScopeMap}

/-- The maps of the scopes, the global one first. -/
def maps (e : Environment) : List ScopeMap := e.globals.toMap :: (e.inner.map Scope.toMap).reverse

theorem length_maps (e : Environment) : e.maps.length = e.depth := by
  simp [maps, depth]

theorem maps_under (e : Environment) (scope : Scope) : (e.under scope).maps = e.maps ++ [scope.toMap] := by
  simp [maps, under]

theorem maps_of_inner_nil (h : e.inner = []) : e.maps = [e.globals.toMap] := by
  simp [maps, h]

/-- An environment is the global scope alone, or some environment under one more scope. -/
theorem inner_nil_or_under (e : Environment) : e.inner = [] ∨ ∃ (e' : Environment) (scope : Scope), e = e'.under scope := by
  obtain ⟨inner, globals, limit⟩ := e
  cases inner with
  | nil => exact .inl rfl
  | cons scope inner => exact .inr ⟨⟨inner, globals, limit⟩, scope, rfl⟩

theorem maps_modifyTop {f : Scope → Scope} {g : ScopeMap → ScopeMap} (hfg : ∀ s : Scope, (f s).toMap = g s.toMap)
    (e : Environment) : (e.modifyTop f).maps = e.maps.modify (e.maps.length - 1) g := by
  rcases e.inner_nil_or_under with h | ⟨e', scope, rfl⟩
  · rw [maps_of_inner_nil h]
    simp [modifyTop, h, maps, hfg]
  · have hmodify : (e'.under scope).modifyTop f = e'.under (f scope) := rfl
    rw [hmodify, maps_under, maps_under, List.length_append, List.length_singleton, Nat.add_sub_cancel,
      ScopeMap.modify_concat, if_pos rfl, hfg]

/-- A definition at a depth reaches through the scopes that are further in. -/
theorem bindAt_under (e : Environment) (scope : Scope) : (e.under scope).bindAt d name word =
    if d = e.depth then e.under (scope.bind name word) else (e.bindAt d name word).under scope := by
  have hdepth : e.depth = e.inner.length + 1 := rfl
  have hinner : (e.under scope).inner = scope :: e.inner := rfl
  by_cases hd : d = e.depth
  · rw [if_pos hd, bindAt_of_depth (congrArg (· + 1) hd), bind_under]
  · rw [if_neg hd]
    unfold bindAt
    rw [hinner, List.length_cons]
    by_cases h0 : d = 0
    · rw [if_pos h0, if_pos h0]
      rfl
    by_cases hle : d ≤ e.inner.length
    · have hindex : e.inner.length + 1 - d = e.inner.length - d + 1 := by omega
      rw [if_neg h0, if_neg h0, if_pos hle, if_pos (Nat.le_succ_of_le hle), hindex, List.modify_succ_cons]
      rfl
    · rw [if_neg h0, if_neg h0, if_neg hle, if_neg (by omega)]

theorem maps_bindAt (e : Environment) (d : Nat) (name : String) (word : Word) :
    (e.bindAt d name word).maps = e.maps.modify d (·.set name word) := by
  obtain ⟨inner, globals, limit⟩ := e
  induction inner with
  | nil =>
    cases d with
    | zero => simp [bindAt, maps, Scope.toMap_bind]
    | succ d => simp [bindAt, maps]
  | cons scope inner ih =>
    have hunder : (⟨scope :: inner, globals, limit⟩ : Environment) = under ⟨inner, globals, limit⟩ scope := rfl
    rw [hunder, bindAt_under, maps_under, ScopeMap.modify_concat, length_maps]
    split
    · rw [maps_under, Scope.toMap_bind]
    · rw [maps_under, ih]

theorem lookupDepth?_under (e : Environment) (scope : Scope) : (e.under scope).lookupDepth? name =
    match scope.get? name with
    | some w => some (e.depth, w)
    | none => e.lookupDepth? name := rfl

theorem lookupDepth?_eq (e : Environment) (name : String) : e.lookupDepth? name = ScopeMap.innermost? name e.maps := by
  obtain ⟨inner, globals, limit⟩ := e
  induction inner with
  | nil => rfl
  | cons scope inner ih =>
    have hunder : (⟨scope :: inner, globals, limit⟩ : Environment) = under ⟨inner, globals, limit⟩ scope := rfl
    rw [hunder, maps_under, ScopeMap.innermost?_concat, length_maps, lookupDepth?_under, ih]
    rfl

/-- The two look-ups walk the scopes apart and find the same word. -/
theorem lookup?_eq (e : Environment) (name : String) : e.lookup? name = (e.lookupDepth? name).map Prod.snd := by
  obtain ⟨inner, globals, limit⟩ := e
  induction inner with
  | nil =>
    show (globals.get? name) = ((globals.get? name).map (0, ·)).map Prod.snd
    cases globals.get? name <;> rfl
  | cons scope inner ih =>
    have hunder : (⟨scope :: inner, globals, limit⟩ : Environment) = under ⟨inner, globals, limit⟩ scope := rfl
    rw [hunder, lookupDepth?_under, lookup?_under, ih]
    cases scope.get? name <;> rfl

/-! ### Requests -/

def serve : ScopeRequest → Environment → ScopeReply × Environment
  | .enter name, e =>
    match e.enter name with
    | .ok e' => (.done, e')
    | .error err => (.refused err, e)
  | .exit, e => (.closed (e.exit.1.map Scope.toMap), e.exit.2)
  | .bind name word, e => (.done, e.bind name word)
  | .bindAt depth name word, e => (.done, e.bindAt depth name word)
  | .extend lexicon _, e => (.done, e.extend lexicon)
  | .lookup name, e => (.word (e.lookup? name), e)
  | .find name, e => (.found (e.lookupDepth? name), e)

/-- The environment has those maps, of which there are at most `limit + 1`. -/
structure Nests (limit : Nat) (e : Environment) (ms : List ScopeMap) : Prop where
  maps : e.maps = ms
  limit_eq : e.limit = limit
  depth_le : e.depth ≤ limit + 1

/-- Beyond the limit nothing is opened. -/
theorem serve_enter_of_lt (h : e.limit < e.depth) (name : String) :
    e.serve (.enter name) = (.refused (.recursion e.limit), e) := by
  have henter : e.enter name = .error (.recursion e.limit) := if_pos h
  simp only [serve, henter]

theorem serve_enter_of_le (h : e.depth ≤ e.limit) (name : String) :
    e.serve (.enter name) = (.done, e.under ⟨name, []⟩) := by
  have henter : e.enter name = .ok (e.under ⟨name, []⟩) := if_neg (Nat.not_lt.2 h)
  simp only [serve, henter]

theorem limit_modifyTop {f : Scope → Scope} : (e.modifyTop f).limit = e.limit := by
  unfold modifyTop
  split <;> rfl

namespace Nests

variable (h : Nests limit e ms)
include h

theorem length_eq : ms.length = e.depth := by
  rw [← h.maps, length_maps]

/-- A change within the scopes changes their maps. -/
theorem change (hlimit : e'.limit = e.limit) (hdepth : e'.depth = e.depth) : Nests limit e' e'.maps :=
  ⟨rfl, hlimit.trans h.limit_eq, hdepth ▸ h.depth_le⟩

theorem modifyTop {f : Scope → Scope} {g : ScopeMap → ScopeMap} (hfg : ∀ s : Scope, (f s).toMap = g s.toMap) :
    Nests limit (e.modifyTop f) (ms.modify (ms.length - 1) g) := by
  rw [← h.maps, ← maps_modifyTop hfg]
  exact h.change limit_modifyTop (congrArg (· + 1) length_inner_modifyTop)

theorem exit : (e.serve .exit).1 = (ScopeMap.serve limit .exit ms).1 ∧
    Nests limit (e.serve .exit).2 (ScopeMap.serve limit .exit ms).2 := by
  have hlength := h.length_eq
  rcases e.inner_nil_or_under with hnil | ⟨e', scope, rfl⟩
  · have hexit : e.exit = (none, e) := by
      unfold Environment.exit
      rw [hnil]
    have hone : ms.length = 1 := by
      rw [hlength, depth, hnil]
      rfl
    rw [ScopeMap.serve, if_pos hone, Environment.serve, hexit]
    exact ⟨rfl, h⟩
  · have hexit : (e'.under scope).exit = (some scope, e') := rfl
    have hmany : ms.length ≠ 1 := by
      rw [hlength, depth_under, depth]
      omega
    have hdepth := h.depth_le
    rw [depth_under] at hdepth
    rw [ScopeMap.serve, if_neg hmany, Environment.serve, hexit, ← h.maps, maps_under, List.getLast?_concat,
      List.dropLast_concat]
    exact ⟨rfl, rfl, h.limit_eq, Nat.le_of_succ_le hdepth⟩

/-- An environment replies as its maps do, and has the maps that they become. -/
theorem serve (r : ScopeRequest) : (e.serve r).1 = (ScopeMap.serve limit r ms).1 ∧
    Nests limit (e.serve r).2 (ScopeMap.serve limit r ms).2 := by
  have hlength := h.length_eq
  have hlimit := h.limit_eq
  cases r with
  | enter name =>
    by_cases hlt : limit < e.depth
    · rw [serve_enter_of_lt (hlimit.symm ▸ hlt), ScopeMap.serve, if_pos (hlength.symm ▸ hlt), hlimit]
      exact ⟨rfl, h⟩
    · rw [serve_enter_of_le (by omega), ScopeMap.serve, if_neg (hlength.symm ▸ hlt)]
      refine ⟨rfl, ?_, hlimit, ?_⟩
      · rw [maps_under, h.maps]
        rfl
      · rw [depth_under]
        omega
  | exit => exact h.exit
  | bind name word => exact ⟨rfl, h.modifyTop (f := (·.bind name word)) (g := (·.set name word)) fun s => s.toMap_bind name word⟩
  | bindAt d name word =>
    refine ⟨rfl, ?_⟩
    rw [ScopeMap.serve, ← h.maps, ← maps_bindAt]
    exact h.change limit_bindAt depth_bindAt
  | extend lexicon distinct => exact ⟨rfl, h.modifyTop (g := (·.overwrite lexicon.find?)) fun s => s.toMap_extend distinct⟩
  | lookup name =>
    refine ⟨?_, h⟩
    rw [ScopeMap.serve, Environment.serve, lookup?_eq, lookupDepth?_eq, h.maps]
  | find name =>
    refine ⟨?_, h⟩
    rw [ScopeMap.serve, Environment.serve, lookupDepth?_eq, h.maps]

end Nests

/-! ### From a scope's opening to its closing -/

/-- The environment under further scopes, innermost first. -/
def underAll (e : Environment) (within : List Scope) : Environment := { e with inner := within ++ e.inner }

theorem depth_underAll (e : Environment) (within : List Scope) : (e.underAll within).depth = within.length + e.depth := by
  simp only [depth, underAll, List.length_append, Nat.add_assoc]

theorem underAll_cons (e : Environment) (scope : Scope) (within : List Scope) :
    e.underAll (scope :: within) = (e.underAll within).under scope := rfl

/-- A definition at the depth of the further scopes stays in them. -/
theorem exists_bindAt_underAll (hd : e.depth ≤ d) (name : String) (word : Word) (within : List Scope) : ∃ within',
    within'.length = within.length ∧ (e.underAll within).bindAt d name word = e.underAll within' := by
  induction within with
  | nil =>
    have hbeyond : ¬ d ≤ e.inner.length := Nat.not_le.2 hd
    refine ⟨[], rfl, ?_⟩
    show e.bindAt d name word = e
    rw [bindAt, if_neg (by rintro rfl; exact Nat.not_succ_le_zero _ hd), if_neg hbeyond]
  | cons scope within ih =>
    obtain ⟨within', hlength, heq⟩ := ih
    rw [underAll_cons, bindAt_under]
    split
    · exact ⟨scope.bind name word :: within, rfl, rfl⟩
    · exact ⟨scope :: within', congrArg (· + 1) hlength, by rw [heq, underAll_cons]⟩

/-- The scopes of `e`, unchanged, under one more at least. -/
def Over (e e' : Environment) : Prop := ∃ within, within ≠ [] ∧ e' = e.underAll within

/-- A request that neither closes the scope on top of `e` nor defines anything below it. -/
theorem Over.serve (h : e.Over e') {r : ScopeRequest} (hbind : ∀ d n w, r = .bindAt d n w → e.depth ≤ d)
    (hdepth : e.depth < (e'.serve r).2.depth) : e.Over (e'.serve r).2 := by
  obtain ⟨within, hne, rfl⟩ := h
  obtain ⟨scope, within, rfl⟩ := List.exists_cons_of_ne_nil hne
  cases r with
  | enter name =>
    by_cases hlt : (e.underAll (scope :: within)).limit < (e.underAll (scope :: within)).depth
    · rw [serve_enter_of_lt hlt]
      exact ⟨scope :: within, hne, rfl⟩
    · rw [serve_enter_of_le (Nat.not_lt.1 hlt)]
      exact ⟨⟨name, []⟩ :: scope :: within, nofun, rfl⟩
  | exit =>
    have hexit : ((e.underAll (scope :: within)).serve .exit).2 = e.underAll within := rfl
    rw [hexit] at hdepth ⊢
    refine ⟨within, ?_, rfl⟩
    rintro rfl
    exact Nat.lt_irrefl _ hdepth
  | bind name word => exact ⟨scope.bind name word :: within, nofun, rfl⟩
  | bindAt d name word =>
    obtain ⟨within', hlength, heq⟩ := exists_bindAt_underAll (hbind d name word rfl) name word (scope :: within)
    refine ⟨within', ?_, heq⟩
    rintro rfl
    cases hlength
  | extend lexicon distinct => exact ⟨{ scope with lexicon := scope.lexicon.extend lexicon } :: within, nofun, rfl⟩
  | lookup name => exact ⟨scope :: within, hne, rfl⟩
  | find name => exact ⟨scope :: within, hne, rfl⟩

theorem Over.exit_eq (h : e.Over e') (hdepth : e'.depth = e.depth + 1) : e'.exit.2 = e := by
  obtain ⟨within, -, rfl⟩ := h
  have hlength : within.length = 1 := by
    rw [depth_underAll] at hdepth
    omega
  obtain ⟨scope, rfl⟩ := List.length_eq_one_iff.1 hlength
  rfl

/-- The requests close only scopes that are further in than the one at depth `d`, in which they begin and end,
and define nothing in the scopes around it. -/
def Enclosed (d : Nat) (e : Environment) : List ScopeRequest → Prop
  | [] => e.depth = d + 1
  | r :: rs => (∀ k n w, r = .bindAt k n w → d ≤ k) ∧ d < (e.serve r).2.depth ∧ (e.serve r).2.Enclosed d rs

theorem Over.exit_serveEach {rs : List ScopeRequest} (h : e.Over e') (hrs : e'.Enclosed e.depth rs) :
    (serveEach Environment.serve rs e').2.exit.2 = e := by
  induction rs generalizing e' with
  | nil => exact h.exit_eq hrs
  | cons r rs ih =>
    obtain ⟨hbind, hdepth, hrs⟩ := hrs
    exact ih (h.serve hbind hdepth) hrs

/-! ### From a configuration on -/

theorem limit_addOperators {words : List (String × String)} (h : e.addOperators words = .ok e') : e'.limit = e.limit := by
  induction words generalizing e with
  | nil =>
    cases h
    rfl
  | cons nt words ih =>
    unfold addOperators at h
    split at h
    · next t _ => exact ih (e := { e with globals := e.globals.bind nt.1 (.operator nt.1 t) }) h
    · cases h

theorem nests_of_ofConfig {config : Config} (h : ofConfig config = .ok e) : Nests config.recursionLimit e e.maps := by
  have hinner : e.inner = [] := (all_of_ofConfig (P := fun _ _ => True) (fun _ _ _ => trivial) h).2
  refine ⟨rfl, limit_addOperators (e := { initial with limit := config.recursionLimit }) h, ?_⟩
  rw [depth, hinner]
  exact Nat.le_add_left 1 _

/-- Any requests from a configured environment on: the replies are those of the maps, of which there are at
least one and at most `limit + 1`. An environment refuses to open a scope exactly beyond the limit, and stays
as it is. The two look-ups agree, and the depth is that of the innermost map that has the name. Opening a
scope, requests enclosed in it and closing it give the environment back. -/
theorem serveEach_nests {config : Config} (h : ofConfig config = .ok e) (rs : List ScopeRequest) :
    let limit := config.recursionLimit
    let s := (serveEach serve rs e).2
    let ms := (serveEach (ScopeMap.serve limit) rs e.maps).2
    (serveEach serve rs e).1 = (serveEach (ScopeMap.serve limit) rs e.maps).1 ∧ s.maps = ms ∧
      1 ≤ s.depth ∧ s.depth ≤ limit + 1 ∧
      (∀ name, limit < s.depth → s.serve (.enter name) = (.refused (.recursion limit), s)) ∧
      (∀ name, s.depth ≤ limit → s.serve (.enter name) = (.done, s.under ⟨name, []⟩)) ∧
      (∀ name, s.lookup? name = (s.lookupDepth? name).map Prod.snd) ∧
      (∀ name d w, s.lookupDepth? name = some (d, w) ↔
        ∃ around m within, ms = around ++ m :: within ∧ around.length = d ∧ m.words name = some w ∧
          ∀ m' ∈ within, m'.words name = none) ∧
      ∀ name t between, s.enter name = .ok t → t.Enclosed s.depth between →
        (serveEach serve between t).2.exit.2 = s := by
  obtain ⟨hreplies, hnests⟩ := serveEach_simulates (R := Nests config.recursionLimit) (fun r _ _ h => h.serve r)
    (nests_of_ofConfig h) rs
  intro limit s ms
  have hlimit : s.limit = limit := hnests.limit_eq
  refine ⟨hreplies, hnests.maps, Nat.le_add_left 1 _, hnests.depth_le, fun name hlt => ?_, fun name hle => ?_,
    s.lookup?_eq, fun name d w => ?_, fun name t between ht hbetween => ?_⟩
  · rw [serve_enter_of_lt (hlimit ▸ hlt), hlimit]
  · exact serve_enter_of_le (hlimit ▸ hle) name
  · rw [lookupDepth?_eq, hnests.maps]
    exact ScopeMap.innermost?_eq_some_iff
  · obtain rfl : t = s.under ⟨name, []⟩ := by
      rcases s.enter_cases name with henter | henter
      · cases ht.symm.trans henter
      · exact Except.ok.inj (ht.symm.trans henter)
    have hover : s.Over (s.under ⟨name, []⟩) := ⟨[⟨name, []⟩], nofun, rfl⟩
    exact hover.exit_serveEach hbetween

/-- The words of a configuration with one alias and a limit of two. -/
def aliasedEnvironment : Environment :=
  { initial with globals := initial.globals.bind "plus" (.operator "plus" .add), limit := 2 }

/-- Under two scopes a third one is refused, and what is defined in the second one goes with it. -/
theorem serveEach_nests_aliased :
    let s := (serveEach serve [.enter "f", .bind "x" (.value "x" 3), .enter "plus", .exit] aliasedEnvironment).2
    let t := s.under ⟨"g", []⟩
    ofConfig { recursionLimit := 2, operators := [("plus", "Add")] } = .ok aliasedEnvironment ∧
      s.depth = 2 ∧ s.lookupDepth? "x" = some (1, .value "x" 3) ∧ t.serve (.enter "h") = (.refused (.recursion 2), t) ∧
      t.Enclosed 2 [.enter "h", .bindAt 2 "x" (.value "x" 5), .enter "h"] ∧
      (serveEach serve [.enter "h", .bindAt 2 "x" (.value "x" 5), .enter "h"] t).2.exit.2 = s := by
  intro s t
  have hconfig : ofConfig { recursionLimit := 2, operators := [("plus", "Add")] } = .ok aliasedEnvironment := rfl
  have hdepth : s.depth = 2 := rfl
  have hrefused : t.serve (.enter "h") = (.refused (.recursion 2), t) := serve_enter_of_lt (by decide) "h"
  have henclosed : t.Enclosed 2 [.enter "h", .bindAt 2 "x" (.value "x" 5), .enter "h"] := by
    refine ⟨nofun, by decide, fun k n w h => ?_, by decide, nofun, by decide, rfl⟩
    cases h
    exact Nat.le_refl 2
  obtain ⟨-, -, -, -, -, -, -, -, hclosed⟩ :=
    serveEach_nests hconfig [.enter "f", .bind "x" (.value "x" 3), .enter "plus", .exit]
  exact ⟨hconfig, hdepth, rfl, hrefused, henclosed, hclosed "g" t _ rfl (hdepth ▸ henclosed)⟩

end Environment

end Linefold
