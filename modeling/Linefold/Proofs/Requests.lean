/-!
# Requests and replies

A machine takes requests one after the other and gives a reply to each. Two machines whose states stay related
request by request cannot be told apart by their replies (`serveEach_simulates`).
-/

namespace Linefold

variable {α β σ τ : Type}

/-- The replies to some requests, and the state after them. -/
def serveEach (f : α → σ → β × σ) : List α → σ → List β × σ
  | [], s => ([], s)
  | a :: as, s => ((f a s).1 :: (serveEach f as (f a s).2).1, (serveEach f as (f a s).2).2)

theorem serveEach_simulates {f : α → σ → β × σ} {g : α → τ → β × τ} {R : σ → τ → Prop}
    (hstep : ∀ a s t, R s t → (f a s).1 = (g a t).1 ∧ R (f a s).2 (g a t).2) {s : σ} {t : τ} (h : R s t) (as : List α) :
    (serveEach f as s).1 = (serveEach g as t).1 ∧ R (serveEach f as s).2 (serveEach g as t).2 := by
  induction as generalizing s t with
  | nil => exact ⟨rfl, h⟩
  | cons a as ih =>
    obtain ⟨hreply, hstate⟩ := hstep a s t h
    obtain ⟨hreplies, hstates⟩ := ih hstate
    exact ⟨List.cons_eq_cons.2 ⟨hreply, hreplies⟩, hstates⟩

end Linefold
