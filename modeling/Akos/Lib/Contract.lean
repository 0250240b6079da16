import Mathlib.Tactic.TypeStar

/-!
# Contracts of programs that may fail

A program reads and changes a state and may stop. Its contract from a state says for which reasons it may stop there,
and what holds of its result and of the state it leaves when it does not. The rules follow how the program is put
together.
-/

namespace Contract

variable {σ ε α β : Type} {ok : ε → Prop} {m : StateT σ (Except ε) α} {f : α → StateT σ (Except ε) β} {s : σ}
  {post mid : α → σ → Prop} {post' : β → σ → Prop}

/-- The program stops for a reason that is allowed, or it ends and the condition holds. -/
def Ends (ok : ε → Prop) (m : StateT σ (Except ε) α) (s : σ) (post : α → σ → Prop) : Prop :=
  (∃ e, ok e ∧ m s = .error e) ∨ ∃ a s', m s = .ok (a, s') ∧ post a s'

theorem bind_of_read {a : α} (h : m s = .ok (a, s)) : (m >>= f) s = f a s := by
  have hbind : (m >>= f) s = Except.bind (m s) fun p => f p.1 p.2 := rfl
  rw [hbind, h]
  rfl

namespace Ends

theorem of_eq {a : α} {s' : σ} (h : m s = .ok (a, s')) (hpost : post a s') : Ends ok m s post := .inr ⟨a, s', h, hpost⟩

theorem pure {a : α} (h : post a s) : Ends ok (Pure.pure a : StateT σ (Except ε) α) s post := .inr ⟨a, s, rfl, h⟩

theorem mono (h : Ends ok m s mid) (hle : ∀ a s', mid a s' → post a s') : Ends ok m s post := by
  obtain hstop | ⟨a, s', hm, hmid⟩ := h
  · exact .inl hstop
  · exact .inr ⟨a, s', hm, hle a s' hmid⟩

/-- One program behind another. -/
theorem bind (h : Ends ok m s mid) (hf : ∀ a s', mid a s' → Ends ok (f a) s' post') : Ends ok (m >>= f) s post' := by
  have hbind : (m >>= f) s = Except.bind (m s) fun p => f p.1 p.2 := rfl
  obtain ⟨e, he, hm⟩ | ⟨a, s', hm, hmid⟩ := h
  · refine .inl ⟨e, he, ?_⟩
    rw [hbind, hm]
    rfl
  · rw [hm] at hbind
    obtain ⟨e, he, hfa⟩ | ⟨b, s'', hfa, hpost⟩ := hf a s' hmid
    · exact .inl ⟨e, he, hbind.trans hfa⟩
    · exact .inr ⟨b, s'', hbind.trans hfa, hpost⟩

/-- A program that leaves the state as it is, and another one behind it. -/
theorem read {a : α} (h : m s = .ok (a, s)) (hf : Ends ok (f a) s post') : Ends ok (m >>= f) s post' := by
  rwa [Ends, bind_of_read h]

theorem ite {c : Prop} [Decidable c] {m' : StateT σ (Except ε) α} (h : c → Ends ok m s post)
    (h' : ¬c → Ends ok m' s post) : Ends ok (if c then m else m') s post := by
  split
  · exact h ‹c›
  · exact h' ‹¬c›

/-- Where no reason is allowed the program ends. -/
theorem exists_eq (h : Ends (fun _ => False) m s post) : ∃ a s', m s = .ok (a, s') ∧ post a s' := by
  obtain ⟨e, he, -⟩ | hends := h
  · exact he.elim
  · exact hends

end Ends

end Contract
