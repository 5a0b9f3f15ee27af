import Mathlib.Tactic.Common

namespace Nixie.Budget

variable {ε α β : Type}

abbrev Work (ε α : Type) := StateT ℕ (Except ε) α

def spend (limit : ε) : Work ε Unit := fun budget =>
  match budget with
  | 0 => .error limit
  | budget + 1 => .ok ((), budget)

def Ensures (m : Work ε α) (P : α → Prop) : Prop :=
  ∀ budget a left, m budget = .ok (a, left) → P a

namespace Ensures

variable {m : Work ε α} {f : α → Work ε β} {P Q : α → Prop} {R : β → Prop}

theorem mono (h : Ensures m P) (hPQ : ∀ a, P a → Q a) : Ensures m Q :=
  fun budget a left hrun => hPQ a (h budget a left hrun)

theorem pure {a : α} (h : P a) : Ensures (Pure.pure a : Work ε α) P := by
  intro budget b left hrun
  have heq : (Except.ok (a, budget) : Except ε (α × ℕ)) = .ok (b, left) := hrun
  cases heq
  exact h

theorem throw (e : ε) : Ensures (MonadExcept.throw e : Work ε α) P := by
  intro budget a left hrun
  have heq : (Except.error e : Except ε (α × ℕ)) = .ok (a, left) := hrun
  cases heq

theorem bind (hm : Ensures m P) (hf : ∀ a, P a → Ensures (f a) R) : Ensures (m >>= f) R := by
  intro budget b left hrun
  have hbind : (m budget).bind (fun r => f r.1 r.2) = .ok (b, left) := hrun
  cases hresult : m budget with
  | error e =>
    rw [hresult] at hbind
    cases hbind
  | ok r =>
    rw [hresult] at hbind
    exact hf r.1 (hm budget r.1 r.2 hresult) r.2 b left hbind

theorem spend_bind {limit : ε} {f : Unit → Work ε β} (h : Ensures (f ()) R) : Ensures (spend limit >>= f) R :=
  bind (P := fun _ => True) (fun _ _ _ _ => trivial) fun _ _ => h

theorem ite {c : Prop} [Decidable c] {m' : Work ε α} (ht : c → Ensures m P) (hf : ¬ c → Ensures m' P) :
    Ensures (if c then m else m') P := by
  split
  · next hc => exact ht hc
  · next hc => exact hf hc

end Ensures

end Nixie.Budget
