import Rxv6.Lib.Runs

namespace Rxv6.Lib.Program

variable {Op : Type} {Res : Op → Type} {σ α β : Type}

/-- A sequential program as a tree of calls to atomic operations. `Res op` is the type
of the answer to the operation `op`. -/
inductive Prog (Res : Op → Type) (α : Type) : Type
  | ret (a : α)
  | call (op : Op) (k : Res op → Prog Res α)

namespace Prog

def bind : Prog Res α → (α → Prog Res β) → Prog Res β
  | ret a, f => f a
  | call op k, f => call op fun r ↦ bind (k r) f

instance : Monad (Prog Res) where
  pure := ret
  bind := bind

def perform (op : Op) : Prog Res (Res op) := call op ret

variable (sem : (op : Op) → σ → Res op × σ)

def run : Prog Res α → σ → α × σ
  | ret a, s => (a, s)
  | call op k, s => run (k (sem op s).1) (sem op s).2

/-- Weakest precondition. As long as the guard `G` accepts every operation, each state
after an operation satisfies `J` and the result satisfies `Q`. -/
def wp (G : Op → σ → Prop) (J : σ → Prop) : Prog Res α → (α → σ → Prop) → σ → Prop
  | ret a, Q, s => Q a s
  | call op k, Q, s =>
    G op s → J (sem op s).2 ∧ wp G J (k (sem op s).1) Q (sem op s).2

variable {sem} {G : Op → σ → Prop} {J : σ → Prop} {Q Q' : α → σ → Prop} {s : σ} {f : α → Prog Res β}
  {P : Op → Prop}

@[simp] theorem pure_eq (a : α) : (pure a : Prog Res α) = ret a := rfl

@[simp] theorem ret_bind (a : α) (f : α → Prog Res β) : (ret a >>= f) = f a := rfl

@[simp] theorem run_bind (p : Prog Res α) (f : α → Prog Res β) :
    run sem (p >>= f) s = run sem (f (run sem p s).1) (run sem p s).2 := by
  induction p generalizing s with
  | ret a => rfl
  | call op k ih => exact ih (sem op s).1

section

variable {p : Prog Res α}

theorem wp_bind {Q : β → σ → Prop} :
    wp sem G J (p >>= f) Q s ↔ wp sem G J p (fun a t ↦ wp sem G J (f a) Q t) s := by
  induction p generalizing s with
  | ret a => rfl
  | call op k ih =>
    exact ⟨fun h hg ↦ ⟨(h hg).1, (ih _).mp (h hg).2⟩, fun h hg ↦ ⟨(h hg).1, (ih _).mpr (h hg).2⟩⟩

theorem wp_mono (h : wp sem G J p Q s) (hQ : ∀ a t, Q a t → Q' a t) :
    wp sem G J p Q' s := by
  induction p generalizing s with
  | ret a => exact hQ a s h
  | call op k ih => exact fun hg ↦ ⟨(h hg).1, ih _ (h hg).2⟩

theorem wp_and (h : wp sem G J p Q s) (h' : wp sem G J p Q' s) :
    wp sem G J p (fun a t ↦ Q a t ∧ Q' a t) s := by
  induction p generalizing s with
  | ret a => exact ⟨h, h'⟩
  | call op k ih => exact fun hg ↦ ⟨(h hg).1, ih _ (h hg).2 (h' hg).2⟩

theorem wp_true : wp sem G (fun _ ↦ True) p (fun _ _ ↦ True) s := by
  induction p generalizing s with
  | ret a => trivial
  | call op k ih => exact fun _ ↦ ⟨trivial, ih _⟩

theorem run_of_wp (h : wp sem (fun _ _ ↦ True) J p Q s) :
    Q (run sem p s).1 (run sem p s).2 := by
  induction p generalizing s with
  | ret a => exact h
  | call op k ih => exact ih _ (h trivial).2

theorem wp_of_run (h : Q (run sem p s).1 (run sem p s).2) :
    wp sem G (fun _ ↦ True) p Q s := by
  induction p generalizing s with
  | ret a => exact h
  | call op k ih => exact fun _ ↦ ⟨trivial, ih _ h⟩

end

/-- Every operation that the program can perform satisfies `P`. -/
def Only (P : Op → Prop) : Prog Res α → Prop
  | ret _ => True
  | call op k => P op ∧ ∀ r, Only P (k r)

theorem Only.bind {p : Prog Res α} (h : Only P p) (hf : ∀ a, Only P (f a)) :
    Only P (p >>= f) := by
  induction p with
  | ret a => exact hf a
  | call op k ih => exact ⟨h.1, fun r ↦ ih r (h.2 r)⟩

theorem Only.invariant {p : Prog Res α} (hJ : ∀ op s, P op → J s → J (sem op s).2)
    (h : Only P p) (hs : J s) : J (run sem p s).2 := by
  induction p generalizing s with
  | ret a => exact hs
  | call op k ih => exact ih _ (h.2 _) (hJ op s h.1 hs)

end Prog

end Rxv6.Lib.Program
