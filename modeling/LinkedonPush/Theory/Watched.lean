import LinkedonPush.Theory.Reading

/-!
# Watching a suspended computation

The same trees as in `Reading`, with a state shown at chosen moments and at every read. Forgetting
what is shown gives the plain computation back, so what holds of the shown states holds at those
moments of the computation itself.
-/

namespace Theory

inductive Watched (σ ε β α : Type) where
  | done (result : α)
  /-- An assertion of the computation failed. -/
  | abort
  | moment (s : σ) (rest : Watched σ ε β α)
  | need (s : σ) (size : Nat) (resume : Delivery ε β → Watched σ ε β α)

namespace Watched

variable {σ ε β α γ : Type}

def bind : Watched σ ε β α → (α → Watched σ ε β γ) → Watched σ ε β γ
  | done result, next => next result
  | abort, _ => abort
  | moment s rest, next => moment s (rest.bind next)
  | need s size resume, next => need s size fun d => (resume d).bind next

instance : Monad (Watched σ ε β) where
  pure := done
  bind := bind

def assert (condition : Prop) [Decidable condition] : Watched σ ε β Unit :=
  if condition then done () else abort

/-- Show a state. -/
def mark (s : σ) : Watched σ ε β Unit := moment s (done ())

/-! ### Forgetting what is shown -/

def forget : Watched σ ε β α → Reading ε β α
  | done result => .done result
  | abort => .abort
  | moment _ rest => rest.forget
  | need _ size resume => .need size fun d => (resume d).forget

theorem forget_bind (r : Watched σ ε β α) (next : α → Watched σ ε β γ) :
    (r >>= next).forget = r.forget >>= fun result => (next result).forget := by
  induction r with
  | done result => rfl
  | abort => rfl
  | moment s rest ih => exact ih
  | need s size resume ih =>
      change Reading.need size _ = Reading.need size _
      congr 1
      funext d
      exact ih d

/-- Without what is shown, and with its results seen through `view`, the computation is the plain
one. -/
def Erases {δ : Type} (view : α → δ) (r : Watched σ ε β α) (plain : Reading ε β δ) : Prop :=
  (r.forget >>= fun result => pure (view result)) = plain

section

variable {δ δ' : Type} {view : α → δ} {view' : γ → δ'}

theorem erases_pure (result : α) :
    Erases view (pure result : Watched σ ε β α) (pure (view result)) := rfl

theorem erases_abort : Erases view (abort : Watched σ ε β α) .abort := rfl

theorem Erases.mark {r : Watched σ ε β α} {plain : Reading ε β δ} (h : Erases view r plain) (s : σ) :
    Erases view (mark s >>= fun _ => r) plain := h

theorem erases_bind {r : Watched σ ε β α} {plain : Reading ε β δ} {next : α → Watched σ ε β γ}
    {plainNext : δ → Reading ε β δ'} (hr : Erases view r plain)
    (hnext : ∀ result, Erases view' (next result) (plainNext (view result))) :
    Erases view' (r >>= next) (plain >>= plainNext) := by
  unfold Erases at hr hnext ⊢
  rw [forget_bind, Reading.bind_assoc, ← hr, Reading.bind_assoc]
  congr 1
  funext result
  exact hnext result

theorem Erases.ite {condition : Prop} [Decidable condition] {r r' : Watched σ ε β α}
    {plain plain' : Reading ε β δ} (hthen : condition → Erases view r plain)
    (helse : ¬ condition → Erases view r' plain') :
    Erases view (if condition then r else r') (if condition then plain else plain') := by
  by_cases hcondition : condition
  · rw [if_pos hcondition, if_pos hcondition]
    exact hthen hcondition
  · rw [if_neg hcondition, if_neg hcondition]
    exact helse hcondition

theorem Erases.assert {condition : Prop} [Decidable condition] {r : Watched σ ε β α}
    {plain : Reading ε β δ} (h : Erases view r plain) :
    Erases view (assert condition >>= fun _ => r) (Reading.assert condition >>= fun _ => plain) := by
  have hassert : Erases id (Watched.assert condition : Watched σ ε β Unit) (Reading.assert condition) :=
    .ite (fun _ => erases_pure ()) fun _ => erases_abort
  exact erases_bind hassert fun _ => h

end

/-! ### What holds all along

The invariant sees every shown state together with the reads made until then; a read may ask for no
more than the state has room for. -/

/-- Whatever the reads give, the invariant holds of every shown state, every read is in bounds, no
assertion fails and the result satisfies the postcondition. -/
def Always (inv : σ → List (Delivery ε β) → Prop) (room : σ → Nat → Prop)
    (post : α → List (Delivery ε β) → Prop) : Watched σ ε β α → List (Delivery ε β) → Prop
  | done result, history => post result history
  | abort, _ => False
  | moment s rest, history => inv s history ∧ Always inv room post rest history
  | need s size resume, history =>
      inv s history ∧ room s size ∧
        ∀ d : Delivery ε β, d.Allowed size → Always inv room post (resume d) (history ++ [d])

section

variable {inv : σ → List (Delivery ε β) → Prop} {room : σ → Nat → Prop}
  {post : α → List (Delivery ε β) → Prop} {history : List (Delivery ε β)}

theorem always_bind {post : γ → List (Delivery ε β) → Prop} {r : Watched σ ε β α}
    {next : α → Watched σ ε β γ}
    (h : Always inv room (fun result history => Always inv room post (next result) history) r history) :
    Always inv room post (r >>= next) history := by
  induction r generalizing history with
  | done result => exact h
  | abort => exact h
  | moment s rest ih => exact ⟨h.1, ih h.2⟩
  | need s size resume ih => exact ⟨h.1, h.2.1, fun d hd => ih d (h.2.2 d hd)⟩

theorem Always.mono {weaker : α → List (Delivery ε β) → Prop} {r : Watched σ ε β α}
    (h : Always inv room post r history)
    (himp : ∀ result history, post result history → weaker result history) :
    Always inv room weaker r history := by
  induction r generalizing history with
  | done result => exact himp result history h
  | abort => exact h
  | moment s rest ih => exact ⟨h.1, ih h.2⟩
  | need s size resume ih => exact ⟨h.1, h.2.1, fun d hd => ih d (h.2.2 d hd)⟩

theorem Always.ite {condition : Prop} [Decidable condition] {r r' : Watched σ ε β α}
    (hthen : condition → Always inv room post r history)
    (helse : ¬ condition → Always inv room post r' history) :
    Always inv room post (if condition then r else r') history := by
  by_cases hcondition : condition
  · rw [if_pos hcondition]
    exact hthen hcondition
  · rw [if_neg hcondition]
    exact helse hcondition

theorem always_assert {condition : Prop} [Decidable condition]
    {post : Unit → List (Delivery ε β) → Prop} (hcondition : condition) (hpost : post () history) :
    Always inv room post (assert condition) history := by
  unfold assert
  rw [if_pos hcondition]
  exact hpost

theorem always_mark {s : σ} {post : Unit → List (Delivery ε β) → Prop} (hinv : inv s history)
    (hpost : post () history) : Always inv room post (mark s) history :=
  ⟨hinv, hpost⟩

end

end Watched

end Theory
