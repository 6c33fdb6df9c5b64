import Mathlib

/-!
# Postconditions for a state monad with errors

`Holds x s Q E` says that `x`, started in `s`, returns with `Q` or fails with
`E`.  In both cases the state that it ends in counts, so that a failure can be
said to come from a state that is as it should be.
-/

namespace Hoare

universe u

variable {ε σ α β : Type u}

def Holds (x : EStateM ε σ α) (s : σ) (Q : α → σ → Prop) (E : ε → σ → Prop) : Prop :=
  match x s with
  | .ok a t => Q a t
  | .error e t => E e t

instance (x : EStateM ε σ α) (s : σ) (Q : α → σ → Prop) (E : ε → σ → Prop)
    [∀ a t, Decidable (Q a t)] [∀ e t, Decidable (E e t)] :
    Decidable (Holds x s Q E) := by
  unfold Holds
  split <;> infer_instance

variable {s : σ} {Q R : α → σ → Prop} {E F : ε → σ → Prop}

theorem pure {a : α} (h : Q a s) : Holds (pure a) s Q E := h

theorem throw {e : ε} (h : E e s) : Holds (throw e : EStateM ε σ α) s Q E := h

theorem get_bind {f : σ → EStateM ε σ α} (h : Holds (f s) s Q E) : Holds (get >>= f) s Q E := h

theorem set {t : σ} {Q : PUnit → σ → Prop} (h : Q ⟨⟩ t) :
    Holds (set t : EStateM ε σ PUnit) s Q E := h

theorem modify {f : σ → σ} {Q : PUnit → σ → Prop} (h : Q ⟨⟩ (f s)) :
    Holds (modify f : EStateM ε σ PUnit) s Q E := h

variable {f : α → EStateM ε σ β} {x : EStateM ε σ α}

theorem mono (h : Holds x s Q E) (hQ : ∀ a t, Q a t → R a t)
    (hE : ∀ e t, E e t → F e t) : Holds x s R F := by
  unfold Holds at h ⊢
  cases hx : x s with
  | ok a t =>
    rw [hx] at h
    exact hQ a t h
  | error e t =>
    rw [hx] at h
    exact hE e t h

theorem bind {Q : β → σ → Prop} (hx : Holds x s R E)
    (hf : ∀ a t, R a t → Holds (f a) t Q E) : Holds (x >>= f) s Q E := by
  unfold Holds at hx
  change Holds (EStateM.bind x f) s Q E
  unfold Holds EStateM.bind
  cases hr : x s with
  | ok a t =>
    rw [hr] at hx
    exact hf a t hx
  | error e t =>
    rw [hr] at hx
    exact hx

theorem modify_bind {g : σ → σ} {f : PUnit → EStateM ε σ α} (h : Holds (f ⟨⟩) (g s) Q E) :
    Holds (modifyGet (fun s => (⟨⟩, g s)) >>= f) s Q E := h

theorem bind_ok {Q : β → σ → Prop} {a : α} {t : σ} (hx : x s = .ok a t)
    (hf : Holds (f a) t Q E) : Holds (x >>= f) s Q E := by
  change Holds (EStateM.bind x f) s Q E
  unfold Holds EStateM.bind
  rw [hx]
  exact hf

theorem seq {Q : β → σ → Prop} (hx : Holds x s R F) (hE : ∀ e t, F e t → E e t)
    (hf : ∀ a t, R a t → Holds (f a) t Q E) : Holds (x >>= f) s Q E :=
  bind (mono hx (fun _ _ h => h) hE) hf

theorem trivial (x : EStateM ε σ α) (s : σ) : Holds x s (fun _ _ => True) (fun _ _ => True) := by
  unfold Holds
  split <;> exact True.intro

theorem of_ok {a : α} {t : σ} (h : Holds x s Q E) (hx : x s = .ok a t) : Q a t := by
  unfold Holds at h
  rw [hx] at h
  exact h

theorem of_error {e : ε} {t : σ} (h : Holds x s Q E) (hx : x s = .error e t) : E e t := by
  unfold Holds at h
  rw [hx] at h
  exact h

theorem exists_of_run' {a : α} (h : x.run' s = some a) : ∃ t, x s = .ok a t := by
  unfold EStateM.run' EStateM.run at h
  cases hx : x s with
  | ok b t =>
    rw [hx] at h
    cases h
    exact ⟨t, rfl⟩
  | error e t =>
    rw [hx] at h
    contradiction

/-! ## Relations between the states before and after -/

/-- `x` always ends in a state that `r` relates to the one it started in. -/
def Always (r : σ → σ → Prop) (x : EStateM ε σ α) : Prop :=
  ∀ s, Holds x s (fun _ t => r s t) (fun _ t => r s t)

namespace Always

variable {r : σ → σ → Prop}

theorem pure (hrefl : ∀ s, r s s) (a : α) : Always r (Pure.pure a : EStateM ε σ α) :=
  fun s => hrefl s

theorem throw (hrefl : ∀ s, r s s) (e : ε) : Always r (MonadExcept.throw e : EStateM ε σ α) :=
  fun s => hrefl s

theorem modify {f : σ → σ} (h : ∀ s, r s (f s)) :
    Always r (modifyGet fun s => (⟨⟩, f s) : EStateM ε σ PUnit) :=
  fun s => h s

theorem get_bind {f : σ → EStateM ε σ α} (h : ∀ a, Always r (f a)) : Always r (get >>= f) :=
  fun s => h s s

theorem bind (htrans : ∀ a b c, r a b → r b c → r a c) {x : EStateM ε σ α}
    {f : α → EStateM ε σ β} (hx : Always r x) (hf : ∀ a, Always r (f a)) : Always r (x >>= f) := by
  intro s
  refine Hoare.bind (hx s) ?_
  intro a t hst
  exact Hoare.mono (hf a t) (fun _ u htu => htrans s t u hst htu)
    (fun _ u htu => htrans s t u hst htu)

end Always

end Hoare
