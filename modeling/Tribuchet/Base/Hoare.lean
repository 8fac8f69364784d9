import Mathlib.Control.Monad.Basic

/-! Programs that change a state and may fail. As in the methods of a struct that
return a `Result`, what was changed before the failure stays changed.
`Ends x s Q E` is the meaning of a specification: started in `s`, the program `x`
returns a value and a state that satisfy `Q`, or fails with an error and a state
that satisfy `E`. A program is verified by the rules below, one for each way it
is composed, and the specification of each callee. -/

namespace Tribuchet.Hoare

variable {σ τ ε α β : Type}

/-- Programs over the state `σ` that fail with `ε`. -/
abbrev Act (σ ε : Type) := ExceptT ε (StateM σ)

/-- The result and the final state. -/
def exec (x : Act σ ε α) (s : σ) : Except ε α × σ := x s

/-- A program on a part of the state. -/
def zoom (get : σ → τ) (set : σ → τ → σ) (x : Act τ ε α) : Act σ ε α := fun s =>
  let (r, t) := exec x (get s)
  (r, set s t)

/-- Run `x` and go on whatever it returns, unless its error is fatal. -/
def ignore (fatal : ε → Bool) (x : Act σ ε α) : Act σ ε Unit :=
  tryCatch (do let _ ← x; pure ()) fun e => if fatal e then throw e else pure ()

theorem bind_eq_ok {x : Except ε α} {f : α → Except ε β} {b : β} :
    x >>= f = .ok b ↔ ∃ a, x = .ok a ∧ f a = .ok b := by
  cases x <;> simp [bind, Except.bind]

def Ends (x : Act σ ε α) (s : σ) (Q : α → σ → Prop) (E : ε → σ → Prop) : Prop :=
  match exec x s with
  | (.ok a, t) => Q a t
  | (.error e, t) => E e t

variable {s : σ} {Q R : α → σ → Prop} {E F : ε → σ → Prop}
variable {x : Act σ ε α}

theorem Ends.ok (h : Ends x s Q E) {a : α} {t : σ} (hx : exec x s = (.ok a, t)) : Q a t := by
  simpa [Ends, hx] using h

theorem Ends.error (h : Ends x s Q E) {e : ε} {t : σ} (hx : exec x s = (.error e, t)) : E e t := by
  simpa [Ends, hx] using h

/-- A program that cannot fail returns. -/
theorem Ends.returns (h : Ends x s Q fun _ _ => False) : ∃ a t, exec x s = (.ok a, t) ∧ Q a t := by
  unfold Ends at h
  split at h
  · rename_i a t hx
    exact ⟨a, t, hx, h⟩
  · exact h.elim

/-! ### Rules -/

theorem Ends.mono (h : Ends x s R F) (hQ : ∀ a t, R a t → Q a t) (hE : ∀ e t, F e t → E e t) : Ends x s Q E := by
  unfold Ends at h ⊢
  split at h
  · exact hQ _ _ h
  · exact hE _ _ h

theorem Ends.imp (h : Ends x s R E) (hQ : ∀ a t, R a t → Q a t) : Ends x s Q E :=
  h.mono hQ fun _ _ he => he

theorem Ends.and (h₁ : Ends x s Q E) (h₂ : Ends x s R F) :
    Ends x s (fun a t => Q a t ∧ R a t) (fun e t => E e t ∧ F e t) := by
  unfold Ends at h₁ h₂ ⊢
  split at h₁
  · rename_i hx
    simp only [hx] at h₂ ⊢
    exact ⟨h₁, h₂⟩
  · rename_i hx
    simp only [hx] at h₂ ⊢
    exact ⟨h₁, h₂⟩

theorem ends_pure {a : α} (h : Q a s) : Ends (pure a : Act σ ε α) s Q E := h

theorem ends_throw {e : ε} (h : E e s) : Ends (throw e : Act σ ε α) s Q E := h

theorem ends_get {Q : σ → σ → Prop} (h : Q s s) : Ends (get : Act σ ε σ) s Q E := h

theorem ends_set {t : σ} {Q : PUnit → σ → Prop} (h : Q ⟨⟩ t) : Ends (set t : Act σ ε PUnit) s Q E := h

theorem ends_modify {f : σ → σ} {Q : PUnit → σ → Prop} (h : Q ⟨⟩ (f s)) : Ends (modify f : Act σ ε PUnit) s Q E := h

theorem exec_bind (x : Act σ ε α) (f : α → Act σ ε β) (s : σ) : exec (x >>= f) s = match exec x s with
      | (.ok a, t) => exec (f a) t
      | (.error e, t) => (.error e, t) := by
  simp only [exec, Bind.bind, ExceptT.bind, ExceptT.mk, StateT.bind, ExceptT.bindCont]
  cases x s with
  | mk r t => cases r <;> rfl

theorem exec_tryCatch (x : Act σ ε α) (h : ε → Act σ ε α) (s : σ) : exec (tryCatch x h) s = match exec x s with
      | (.ok a, t) => (.ok a, t)
      | (.error e, t) => exec (h e) t := by
  simp only [exec, tryCatch, tryCatchThe, MonadExceptOf.tryCatch, ExceptT.tryCatch, ExceptT.mk,
    Bind.bind, StateT.bind]
  cases x s with
  | mk r t => cases r <;> rfl

variable {f : α → Act σ ε β}

/-- What comes next may use how the first part ended. -/
theorem Ends.bind_exec {Q : β → σ → Prop} (h : Ends x s R E)
    (k : ∀ a t, exec x s = (.ok a, t) → R a t → Ends (f a) t Q E) : Ends (x >>= f) s Q E := by
  unfold Ends at h ⊢
  rw [exec_bind]
  cases hx : exec x s with
  | mk r t =>
    rw [hx] at h
    cases r with
    | ok a => exact k a t hx h
    | error e => exact h

theorem Ends.bind {Q : β → σ → Prop} (h : Ends x s R E) (k : ∀ a t, R a t → Ends (f a) t Q E) : Ends (x >>= f) s Q E :=
  h.bind_exec fun a t _ => k a t

theorem ends_get_bind {f : σ → Act σ ε β} {Q : β → σ → Prop} (h : Ends (f s) s Q E) : Ends (get >>= f) s Q E := by
  refine Ends.bind (R := fun a t => a = s ∧ t = s) (ends_get ⟨rfl, rfl⟩) ?_
  rintro a t ⟨rfl, rfl⟩
  exact h

theorem ends_modify_bind {g : σ → σ} {f : PUnit → Act σ ε β} {Q : β → σ → Prop}
    (h : Ends (f ⟨⟩) (g s) Q E) : Ends (modify g >>= f) s Q E := by
  refine Ends.bind (R := fun _ t => t = g s) (ends_modify rfl) ?_
  rintro a t rfl
  exact h

theorem ends_set_bind {t : σ} {f : PUnit → Act σ ε β} {Q : β → σ → Prop} (h : Ends (f ⟨⟩) t Q E) :
    Ends (set t >>= f) s Q E := by
  refine Ends.bind (R := fun _ u => u = t) (ends_set rfl) ?_
  rintro a u rfl
  exact h

theorem Ends.zoom {get : σ → τ} {set : σ → τ → σ} {x : Act τ ε α} {R : α → τ → Prop}
    {F : ε → τ → Prop} (h : Ends x (get s) R F) (hQ : ∀ a t, R a t → Q a (set s t))
    (hE : ∀ e t, F e t → E e (set s t)) : Ends (Hoare.zoom get set x) s Q E := by
  unfold Ends at h ⊢
  have hz : exec (Hoare.zoom get set x) s = ((exec x (get s)).1, set s (exec x (get s)).2) := rfl
  rw [hz]
  cases hx : exec x (get s) with
  | mk r t =>
    rw [hx] at h
    cases r with
    | ok a => exact hQ a t h
    | error e => exact hE e t h

theorem Ends.tryCatch {h : ε → Act σ ε α} (hx : Ends x s Q F)
    (k : ∀ e t, F e t → Ends (h e) t Q E) : Ends (tryCatch x h) s Q E := by
  unfold Ends at hx ⊢
  rw [exec_tryCatch]
  cases he : exec x s with
  | mk r t =>
    rw [he] at hx
    cases r with
    | ok a => exact hx
    | error e => exact k e t hx

theorem Ends.ignore {fatal : ε → Bool} {Q : Unit → σ → Prop}
    (h : Ends x s (fun _ => Q ()) fun e t => if fatal e then E e t else Q () t) :
    Ends (Hoare.ignore fatal x) s Q E := by
  refine Ends.tryCatch (h.bind fun a t ht => ends_pure ht) fun e t ht => ?_
  split_ifs at ht ⊢
  · exact ends_throw ht
  · exact ends_pure ht

/-- The loop rule: `I` relates the elements still to come to the state, and every
turn takes its element off. -/
theorem ends_foldlM {I : List α → β → σ → Prop} {f : β → α → Act σ ε β}
    (step : ∀ x xs b t, I (x :: xs) b t → Ends (f b x) t (I xs) E) {xs : List α} {b : β} {s : σ}
    (hI : I xs b s) : Ends (xs.foldlM f b) s (I []) E := by
  induction xs generalizing b s with
  | nil => exact ends_pure hI
  | cons x xs ih =>
    rw [List.foldlM_cons]
    exact (step x xs b s hI).bind fun _ _ hb => ih hb

/-! ### What holds however a program ends -/

theorem ends_trivial : Ends x s (fun _ _ => True) fun _ _ => True := by
  unfold Ends
  split <;> trivial

/-- Whether it returns or fails, the program leaves a state that satisfies `I`. -/
abbrev Stays (I : σ → Prop) (x : Act σ ε α) (s : σ) : Prop := Ends x s (fun _ t => I t) fun _ t => I t

theorem Stays.bind {I : σ → Prop} (h : Stays I x s) (k : ∀ a t, I t → Stays I (f a) t) : Stays I (x >>= f) s :=
  Ends.bind (R := fun _ t => I t) h k

theorem stays_foldlM {I : σ → Prop} {f : β → α → Act σ ε β} {xs : List α}
    (step : ∀ x ∈ xs, ∀ b t, I t → Stays I (f b x) t) {b : β} (h : I s) : Stays I (xs.foldlM f b) s := by
  refine (ends_foldlM (I := fun rest _ t => (∀ x ∈ rest, x ∈ xs) ∧ I t) (fun x rest b t ht => ?_)
    ⟨fun _ hx => hx, h⟩).mono (fun _ _ ht => ht.2) fun _ _ ht => ht
  exact (step x (ht.1 x List.mem_cons_self) b t ht.2).mono
    (fun _ _ hI => ⟨fun y hy => ht.1 y (List.mem_cons_of_mem _ hy), hI⟩) fun _ _ hI => hI

end Tribuchet.Hoare
