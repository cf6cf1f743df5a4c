import Mathlib

/-!
# Steps with a state that may fail

What it means for a step of `EStateM` to succeed, one lemma for each way to put steps together. A
chain of steps that succeeded is taken apart with these from the front. Then the same for two runs
side by side, and for steps without a state.
-/

namespace Codewright.Steps

variable {ε σ α β : Type} {s s' : σ}

/-- Two steps in a row: the second starts where the first ends, unless that fails. -/
theorem bind_apply (x : EStateM ε σ α) (f : α → EStateM ε σ β) (s : σ) :
    (x >>= f) s = match x s with
      | .ok a s' => f a s'
      | .error e s' => .error e s' := by
  show EStateM.bind x f s = _
  unfold EStateM.bind
  cases x s <;> rfl

variable {x : EStateM ε σ α} {f : α → EStateM ε σ β} {a : α} {b : β} {e : ε}

theorem bind_of_ok (h : x s = .ok a s') : (x >>= f) s = f a s' := by
  rw [bind_apply, h]

/-- A chain succeeds just when both of its steps do. -/
theorem bind_eq_ok : (x >>= f) s = .ok b s' ↔ ∃ a s₁, x s = .ok a s₁ ∧ f a s₁ = .ok b s' := by
  rw [bind_apply]
  cases x s <;> simp

/-- A chain fails in its first step or, after that succeeded, in its second. -/
theorem bind_eq_error :
    (x >>= f) s = .error e s' ↔
      x s = .error e s' ∨ ∃ a s₁, x s = .ok a s₁ ∧ f a s₁ = .error e s' := by
  rw [bind_apply]
  cases x s <;> simp

theorem pure_eq_ok {b : α} : (pure a : EStateM ε σ α) s = .ok b s' ↔ a = b ∧ s = s' := by
  show EStateM.Result.ok a s = _ ↔ _
  simp

theorem throw_ne_ok {b : α} : ¬ (throw e : EStateM ε σ α) s = .ok b s' :=
  nofun

theorem get_eq_ok {b : σ} : (get : EStateM ε σ σ) s = .ok b s' ↔ s = b ∧ s = s' := by
  show EStateM.Result.ok s s = _ ↔ _
  simp

theorem modify_eq_ok {f : σ → σ} {u : Unit} :
    (modify f : EStateM ε σ Unit) s = .ok u s' ↔ f s = s' := by
  show EStateM.Result.ok () (f s) = _ ↔ _
  simp

/-- A change of the state always succeeds, and this is what comes of it. -/
theorem modifyGet_eq_ok {f : σ → α × σ} :
    (modifyGet f : EStateM ε σ α) s = .ok a s' ↔ (f s).1 = a ∧ (f s).2 = s' := by
  show EStateM.Result.ok (f s).1 (f s).2 = _ ↔ _
  simp

/-- What comes after a check that refuses `c`. -/
theorem guard_eq_ok {c : Prop} [Decidable c] {k : α → EStateM ε σ β} {g : EStateM ε σ β} :
    (if c then throw e >>= k else g) s = .ok b s' ↔ ¬ c ∧ g s = .ok b s' := by
  split
  · next h => simp [bind_eq_ok, throw_ne_ok, h]
  · next h => simp [h]

/-- What comes after a check that asks for `c`. -/
theorem unless_eq_ok {c : Prop} [Decidable c] {k : α → EStateM ε σ β} {g : EStateM ε σ β} :
    (if c then g else throw e >>= k) s = .ok b s' ↔ c ∧ g s = .ok b s' := by
  split
  · next h => simp [h]
  · next h => simp [bind_eq_ok, throw_ne_ok, h]

/-! ## Two runs side by side -/

section Agreement

variable {ε' τ γ δ : Type}

/-- Two outcomes correspond: both are values or both are errors, and the states after them
correspond too. -/
inductive Correspond (E : ε → ε' → Prop) (S : σ → τ → Prop) (R : α → β → Prop) :
    EStateM.Result ε σ α → EStateM.Result ε' τ β → Prop
  | ok {a : α} {b : β} {s : σ} {t : τ} (hr : R a b) (hs : S s t) :
    Correspond E S R (.ok a s) (.ok b t)
  | error {e : ε} {e' : ε'} {s : σ} {t : τ} (he : E e e') (hs : S s t) :
    Correspond E S R (.error e s) (.error e' t)

/-- Two steps agree: from states that correspond they come to outcomes that do. -/
def Agree (E : ε → ε' → Prop) (S : σ → τ → Prop) (R : α → β → Prop) (x : EStateM ε σ α)
    (y : EStateM ε' τ β) : Prop :=
  ∀ s t, S s t → Correspond E S R (x s) (y t)

namespace Agree

variable {E : ε → ε' → Prop} {S : σ → τ → Prop} {R : α → β → Prop} {Q : γ → δ → Prop}
  {x : EStateM ε σ γ} {y : EStateM ε' τ δ} {f : γ → EStateM ε σ α} {g : δ → EStateM ε' τ β}

/-- A run that succeeds has a value and a state that the other run's correspond to. -/
theorem of_ok {s s' : σ} {t : τ} {x : EStateM ε σ α} {y : EStateM ε' τ β} {a : α}
    (h : Agree E S R x y) (hs : S s t) (hx : x s = .ok a s') : ∃ b t', R a b ∧ S s' t' := by
  have hrun := h s t hs
  rw [hx] at hrun
  generalize y t = outcome at hrun
  cases hrun with
  | ok hr hs => exact ⟨_, _, hr, hs⟩

/-- A run that fails has an error that the other run's corresponds to. -/
theorem of_error {s s' : σ} {t : τ} {x : EStateM ε σ α} {y : EStateM ε' τ β} {e : ε}
    (h : Agree E S R x y) (hs : S s t) (hx : x s = .error e s') : ∃ e' t', E e e' ∧ S s' t' := by
  have hrun := h s t hs
  rw [hx] at hrun
  generalize y t = outcome at hrun
  cases hrun with
  | error he hs => exact ⟨_, _, he, hs⟩

theorem imp {E' : ε → ε' → Prop} {x : EStateM ε σ α} {y : EStateM ε' τ β} (h : Agree E S R x y)
    (hE : ∀ {e e'}, E e e' → E' e e') : Agree E' S R x y := by
  intro s t hs
  have hrun := h s t hs
  generalize x s = outcome at hrun ⊢
  generalize y t = outcome' at hrun ⊢
  cases hrun with
  | ok hr hs => exact .ok hr hs
  | error he hs => exact .error (hE he) hs

theorem pure {a : α} {b : β} (h : R a b) :
    Agree E S R (Pure.pure a : EStateM ε σ α) (Pure.pure b : EStateM ε' τ β) :=
  fun _ _ hs => .ok h hs

theorem throw {e : ε} {e' : ε'} (h : E e e') :
    Agree E S R (MonadExcept.throw e : EStateM ε σ α) (MonadExcept.throw e' : EStateM ε' τ β) :=
  fun _ _ hs => .error h hs

theorem get : Agree E S S (get : EStateM ε σ σ) (get : EStateM ε' τ τ) :=
  fun _ _ hs => .ok hs hs

theorem modify {f : σ → σ} {g : τ → τ} (h : ∀ s t, S s t → S (f s) (g t)) :
    Agree E S Eq (modify f : EStateM ε σ Unit) (modify g : EStateM ε' τ Unit) :=
  fun s t hs => .ok rfl (h s t hs)

theorem modifyGet {f : σ → α × σ} {g : τ → β × τ}
    (h : ∀ s t, S s t → R (f s).1 (g t).1 ∧ S (f s).2 (g t).2) :
    Agree E S R (modifyGet f : EStateM ε σ α) (modifyGet g : EStateM ε' τ β) :=
  fun s t hs => .ok (h s t hs).1 (h s t hs).2

/-- Chains agree if their first steps do, and their second steps on values that correspond. -/
theorem bind (hx : Agree E S Q x y) (hf : ∀ a b, Q a b → Agree E S R (f a) (g b)) :
    Agree E S R (x >>= f) (y >>= g) := by
  intro s t hs
  rw [bind_apply, bind_apply]
  have h := hx s t hs
  generalize x s = outcome at h
  generalize y t = outcome' at h
  cases h with
  | ok hr hs => exact hf _ _ hr _ _ hs
  | error he hs => exact .error he hs

/-- Chains agree if their first steps come to the same value, and their second steps on that. -/
theorem andThen {y : EStateM ε' τ γ} {g : γ → EStateM ε' τ β} (hx : Agree E S Eq x y)
    (hf : ∀ a, Agree E S R (f a) (g a)) : Agree E S R (x >>= f) (y >>= g) :=
  hx.bind fun a _ hab => hab ▸ hf a

/-- Choices agree if they are made alike. -/
theorem ite {c c' : Prop} [Decidable c] [Decidable c'] {x x' : EStateM ε σ α}
    {y y' : EStateM ε' τ β} (hc : c ↔ c') (h : Agree E S R x y) (h' : Agree E S R x' y') :
    Agree E S R (if c then x else x') (if c' then y else y') := by
  by_cases hif : c
  · rw [if_pos hif, if_pos (hc.mp hif)]
    exact h
  · rw [if_neg hif, if_neg fun hif' => hif (hc.mpr hif')]
    exact h'

section

variable {c c' : Prop} [Decidable c] [Decidable c'] {e : ε} {e' : ε'} {k : γ → EStateM ε σ α}
  {k' : δ → EStateM ε' τ β} {x : EStateM ε σ α} {y : EStateM ε' τ β}

/-- Two checks that refuse the same agree. -/
theorem guard (hc : c ↔ c') (he : E e e') (h : Agree E S R x y) :
    Agree E S R (if c then MonadExcept.throw e >>= k else x)
      (if c' then MonadExcept.throw e' >>= k' else y) :=
  ite hc (fun _ _ hs => .error he hs) h

/-- Two checks that ask for the same agree. -/
theorem require (hc : c ↔ c') (he : E e e') (h : Agree E S R x y) :
    Agree E S R (if c then x else MonadExcept.throw e >>= k)
      (if c' then y else MonadExcept.throw e' >>= k') :=
  ite hc h fun _ _ hs => .error he hs

end

/-- Rounds over two lists agree if each two of them do. -/
theorem forM {as : List γ} {h : γ → δ} {f : γ → EStateM ε σ Unit} {g : δ → EStateM ε' τ Unit}
    (hf : ∀ a, Agree E S Eq (f a) (g (h a))) : Agree E S Eq (as.forM f) ((as.map h).forM g) := by
  induction as with
  | nil => exact pure rfl
  | cons a as ih => exact (hf a).bind fun _ _ _ => ih

end Agree

end Agreement

/-! ## Without a state -/

/-- Two outcomes match: both are values or both are errors. -/
inductive Matched {ε' : Type} (E : ε → ε' → Prop) (R : α → β → Prop) : Except ε α →
    Except ε' β → Prop
  | ok {a : α} {b : β} (h : R a b) : Matched E R (.ok a) (.ok b)
  | error {e : ε} {e' : ε'} (h : E e e') : Matched E R (.error e) (.error e')

/-- Rounds over two lists match if each two of them do. -/
theorem Matched.forM {ε' : Type} {E : ε → ε' → Prop} {as : List α} {h : α → β}
    {f : α → Except ε Unit} {g : β → Except ε' Unit} (hf : ∀ a, Matched E Eq (f a) (g (h a))) :
    Matched E Eq (as.forM f) ((as.map h).forM g) := by
  induction as with
  | nil => exact .ok rfl
  | cons a as ih =>
    show Matched E Eq (f a >>= fun _ => as.forM f) (g (h a) >>= fun _ => (as.map h).forM g)
    have hround := hf a
    generalize f a = outcome at hround
    generalize g (h a) = outcome' at hround
    cases hround with
    | ok => exact ih
    | error he => exact .error he

/-- What matches the same outcome matches. -/
theorem Matched.join {E : ε → ε → Prop} {R : α → α → Prop} {x y z : Except ε α}
    (hE : ∀ e e' e'', E e e'' → E e' e'' → E e e') (hR : ∀ a b c, R a c → R b c → R a b)
    (hx : Matched E R x z) (hy : Matched E R y z) : Matched E R x y := by
  cases hx with
  | ok hx =>
    cases hy with
    | ok hy => exact .ok (hR _ _ _ hx hy)
  | error hx =>
    cases hy with
    | error hy => exact .error (hE _ _ _ hx hy)

theorem except_bind_eq_ok {x : Except ε α} {f : α → Except ε β} :
    (x >>= f) = .ok b ↔ ∃ a, x = .ok a ∧ f a = .ok b := by
  cases x with
  | error e => exact ⟨nofun, nofun⟩
  | ok a => exact ⟨fun h => ⟨a, rfl, h⟩, fun ⟨_, rfl, h⟩ => h⟩

/-- A list is worked off without an error just when each of its entries is. -/
theorem mapM_eq_ok {f : α → Except ε β} {as : List α} {bs : List β} :
    as.mapM f = .ok bs ↔ List.Forall₂ (fun a b => f a = .ok b) as bs := by
  induction as generalizing bs with
  | nil =>
    rw [List.mapM_nil, List.forall₂_nil_left_iff]
    exact ⟨fun h => (Except.ok.inj h).symm, fun h => h ▸ rfl⟩
  | cons a as ih =>
    rw [List.mapM_cons]
    simp only [except_bind_eq_ok, ih, List.forall₂_cons_left_iff]
    constructor
    · rintro ⟨b, hb, bs', hbs, h⟩
      exact ⟨b, bs', hb, hbs, (Except.ok.inj h).symm⟩
    · rintro ⟨b, bs', hb, hbs, rfl⟩
      exact ⟨b, hb, bs', hbs, rfl⟩

end Codewright.Steps
