import Mathlib.Data.List.Basic

/-!
# Computations that log what they do and may raise

What was logged before an exception stays logged.
-/

namespace JetsonVoice.Foundation

/-- A log, and a result or the exception that ended the computation. -/
structure Logged (W E A : Type*) where
  log : List W
  result : Except E A

namespace Logged

universe u v

variable {W E : Type u} {A B : Type v}

/-- Log one entry. -/
def tell (w : W) : Logged W E PUnit.{v + 1} := ⟨[w], .ok ⟨⟩⟩

/-- Log several entries. -/
def tells (ws : List W) : Logged W E PUnit.{v + 1} := ⟨ws, .ok ⟨⟩⟩

def raise (e : E) : Logged W E A := ⟨[], .error e⟩

/-- A call that may raise and logs nothing. -/
def lift (r : Except E A) : Logged W E A := ⟨[], r⟩

instance : Monad (Logged W E) where
  pure a := ⟨[], .ok a⟩
  bind x f :=
    match x.result with
    | .ok a => ⟨x.log ++ (f a).log, (f a).result⟩
    | .error e => ⟨x.log, .error e⟩

section Simp

@[simp] theorem log_tell (w : W) : (tell w : Logged W E PUnit.{v + 1}).log = [w] := rfl

@[simp] theorem result_tell (w : W) : (tell w : Logged W E PUnit.{v + 1}).result = .ok ⟨⟩ := rfl

@[simp] theorem log_tells (ws : List W) : (tells ws : Logged W E PUnit.{v + 1}).log = ws := rfl

@[simp] theorem result_tells (ws : List W) :
    (tells ws : Logged W E PUnit.{v + 1}).result = .ok ⟨⟩ := rfl

@[simp] theorem log_raise (e : E) : (raise e : Logged W E A).log = [] := rfl

@[simp] theorem result_raise (e : E) : (raise e : Logged W E A).result = .error e := rfl

@[simp] theorem log_lift (r : Except E A) : (lift r : Logged W E A).log = [] := rfl

@[simp] theorem result_lift (r : Except E A) : (lift r : Logged W E A).result = r := rfl

@[simp] theorem log_pure (a : A) : (pure a : Logged W E A).log = [] := rfl

@[simp] theorem result_pure (a : A) : (pure a : Logged W E A).result = .ok a := rfl

end Simp

section Bind
variable {x : Logged W E A} {f : A → Logged W E B}

theorem bind_of_ok {a : A} (h : x.result = .ok a) :
    x >>= f = ⟨x.log ++ (f a).log, (f a).result⟩ := by
  change (match x.result with
    | .ok a => (⟨x.log ++ (f a).log, (f a).result⟩ : Logged W E B)
    | .error e => ⟨x.log, .error e⟩) = _
  rw [h]

theorem bind_of_error {e : E} (h : x.result = .error e) : x >>= f = ⟨x.log, .error e⟩ := by
  change (match x.result with
    | .ok a => (⟨x.log ++ (f a).log, (f a).result⟩ : Logged W E B)
    | .error e => ⟨x.log, .error e⟩) = _
  rw [h]

/-- A computation that ended well ended well in its first part. -/
theorem result_bind_ok {b : B} (h : (x >>= f).result = .ok b) :
    ∃ a, x.result = .ok a ∧ (f a).result = .ok b := by
  cases hx : x.result with
  | ok a =>
      rw [bind_of_ok hx] at h
      exact ⟨a, rfl, h⟩
  | error e =>
      rw [bind_of_error hx] at h
      cases h

theorem mem_log_bind {w : W} :
    w ∈ (x >>= f).log ↔ w ∈ x.log ∨ ∃ a, x.result = .ok a ∧ w ∈ (f a).log := by
  cases hx : x.result with
  | ok a => simp [bind_of_ok hx]
  | error e => simp [bind_of_error hx]

@[simp] theorem tell_bind {w : W} {g : PUnit → Logged W E B} :
    tell w >>= g = ⟨w :: (g ⟨⟩).log, (g ⟨⟩).result⟩ := bind_of_ok rfl

@[simp] theorem raise_bind {e : E} : (raise e : Logged W E A) >>= f = raise e := bind_of_error rfl

@[simp] theorem lift_ok_bind {a : A} : (lift (.ok a) : Logged W E A) >>= f = f a := bind_of_ok rfl

@[simp] theorem lift_error_bind {e : E} :
    (lift (.error e) : Logged W E A) >>= f = raise e := bind_of_error rfl

end Bind

section All

/-- Every entry of the log has the property. -/
def All (p : W → Prop) (x : Logged W E A) : Prop := ∀ w ∈ x.log, p w

variable {p : W → Prop}

theorem All.bind {x : Logged W E A} {f : A → Logged W E B} (hx : x.All p)
    (hf : ∀ a, x.result = .ok a → (f a).All p) : (x >>= f).All p := by
  intro w hw
  cases mem_log_bind.mp hw with
  | inl h => exact hx w h
  | inr h =>
      obtain ⟨a, ha, hmem⟩ := h
      exact hf a ha w hmem

theorem All.of_nil {x : Logged W E A} (h : x.log = []) : x.All p := by
  intro w hw
  rw [h] at hw
  cases hw

end All

section Steps
variable {S : Type*}

/-- The log leads from `s` to the state of the result, or to some state before the
exception. -/
def Leads (R : S → List W → S → Prop) (s : S) (state : A → S) (x : Logged W E A) : Prop :=
  match x.result with
  | .ok a => R s x.log (state a)
  | .error _ => ∃ t, R s x.log t

variable {R : S → List W → S → Prop} {s : S} {x : Logged W E A} {state : A → S}

theorem Leads.ok (h : Leads R s state x) {a : A} (hx : x.result = .ok a) :
    R s x.log (state a) := by
  rw [Leads, hx] at h
  exact h

/-- What every part of a computation keeps to, the whole keeps to. -/
theorem Leads.bind (trans : ∀ {s t u L M}, R s L t → R t M u → R s (L ++ M) u)
    {f : A → Logged W E B} {state' : B → S} (hx : Leads R s state x)
    (hf : ∀ a, x.result = .ok a → Leads R (state a) state' (f a)) :
    Leads R s state' (x >>= f) := by
  cases hr : x.result with
  | ok a =>
      have hfirst := hx.ok hr
      have hrest := hf a hr
      rw [bind_of_ok hr]
      unfold Leads at hrest ⊢
      dsimp only
      split at hrest
      · exact trans hfirst hrest
      · obtain ⟨t, ht⟩ := hrest
        exact ⟨t, trans hfirst ht⟩
  | error e =>
      rw [Leads, hr] at hx
      rw [bind_of_error hr]
      exact hx

end Steps

end Logged

end JetsonVoice.Foundation
