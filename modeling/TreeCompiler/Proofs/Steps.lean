import Mathlib
import TreeCompiler.Session

/-!
# Steps and what they keep

A step of work runs on a state and may stop on a defect. How a composed step ends is read off its
parts, and a property that every part keeps is kept by the whole.
-/

namespace TreeCompiler.Step

variable {ε σ α β : Type} {m : EStateM ε σ α} {f : α → EStateM ε σ β}

/-- A composed step ends well if its parts do. -/
theorem bind_ok {s t : σ} {b : β} :
    (m >>= f) s = .ok b t ↔ ∃ a u, m s = .ok a u ∧ f a u = .ok b t := by
  simp only [bind, EStateM.bind]
  cases m s <;> simp

/-- A composed step goes on where its first part ended. -/
theorem bind_of_ok {s t : σ} {a : α} (ran : m s = .ok a t) : (m >>= f) s = f a t := by
  simp only [bind, EStateM.bind, ran]

/-- Where the first part of a composed step is known, the rest goes on from its end. -/
theorem rest_ok {s t u : σ} {a : α} {b : β}
    (ran : (m >>= f) s = .ok b t) (fst : m s = .ok a u) : f a u = .ok b t :=
  (bind_of_ok fst).symm.trans ran

theorem bind_of_error {s t : σ} {e : ε}
    (stopped : m s = .error e t) : (m >>= f) s = .error e t := by
  simp only [bind, EStateM.bind, stopped]

theorem map_ok {f : α → β} {s t : σ} {b : β} :
    (f <$> m) s = .ok b t ↔ ∃ a, m s = .ok a t ∧ f a = b := by
  simp only [Functor.map, EStateM.map]
  cases m s <;> simp [and_comm]

@[simp] theorem pure_ok {a b : α} {s t : σ} :
    (pure a : EStateM ε σ α) s = .ok b t ↔ a = b ∧ s = t := by
  simp [pure, EStateM.pure]

theorem bind_pure_ok {f : α → β} {s t : σ} {b : β} :
    (m >>= fun a => pure (f a)) s = .ok b t ↔ ∃ a, m s = .ok a t ∧ f a = b := by
  simp only [bind_ok, pure_ok]
  grind

@[simp] theorem get_ok {s t u : σ} : (get : EStateM ε σ σ) s = .ok t u ↔ s = t ∧ s = u := by
  simp [get, getThe, MonadStateOf.get, EStateM.get]

@[simp] theorem throw_ne_ok {e : ε} {s t : σ} {a : α} :
    (throw e : EStateM ε σ α) s = .ok a t ↔ False := by
  simp [throw, throwThe, MonadExceptOf.throw, EStateM.throw]

@[simp] theorem modify_ok {f : σ → σ} {s t : σ} {u : PUnit} :
    (modify f : EStateM ε σ PUnit) s = .ok u t ↔ f s = t := by
  simp [modify, modifyGet, MonadStateOf.modifyGet, EStateM.modifyGet]

@[simp] theorem modifyGet_ok {f : σ → α × σ} {s t : σ} {a : α} :
    (modifyGet f : EStateM ε σ α) s = .ok a t ↔ f s = (a, t) := by
  simp [modifyGet, MonadStateOf.modifyGet, EStateM.modifyGet, Prod.ext_iff]

/-- A step that keeps a property of the state whenever it succeeds. -/
def Keeps (P : σ → Prop) (m : EStateM ε σ α) : Prop :=
  ∀ s a t, P s → m s = .ok a t → P t

namespace Keeps

variable {P : σ → Prop}

theorem pure (a : α) : Keeps P (Pure.pure a : EStateM ε σ α) := by
  intro s b t h done
  cases done
  exact h

theorem get : Keeps P (MonadState.get : EStateM ε σ σ) := by
  intro s b t h done
  cases done
  exact h

theorem throw (e : ε) : Keeps P (MonadExcept.throw e : EStateM ε σ α) := by
  intro s b t _ done
  exact absurd done (by simp)

theorem bind (fst : Keeps P m) (rest : ∀ a, Keeps P (f a)) : Keeps P (m >>= f) := by
  intro s b t h done
  obtain ⟨a, u, ran, ended⟩ := bind_ok.mp done
  exact rest a u b t (fst s a u h ran) ended

end Keeps

/-- A step that keeps a property of the state and whose answer has another whenever it succeeds. -/
def Yields (P : σ → Prop) (Q : α → Prop) (m : EStateM ε σ α) : Prop :=
  ∀ s a t, P s → m s = .ok a t → P t ∧ Q a

namespace Yields

variable {P : σ → Prop} {Q : α → Prop}

theorem pure {a : α} (ans : Q a) : Yields P Q (Pure.pure a : EStateM ε σ α) := by
  intro s b t h done
  cases done
  exact ⟨h, ans⟩

end Yields

/-- The state a step ends in, whether it succeeds or stops. -/
def endState : EStateM.Result ε σ α → σ
  | .ok _ s => s
  | .error _ s => s

/-- Where a composed step ends is where its first part stops or where the rest ends. -/
theorem endState_bind {s : σ} {P : σ → Prop}
    (stops : P (endState (m s))) (goes : ∀ a t, m s = .ok a t → P (endState (f a t))) :
    P (endState ((m >>= f) s)) := by
  simp only [bind, EStateM.bind]
  cases ran : m s with
  | ok a t => exact goes a t ran
  | error e t =>
    rw [ran] at stops
    exact stops

/-- A step that keeps a property of the state even if it stops. -/
def Always (P : σ → Prop) (m : EStateM ε σ α) : Prop := ∀ s, P s → P (endState (m s))

namespace Always

variable {P : σ → Prop}

theorem keeps (always : Always P m) : Keeps P m := by
  intro s a t h done
  have kept := always s h
  rwa [done] at kept

theorem pure (a : α) : Always P (Pure.pure a : EStateM ε σ α) := fun _ h => h

theorem get : Always P (MonadState.get : EStateM ε σ σ) := fun _ h => h

theorem throw (e : ε) : Always P (MonadExcept.throw e : EStateM ε σ α) := fun _ h => h

theorem bind (fst : Always P m) (rest : ∀ a, Always P (f a)) : Always P (m >>= f) := by
  intro s h
  have kept := fst s h
  refine endState_bind kept fun a t ran => rest a t ?_
  rwa [ran] at kept

theorem map (f : α → β) (fst : Always P m) : Always P (f <$> m) :=
  bind fst fun a => pure (f a)

theorem mapM (each : ∀ a, Always P (f a)) (as : List α) : Always P (as.mapM f) := by
  induction as with
  | nil =>
    exact pure _
  | cons a rest ih =>
    rw [List.mapM_cons]
    exact bind (each a) fun _ => bind ih fun _ => pure _

end Always

/-- How a step ended: well with one property of the state, or stopped with another. -/
def HoldsAt (P E : σ → Prop) : EStateM.Result ε σ α → Prop
  | .ok _ s => P s
  | .error _ s => E s

theorem HoldsAt.mono {P Q E F : σ → Prop} {res : EStateM.Result ε σ α} (ends : HoldsAt P E res)
    (well : ∀ s, P s → Q s) (stopped : ∀ s, E s → F s) : HoldsAt Q F res := by
  cases res with
  | ok a s => exact well s ends
  | error e s => exact stopped s ends

/-- A step that keeps a property of the state whenever it succeeds, and stops only with another. -/
def Holds (P E : σ → Prop) (m : EStateM ε σ α) : Prop := ∀ s, P s → HoldsAt P E (m s)

namespace Holds

variable {P E : σ → Prop}

theorem keeps (ends : Holds P E m) : Keeps P m := by
  intro s a t h done
  have kept := ends s h
  rwa [done] at kept

theorem pure (a : α) : Holds P E (Pure.pure a : EStateM ε σ α) := fun _ h => h

theorem of_ok (goes : ∀ s, ∃ a t, m s = .ok a t ∧ (P s → P t)) : Holds P E m := by
  intro s h
  obtain ⟨a, t, ran, kept⟩ := goes s
  rw [ran]
  exact kept h

/-- The rest of a composed step may rely on what the answer of the first part is like. -/
theorem bindYields {Q : α → Prop} (fst : Holds P E m)
    (ans : Yields P Q m) (rest : ∀ a, Q a → Holds P E (f a)) : Holds P E (m >>= f) := by
  intro s h
  have ended := fst s h
  simp only [Bind.bind, EStateM.bind]
  cases ran : m s with
  | ok a t => exact rest a (ans s a t h ran).2 t (ans s a t h ran).1
  | error e t => rwa [ran] at ended

theorem bind (fst : Holds P E m) (rest : ∀ a, Holds P E (f a)) : Holds P E (m >>= f) :=
  bindYields fst (fun s a t h ran => ⟨fst.keeps s a t h ran, trivial⟩) fun a _ => rest a

end Holds

/-- A step that goes along a relation of states even if it stops. If it does not, its answer has a
property in the state where it ends. -/
def Goes (R : σ → σ → Prop) (m : EStateM ε σ α) (Q : α → σ → Prop) (s : σ) : Prop :=
  R s (endState (m s)) ∧ ∀ a t, m s = .ok a t → Q a t

namespace Goes

variable {R : σ → σ → Prop} {Q : α → σ → Prop}
  {S : β → σ → Prop} {s : σ}

theorem pure {a : α} (stays : R s s) (ans : Q a s) : Goes R (Pure.pure a : EStateM ε σ α) Q s := by
  refine ⟨stays, fun b t done => ?_⟩
  cases done
  exact ans

theorem throw {e : ε} (stays : R s s) : Goes R (MonadExcept.throw e : EStateM ε σ α) Q s :=
  ⟨stays, fun _ _ done => absurd done (by simp)⟩

/-- A composed step goes as far as its first part goes, or as far as the rest goes from there. -/
theorem bind [Trans R R R] (fst : Goes R m Q s)
    (rest : ∀ a t, R s t → Q a t → Goes R (f a) S t) : Goes R (m >>= f) S s := by
  have goesOn : ∀ a t, m s = .ok a t → R s t ∧ Goes R (f a) S t := by
    intro a t ran
    have hr := fst.1
    rw [ran] at hr
    exact ⟨hr, rest a t hr (fst.2 a t ran)⟩
  refine ⟨endState_bind fst.1 fun a t ran => Trans.trans (goesOn a t ran).1 (goesOn a t ran).2.1, ?_⟩
  intro b u done
  obtain ⟨a, t, ran, ended⟩ := bind_ok.mp done
  exact (goesOn a t ran).2.2 b u ended

theorem get {f : σ → EStateM ε σ β} (goes : Goes R (f s) S s) : Goes R (MonadState.get >>= f) S s :=
  goes

theorem of_ok {a : α} {t : σ} (ran : m s = .ok a t) (hr : R s t) (ans : Q a t) :
    Goes R m Q s := by
  refine ⟨by rwa [ran], fun b u done => ?_⟩
  rw [ran] at done
  cases done
  exact ans

theorem of_error {e : ε} {t : σ} (stops : m s = .error e t) (hr : R s t) : Goes R m Q s := by
  refine ⟨by rwa [stops], fun b u done => ?_⟩
  rw [stops] at done
  cases done

theorem map {g : α → β} (goes : Goes R m Q s) :
    Goes R (g <$> m) (fun b t => ∃ a, b = g a ∧ Q a t) s := by
  have hr := goes.1
  cases ran : m s with
  | ok a t =>
    rw [ran] at hr
    have mapped : (g <$> m) s = .ok (g a) t := map_ok.mpr ⟨a, ran, rfl⟩
    exact of_ok mapped hr ⟨a, rfl, goes.2 a t ran⟩
  | error e t =>
    rw [ran] at hr
    have stops : (g <$> m) s = .error e t := by
      simp only [Functor.map, EStateM.map, ran]
    exact of_error stops hr

/-- The answer of a step is the one that it gives. -/
theorem withRun (goes : Goes R m Q s) : Goes R m (fun a t => Q a t ∧ m s = .ok a t) s :=
  ⟨goes.1, fun a t ran => ⟨goes.2 a t ran, ran⟩⟩

theorem weaken {R' : σ → σ → Prop} {Q' : α → σ → Prop} (goes : Goes R m Q s)
    (wider : ∀ t, R s t → R' s t) (ans : ∀ a t, R s t → Q a t → Q' a t) : Goes R' m Q' s := by
  refine ⟨wider _ goes.1, fun a t ran => ?_⟩
  have hr := goes.1
  rw [ran] at hr
  exact ans a t hr (goes.2 a t ran)

theorem answering {Q' : α → σ → Prop} (goes : Goes R m Q s)
    (ans : ∀ a t, R s t → Q a t → Q' a t) : Goes R m Q' s :=
  goes.weaken (fun _ hr => hr) ans

end Goes

/-- Whether a step succeeds in a way that passes a test. -/
def succeeds {ε σ α : Type} (m : EStateM ε σ α) (s : σ) (test : α → σ → Bool) : Bool :=
  match m s with
  | .ok a s' => test a s'
  | .error .. => false

theorem succeeds_iff {ε σ α : Type} {m : EStateM ε σ α} {s : σ} {test : α → σ → Bool} :
    succeeds m s test = true ↔ ∃ a s', m s = .ok a s' ∧ test a s' = true := by
  unfold succeeds
  cases m s <;> simp

end TreeCompiler.Step
