import Mathlib.Data.List.Basic

/-!
# Lib/Logged — computations that log what they do

A computation changes a state, logs events and ends with a result, or, when its fuel is too little,
ends without one.  `Stays C P m Q` is its specification: if every event it logs meets `C`, then
every one meets `P`, and it does end, with a result of which `Q` holds.  The events' condition `C`
is about what the computation is given; `P` and `Q` are about what it does.
-/

variable {σ ε α β : Type}

/-- A computation over states `σ` that logs events `ε`; no result when it does not end. -/
def Logged (σ ε α : Type) := σ → Option α × σ × List ε

namespace Logged

/-- The result. -/
def result (m : Logged σ ε α) (s : σ) : Option α := (m s).1

/-- The state it leaves. -/
def final (m : Logged σ ε α) (s : σ) : σ := (m s).2.1

/-- The events. -/
def events (m : Logged σ ε α) (s : σ) : List ε := (m s).2.2

/-- No more fuel. -/
def diverge : Logged σ ε α := fun s => (none, s, [])

/-- A change of the state. -/
def change (f : σ → σ) : Logged σ ε Unit := fun s => (some (), f s, [])

/-- A question to the state that is logged. -/
def ask (event : σ → ε) (answer : σ → α) : Logged σ ε α := fun s => (some (answer s), s, [event s])

instance : Monad (Logged σ ε) where
  pure a := fun s => (some a, s, [])
  bind m f := fun s =>
    match m s with
    | (none, s', es) => (none, s', es)
    | (some a, s', es) => ((f a s').1, (f a s').2.1, es ++ (f a s').2.2)

variable {m : Logged σ ε α} {f : α → Logged σ ε β} {s : σ} {a : α}

theorem events_bind (h : m.result s = some a) :
    (m >>= f).events s = m.events s ++ (f a).events (m.final s) := by
  change (match m s with
    | (none, s', es) => (none, s', es)
    | (some a, s', es) => ((f a s').1, (f a s').2.1, es ++ (f a s').2.2)).2.2 = _
  rw [show m s = (some a, m.final s, m.events s) from Prod.ext h rfl]
  rfl

theorem result_bind (h : m.result s = some a) :
    (m >>= f).result s = (f a).result (m.final s) := by
  change (match m s with
    | (none, s', es) => (none, s', es)
    | (some a, s', es) => ((f a s').1, (f a s').2.1, es ++ (f a s').2.2)).1 = _
  rw [show m s = (some a, m.final s, m.events s) from Prod.ext h rfl]
  rfl

theorem final_bind (h : m.result s = some a) :
    (m >>= f).final s = (f a).final (m.final s) := by
  change (match m s with
    | (none, s', es) => (none, s', es)
    | (some a, s', es) => ((f a s').1, (f a s').2.1, es ++ (f a s').2.2)).2.1 = _
  rw [show m s = (some a, m.final s, m.events s) from Prod.ext h rfl]
  rfl

/-- What ends after another ends after its result. -/
theorem exists_of_result_bind {b : β} (h : (m >>= f).result s = some b) :
    ∃ a, m.result s = some a ∧ (f a).result (m.final s) = some b := by
  rcases hr : m.result s with _ | a
  · change (match m s with
      | (none, s', es) => (none, s', es)
      | (some a, s', es) => ((f a s').1, (f a s').2.1, es ++ (f a s').2.2)).1 = _ at h
    rw [show m s = (none, m.final s, m.events s) from Prod.ext hr rfl] at h
    cases h
  · rw [result_bind hr] at h
    exact ⟨a, rfl, h⟩

theorem events_bind_subset (m : Logged σ ε α) (f : α → Logged σ ε β) (s : σ) :
    m.events s ⊆ (m >>= f).events s := by
  intro e he
  rcases hr : m.result s with _ | a
  · change e ∈ (match m s with
      | (none, s', es) => (none, s', es)
      | (some a, s', es) => ((f a s').1, (f a s').2.1, es ++ (f a s').2.2)).2.2
    rw [show m s = (none, m.final s, m.events s) from Prod.ext hr rfl]
    exact he
  · rw [events_bind hr]
    exact List.mem_append_left _ he

/-! ## Computations that change nothing -/

/-- The state is only asked. -/
def Keeps (m : Logged σ ε α) : Prop := ∀ s, m.final s = s

theorem Keeps.pure (a : α) : Keeps (Pure.pure a : Logged σ ε α) := fun _ => rfl

theorem Keeps.ask (event : σ → ε) (answer : σ → α) : Keeps (Logged.ask event answer) := fun _ => rfl

theorem Keeps.diverge : Keeps (Logged.diverge : Logged σ ε α) := fun _ => rfl

theorem Keeps.bind (hm : Keeps m) (hf : ∀ a, Keeps (f a)) : Keeps (m >>= f) := by
  intro s
  rcases hr : m.result s with _ | a
  · change (match m s with
      | (none, s', es) => (none, s', es)
      | (some a, s', es) => ((f a s').1, (f a s').2.1, es ++ (f a s').2.2)).2.1 = _
    rw [show m s = (none, m.final s, m.events s) from Prod.ext hr rfl]
    exact hm s
  · rw [final_bind hr, hf a, hm s]

/-- The result of a computation that changes nothing, and what follows. -/
theorem Keeps.result_bind (hm : Keeps m) (h : m.result s = some a) :
    (m >>= f).result s = (f a).result s := by
  rw [Logged.result_bind h, hm s]

/-! ## Specifications -/

/-- **The specification of a logged computation**, from any state. -/
def Stays (C P : ε → Prop) (m : Logged σ ε α) (Q : α → Prop) : Prop :=
  ∀ s, (∀ e ∈ m.events s, C e) → (∀ e ∈ m.events s, P e) ∧ ∃ a, m.result s = some a ∧ Q a

variable {C P : ε → Prop} {Q Q' : α → Prop} {R : β → Prop}

theorem Stays.pure (h : Q a) : Stays C P (Pure.pure a : Logged σ ε α) Q :=
  fun _ _ => ⟨fun _ he => absurd he List.not_mem_nil, a, rfl, h⟩

theorem Stays.change (g : σ → σ) : Stays C P (Logged.change g) fun _ => True :=
  fun _ _ => ⟨fun _ he => absurd he List.not_mem_nil, (), rfl, trivial⟩

theorem Stays.ask {event : σ → ε} {answer : σ → α}
    (h : ∀ s, C (event s) → P (event s) ∧ Q (answer s)) :
      Stays C P (Logged.ask event answer) Q := by
  intro s hc
  obtain ⟨hp, hq⟩ := h s (hc _ List.mem_cons_self)
  refine ⟨fun e he => ?_, answer s, rfl, hq⟩
  obtain rfl := List.mem_singleton.mp he
  exact hp

theorem Stays.imp (hm : Stays C P m Q) (h : ∀ a, Q a → Q' a) : Stays C P m Q' := by
  intro s hc
  obtain ⟨hp, a, ha, hq⟩ := hm s hc
  exact ⟨hp, a, ha, h a hq⟩

/-- **One computation after the other.** -/
theorem Stays.bind (hm : Stays C P m Q) (hf : ∀ a, Q a → Stays C P (f a) R) :
    Stays C P (m >>= f) R := by
  intro s hc
  obtain ⟨hp, a, ha, hq⟩ := hm s fun e he => hc e (events_bind_subset m f s he)
  rw [events_bind ha] at hc ⊢
  obtain ⟨hp', b, hb, hr⟩ := hf a hq (m.final s) fun e he => hc e (List.mem_append_right _ he)
  refine ⟨fun e he => ?_, b, by rw [result_bind ha, hb], hr⟩
  rcases List.mem_append.mp he with he | he
  · exact hp e he
  · exact hp' e he

/-- A change of the state, then the rest. -/
theorem Stays.change_bind {m : Logged σ ε β} (g : σ → σ) (hm : Stays C P m R) :
    Stays C P (Logged.change g >>= fun _ => m) R :=
  (Stays.change g).bind fun _ _ => hm

end Logged
