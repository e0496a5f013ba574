import Comenq.Lib.CrashTrace

/-!
# Programs that perform traces

A `Traced` program reads a state and performs events on it; what it returns and which events it
performs are functions of the state it starts in. It may fail, and it may fail to terminate.

`Does R m s Q E` is the triple used to reason about such programs: started in `s`, `m` only performs
events that `R` permits, a result satisfies `Q` together with the state left behind, and an error
satisfies `E`. `Succeeds m s Q` says that `m` returns, with a result as `Q` describes it. For both
there is one rule for each way to build a program.
-/

namespace Traced

open CrashTrace

inductive Outcome (err α : Type)
  | ok (a : α)
  | error (e : err)
  | diverges
deriving DecidableEq

def Outcome.map {err α β : Type} (f : α → β) : Outcome err α → Outcome err β
  | ok a => ok (f a)
  | error e => error e
  | diverges => diverges

/-- What a program returned, and the events it performed. -/
structure Ran (ε err α : Type) where
  outcome : Outcome err α
  trace : List ε

def Ran.after {ε err α : Type} (r : Ran ε err α) (t : List ε) : Ran ε err α :=
  ⟨r.outcome, t ++ r.trace⟩

@[simp] theorem Ran.after_nil {ε err α : Type} (r : Ran ε err α) : r.after [] = r := rfl

/-- A program on states of type `σ`, with events `ε` that act by `upd`. -/
def Prog {σ ε : Type} (_upd : σ → ε → σ) (err α : Type) : Type := σ → Ran ε err α

section Programs

variable {σ ε : Type} {upd : σ → ε → σ} {err α β : Type}

protected def pure (a : α) : Prog upd err α := fun _ => ⟨.ok a, []⟩

protected def bind (m : Prog upd err α) (f : α → Prog upd err β) : Prog upd err β := fun s =>
  match m s with
  | ⟨.ok a, t⟩ => (f a (run upd s t)).after t
  | ⟨.error e, t⟩ => ⟨.error e, t⟩
  | ⟨.diverges, t⟩ => ⟨.diverges, t⟩

instance : Monad (Prog upd err) where
  pure := Traced.pure
  bind := Traced.bind

def fail (e : err) : Prog upd err α := fun _ => ⟨.error e, []⟩

def diverge : Prog upd err α := fun _ => ⟨.diverges, []⟩

/-- Read the state without changing it. -/
def read (f : σ → Except err α) : Prog upd err α := fun s =>
  match f s with
  | .ok a => ⟨.ok a, []⟩
  | .error e => ⟨.error e, []⟩

/-- Continue with a program that depends on the present state. -/
def inspect (f : σ → Prog upd err α) : Prog upd err α := fun s => f s s

def emit (e : ε) : Prog upd err Unit := fun _ => ⟨.ok (), [e]⟩

/-- Run a program only under a condition. -/
def when (c : Bool) (m : Prog upd err Unit) : Prog upd err Unit := if c then m else pure ()

/-- The state after an uninterrupted run. -/
def final (m : Prog upd err α) (s : σ) : σ := run upd s (m s).trace

/-- A process that dies while running `m` in `s` may leave `s'`. -/
def Interrupted (tears : ε → ε → Prop) (m : Prog upd err α) (s s' : σ) : Prop :=
  ∃ p, Cut tears p (m s).trace ∧ s' = run upd s p

/-! ## Running programs -/

section Run

variable {m : Prog upd err α} {f : α → Prog upd err β} {s : σ} {t : List ε}

theorem run_bind_ok {a : α} (h : m s = ⟨.ok a, t⟩) :
    (m >>= f) s = (f a (run upd s t)).after t := by
  change Traced.bind m f s = _
  unfold Traced.bind
  rw [h]

theorem run_bind {a : α} {o : Outcome err β} {u : List ε} (h : m s = ⟨.ok a, t⟩)
    (h' : f a (run upd s t) = ⟨o, u⟩) : (m >>= f) s = ⟨o, t ++ u⟩ := by
  rw [run_bind_ok h, h']
  rfl

theorem run_bind_error {e : err} (h : m s = ⟨.error e, t⟩) : (m >>= f) s = ⟨.error e, t⟩ := by
  change Traced.bind m f s = _
  unfold Traced.bind
  rw [h]

theorem run_bind_diverges (h : m s = ⟨.diverges, t⟩) : (m >>= f) s = ⟨.diverges, t⟩ := by
  change Traced.bind m f s = _
  unfold Traced.bind
  rw [h]

@[simp] theorem run_pure (a : α) : (pure a : Prog upd err α) s = ⟨.ok a, []⟩ := rfl

@[simp] theorem run_fail (e : err) : (fail e : Prog upd err α) s = ⟨.error e, []⟩ := rfl

@[simp] theorem run_emit (e : ε) : (emit e : Prog upd err Unit) s = ⟨.ok (), [e]⟩ := rfl

@[simp] theorem run_inspect (f : σ → Prog upd err α) : inspect f s = f s s := rfl

theorem run_map (g : α → β) (m : Prog upd err α) (s : σ) :
    (g <$> m) s = ⟨(m s).outcome.map g, (m s).trace⟩ := by
  change Traced.bind m (fun a => Traced.pure (g a)) s = _
  unfold Traced.bind Traced.pure
  cases hm : m s with
  | mk o t =>
    cases o with
    | ok a => simp [Ran.after, Outcome.map]
    | error e => rfl
    | diverges => rfl

theorem trace_map (g : α → β) (m : Prog upd err α) (s : σ) : ((g <$> m) s).trace = (m s).trace := by
  rw [run_map]

theorem outcome_map (g : α → β) (m : Prog upd err α) (s : σ) :
    ((g <$> m) s).outcome = (m s).outcome.map g := by
  rw [run_map]

theorem final_map (g : α → β) (m : Prog upd err α) (s : σ) : final (g <$> m) s = final m s := by
  unfold final
  rw [run_map]

theorem run_when (c : Bool) (m : Prog upd err Unit) :
    when c m s = if c then m s else ⟨.ok (), []⟩ := by
  cases c <;> rfl

theorem run_read_ok {f : σ → Except err α} {a : α} (h : f s = .ok a) :
    (read f : Prog upd err α) s = ⟨.ok a, []⟩ := by
  unfold read; rw [h]

theorem run_read_error {f : σ → Except err α} {e : err} (h : f s = .error e) :
    (read f : Prog upd err α) s = ⟨.error e, []⟩ := by
  unfold read; rw [h]

end Run

/-! ## Triples -/

/-- The events of a run are permitted, its result and its error are as described. -/
structure Does (R : σ → ε → Prop) (m : Prog upd err α) (s : σ) (Q : α → σ → Prop)
    (E : err → Prop) : Prop where
  along : Along upd R s (m s).trace
  post : ∀ a, (m s).outcome = .ok a → Q a (final m s)
  fault : ∀ e, (m s).outcome = .error e → E e

variable {R : σ → ε → Prop} {m : Prog upd err α} {s : σ} {Q : α → σ → Prop} {E : err → Prop}

theorem does_pure {a : α} (h : Q a s) : Does R (pure a : Prog upd err α) s Q E where
  along := trivial
  post := by
    intro b hb
    obtain rfl : a = b := by simpa using hb
    exact h
  fault := by intro e he; cases he

theorem does_fail {e : err} (h : E e) : Does R (fail e : Prog upd err α) s Q E where
  along := trivial
  post := by intro a ha; cases ha
  fault := by
    intro e' he
    obtain rfl : e = e' := by simpa using he
    exact h

theorem does_diverge : Does R (diverge : Prog upd err α) s Q E where
  along := trivial
  post := by intro a ha; cases ha
  fault := by intro e he; cases he

theorem does_emit {e : ε} {Q : Unit → σ → Prop} (hR : R s e) (hQ : Q () (upd s e)) :
    Does R (emit e : Prog upd err Unit) s Q E where
  along := ⟨hR, trivial⟩
  post := fun _ _ => hQ
  fault := by intro e he; cases he

theorem does_read {f : σ → Except err α} (hok : ∀ a, f s = .ok a → Q a s)
    (herr : ∀ e, f s = .error e → E e) : Does R (read f : Prog upd err α) s Q E := by
  cases hf : f s with
  | ok a =>
    have hr : (read f : Prog upd err α) s = ⟨.ok a, []⟩ := run_read_ok hf
    refine ⟨by rw [hr]; trivial, fun b hb => ?_, fun e he => ?_⟩
    · rw [hr] at hb
      obtain rfl : a = b := by simpa using hb
      unfold final
      rw [hr]
      exact hok a hf
    · rw [hr] at he; cases he
  | error e =>
    have hr : (read f : Prog upd err α) s = ⟨.error e, []⟩ := run_read_error hf
    refine ⟨by rw [hr]; trivial, fun b hb => ?_, fun e' he => ?_⟩
    · rw [hr] at hb; cases hb
    · rw [hr] at he
      obtain rfl : e = e' := by simpa using he
      exact herr e hf

theorem does_inspect {f : σ → Prog upd err α} (h : Does R (f s) s Q E) :
    Does R (inspect f) s Q E := ⟨h.along, h.post, h.fault⟩

theorem does_bind {f : α → Prog upd err β} {Q' : β → σ → Prop} (hm : Does R m s Q E)
    (hf : ∀ a s', Q a s' → Does R (f a) s' Q' E) : Does R (m >>= f) s Q' E := by
  obtain ⟨ha, hp, he⟩ := hm
  unfold final at hp
  cases hr : m s with
  | mk o t =>
    rw [hr] at ha hp he
    cases o with
    | ok a =>
      obtain ⟨ha', hp', he'⟩ := hf a (run upd s t) (hp a rfl)
      have hb := run_bind_ok (f := f) hr
      refine ⟨?_, ?_, ?_⟩
      · rw [hb]; exact along_append.2 ⟨ha, ha'⟩
      · intro b hok
        unfold final
        rw [hb] at hok ⊢
        have := hp' b hok
        unfold final at this
        simpa [Ran.after] using this
      · intro e hok; rw [hb] at hok; exact he' e hok
    | error e =>
      have hb := run_bind_error (f := f) hr
      refine ⟨by rw [hb]; exact ha, ?_, ?_⟩
      · intro b hok; rw [hb] at hok; cases hok
      · intro e' hok
        rw [hb] at hok
        obtain rfl : e = e' := by simpa using hok
        exact he e rfl
    | diverges =>
      have hb := run_bind_diverges (f := f) hr
      refine ⟨by rw [hb]; exact ha, ?_, ?_⟩
      · intro b hok; rw [hb] at hok; cases hok
      · intro e' hok; rw [hb] at hok; cases hok

theorem does_map {g : α → β} {Q' : β → σ → Prop} (hm : Does R m s Q E)
    (hQ : ∀ a s', Q a s' → Q' (g a) s') : Does R (g <$> m) s Q' E := by
  obtain ⟨ha, hp, he⟩ := hm
  refine ⟨by rw [run_map]; exact ha, ?_, ?_⟩
  · intro b hb
    rw [run_map] at hb
    rw [final_map]
    cases ho : (m s).outcome with
    | ok a =>
      rw [ho] at hb
      simp only [Outcome.map, Outcome.ok.injEq] at hb
      rw [← hb]
      exact hQ a _ (hp a ho)
    | error e => rw [ho] at hb; cases hb
    | diverges => rw [ho] at hb; cases hb
  · intro e hb
    rw [run_map] at hb
    cases ho : (m s).outcome with
    | ok a => rw [ho] at hb; cases hb
    | error e' =>
      rw [ho] at hb
      simp only [Outcome.map, Outcome.error.injEq] at hb
      rw [← hb]
      exact he e' ho
    | diverges => rw [ho] at hb; cases hb

theorem does_when {c : Bool} {m : Prog upd err Unit} {Q : Unit → σ → Prop}
    (ht : c = true → Does R m s Q E) (hf : c = false → Q () s) : Does R (when c m) s Q E := by
  cases c with
  | true => exact ht rfl
  | false => exact does_pure (hf rfl)

theorem Does.mono {Q' : α → σ → Prop} {E' : err → Prop} (h : Does R m s Q E)
    (hQ : ∀ a s', Q a s' → Q' a s') (hE : ∀ e, E e → E' e) : Does R m s Q' E' :=
  ⟨h.along, fun a ha => hQ a _ (h.post a ha), fun e he => hE e (h.fault e he)⟩

/-! ## Total correctness -/

/-- Started in `s`, `m` returns a result that satisfies `Q` together with the state left behind. -/
def Succeeds (m : Prog upd err α) (s : σ) (Q : α → σ → Prop) : Prop :=
  ∃ a t, m s = ⟨.ok a, t⟩ ∧ Q a (run upd s t)

theorem succeeds_pure {a : α} (h : Q a s) : Succeeds (pure a : Prog upd err α) s Q :=
  ⟨a, [], rfl, h⟩

theorem succeeds_emit {e : ε} {Q : Unit → σ → Prop} (h : Q () (upd s e)) :
    Succeeds (emit e : Prog upd err Unit) s Q :=
  ⟨(), [e], rfl, h⟩

theorem succeeds_read {f : σ → Except err α} {a : α} (hf : f s = .ok a) (h : Q a s) :
    Succeeds (read f : Prog upd err α) s Q :=
  ⟨a, [], run_read_ok hf, h⟩

theorem succeeds_inspect {f : σ → Prog upd err α} (h : Succeeds (f s) s Q) :
    Succeeds (inspect f) s Q := h

theorem succeeds_bind {f : α → Prog upd err β} {Q' : β → σ → Prop} (hm : Succeeds m s Q)
    (hf : ∀ a s', Q a s' → Succeeds (f a) s' Q') : Succeeds (m >>= f) s Q' := by
  obtain ⟨a, t, hr, hq⟩ := hm
  obtain ⟨b, u, hr', hq'⟩ := hf a _ hq
  exact ⟨b, t ++ u, run_bind hr hr', by rw [run_append]; exact hq'⟩

theorem succeeds_read_bind {f : σ → Except err α} {g : α → Prog upd err β} {a : α}
    {Q' : β → σ → Prop} (hf : f s = .ok a) (h : Succeeds (g a) s Q') :
    Succeeds (read f >>= g) s Q' := by
  refine succeeds_bind (Q := fun b s' => b = a ∧ s' = s) (succeeds_read hf ⟨rfl, rfl⟩) ?_
  rintro _ _ ⟨rfl, rfl⟩
  exact h

theorem succeeds_emit_bind {e : ε} {g : Unit → Prog upd err β} {Q' : β → σ → Prop}
    (h : Succeeds (g ()) (upd s e) Q') : Succeeds (emit e >>= g) s Q' := by
  refine succeeds_bind (Q := fun _ s' => s' = upd s e) (succeeds_emit rfl) ?_
  rintro _ _ rfl
  exact h

theorem succeeds_when {c : Bool} {m : Prog upd err Unit} {Q : Unit → σ → Prop}
    (ht : c = true → Succeeds m s Q) (hf : c = false → Q () s) : Succeeds (when c m) s Q := by
  cases c with
  | true => exact ht rfl
  | false => exact succeeds_pure (hf rfl)

theorem Succeeds.mono {Q' : α → σ → Prop} (h : Succeeds m s Q)
    (hQ : ∀ a s', Q a s' → Q' a s') : Succeeds m s Q' := by
  obtain ⟨a, t, hr, hq⟩ := h
  exact ⟨a, t, hr, hQ a _ hq⟩

theorem Succeeds.final (h : Succeeds m s Q) :
    ∃ a, (m s).outcome = .ok a ∧ Q a (Traced.final m s) := by
  obtain ⟨a, t, hr, hq⟩ := h
  refine ⟨a, by rw [hr], ?_⟩
  unfold Traced.final
  rw [hr]
  exact hq

/-! ## Programs that ignore part of the state -/

/-- In related states `m` returns the same and performs the same events. -/
def Respects (S : σ → σ → Prop) (m : Prog upd err α) : Prop := ∀ s s', S s s' → m s' = m s

section Respects

variable {S : σ → σ → Prop}

theorem respects_pure (a : α) : Respects S (pure a : Prog upd err α) := fun _ _ _ => rfl

theorem respects_fail (e : err) : Respects S (fail e : Prog upd err α) := fun _ _ _ => rfl

theorem respects_emit (e : ε) : Respects S (emit e : Prog upd err Unit) := fun _ _ _ => rfl

theorem respects_read {f : σ → Except err α} (h : ∀ s s', S s s' → f s' = f s) :
    Respects S (read f : Prog upd err α) := by
  intro s s' hs
  unfold read
  rw [h s s' hs]

theorem respects_inspect {f : σ → Prog upd err α} (h : ∀ s s', S s s' → f s' = f s)
    (hf : ∀ s, Respects S (f s)) : Respects S (inspect f) := by
  intro s s' hs
  change f s' s' = f s s
  rw [h s s' hs]
  exact hf s s s' hs

theorem respects_when {c : Bool} {m : Prog upd err Unit} (hm : Respects S m) :
    Respects S (when c m) := by
  cases c with
  | true => exact hm
  | false => exact respects_pure ()

theorem rel_run (hS : ∀ s s' e, S s s' → S (upd s e) (upd s' e)) (t : List ε) {s s' : σ}
    (h : S s s') : S (run upd s t) (run upd s' t) := by
  induction t generalizing s s' with
  | nil => exact h
  | cons e t ih => exact ih (hS s s' e h)

theorem respects_bind (hS : ∀ s s' e, S s s' → S (upd s e) (upd s' e)) {f : α → Prog upd err β}
    (hm : Respects S m) (hf : ∀ a, Respects S (f a)) : Respects S (m >>= f) := by
  intro s s' hs
  have hrun := hm s s' hs
  cases hr : m s with
  | mk o t =>
    rw [hr] at hrun
    cases o with
    | ok a => rw [run_bind_ok hr, run_bind_ok hrun, hf a _ _ (rel_run hS t hs)]
    | error e => rw [run_bind_error hr, run_bind_error hrun]
    | diverges => rw [run_bind_diverges hr, run_bind_diverges hrun]

end Respects

end Programs

end Traced
