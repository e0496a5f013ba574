import Comenq.Store.System

/-!
# Lifetimes and claims along runs of the daemon

What one change does to the queue (`Change.mem_queued`, `Change.keeps`), and from it the invariant
of the daemon's states (`World.Owned`): every lifetime and every claim in the directory is a UUID
drawn before; the entry that carries the worker's claim, or the claim of a journalled completion,
is the lifetime that claim was handed out for; and a worker past its recovery finds no journal.
-/

namespace Comenq

open Traced CrashTrace

section Queue

variable {J : SerdeJson} {fs : QueueFs}

/-! ## The queue after one change -/

/-- An entry found after a change was there before, is new, or rewrites one that was there. -/
theorem Change.mem_queued {k : Kind} {ev : FsEvent} (h : Change J fs k ev) {x : StoredEntry}
    (hx : x ∈ queued J (fs.step ev)) :
    x ∈ queued J fs ∨ (k = .enroll x.id x.incarnation ∧ x.claimToken = none) ∨
      ∃ e ∈ queued J fs, e.Updates x ∧ k.Rewrites e x := by
  cases h with
  | enroll hv _ _ _ hsize _ hclaim _ =>
    rcases (mem_queued_write hv (by omega)).1 hx with rfl | ⟨hx, -⟩
    · exact Or.inr (Or.inl ⟨rfl, hclaim⟩)
    · exact Or.inl hx
  | update he hu hk hs =>
    rcases (mem_queued_write (hu.id_eq ▸ isValidId_of_mem he) hs).1 hx with rfl | ⟨hx, -⟩
    · exact Or.inr (Or.inr ⟨_, he, hu, hk⟩)
    · exact Or.inl hx
  | drop he => exact Or.inl (mem_queued_remove.1 hx).1
  | take he _ _ => exact Or.inl (mem_queued_remove.1 hx).1
  | _ => exact Or.inl hx

/-- An entry stays through a change, is rewritten by it, or is what the change removes. -/
theorem Change.keeps {k : Kind} {ev : FsEvent} (h : Change J fs k ev) {x : StoredEntry}
    (hx : x ∈ queued J fs) :
    x ∈ queued J (fs.step ev) ∨
      (∃ x' ∈ queued J (fs.step ev), x.Updates x' ∧ k.Rewrites x x') ∨
      k = .drop x.id ∨
      ∃ c, k = .take c ∧ c.id = x.id ∧ ∀ token ∈ c.claimToken, x.claimToken = some token := by
  cases h with
  | @enroll e hv hfree _ _ hsize _ _ _ =>
    refine Or.inl ((mem_queued_write hv (by omega)).2 (Or.inr ⟨hx, ?_⟩))
    intro hid
    obtain ⟨-, bytes, hl, -⟩ := Comenq.mem_queued.1 hx
    rw [hid, hfree] at hl
    cases hl
  | @update _ e e' he hu hk hs =>
    have hmem := fun y => @mem_queued_write J fs e' y (hu.id_eq ▸ isValidId_of_mem he) hs
    by_cases hid : x.id = e.id
    · obtain rfl := eq_of_mem_queued hx he hid
      exact Or.inr (Or.inl ⟨e', (hmem e').2 (Or.inl rfl), hu, hk⟩)
    · exact Or.inl ((hmem x).2 (Or.inr ⟨hx, by rw [hu.id_eq]; exact hid⟩))
  | @drop e he =>
    by_cases hid : x.id = e.id
    · exact Or.inr (Or.inr (Or.inl (by rw [hid])))
    · exact Or.inl (mem_queued_remove.2 ⟨hx, hid⟩)
  | @take c e he hce hclaim =>
    by_cases hid : x.id = e.id
    · obtain rfl := eq_of_mem_queued hx he hid
      exact Or.inr (Or.inr (Or.inr ⟨c, rfl, hce.symm, hclaim⟩))
    · exact Or.inl (mem_queued_remove.2 ⟨hx, hid⟩)
  | _ => exact Or.inl hx

/-- The claim after a rewrite: unchanged, gone, or the one the change sets. -/
theorem Kind.Rewrites.claimToken {k : Kind} {e e' : StoredEntry} (h : k.Rewrites e e') :
    e'.claimToken = e.claimToken ∨ e'.claimToken = none ∨
      ∃ token, k = .claim e.id token ∧ e'.claimToken = some token := by
  cases k with
  | reorder id =>
    obtain ⟨-, h⟩ := h
    rw [h]
    exact Or.inl rfl
  | claim id token =>
    obtain ⟨rfl, h⟩ := h
    rw [h]
    exact Or.inr (Or.inr ⟨token, rfl, rfl⟩)
  | unclaim id => exact Or.inr (Or.inl h.2.1)
  | _ => cases h

theorem Clean.incarnation_eq (h : Clean J fs) {e e' : StoredEntry} (he : e ∈ queued J fs)
    (hu : e.Updates e') : e'.incarnation = e.incarnation := by
  obtain ⟨u, hl⟩ := h.lifetime he
  rcases hu.incarnation with hi | ⟨hi, -⟩
  · exact hi
  · exact absurd (hl.symm.trans hi) u.text_ne_empty

/-! ## Lifetimes and claims have been drawn -/

/-- The UUIDs in the directory are among those drawn. -/
structure Drawn (J : SerdeJson) (used : List String) (fs : QueueFs) : Prop where
  incarnation : ∀ {e}, e ∈ queued J fs → e.incarnation ∈ used
  token : ∀ {e t}, e ∈ queued J fs → e.claimToken = some t → t ∈ used

/-- The UUID a change introduces. -/
def Kind.draws : Kind → List String
  | .enroll _ incarnation => [incarnation]
  | .claim _ token => [token]
  | _ => []

theorem Drawn.step {used : List String} {k : Kind} {ev : FsEvent} (h : Drawn J used fs)
    (hc : Clean J fs) (hch : Change J fs k ev) (hk : ∀ u ∈ k.draws, u ∈ used) :
    Drawn J used (fs.step ev) := by
  constructor
  · intro x hx
    rcases hch.mem_queued hx with hx | ⟨rfl, -⟩ | ⟨e, he, hu, -⟩
    · exact h.incarnation hx
    · exact hk _ (List.mem_singleton.2 rfl)
    · rw [hc.incarnation_eq he hu]; exact h.incarnation he
  · intro x t hx ht
    rcases hch.mem_queued hx with hx | ⟨-, hn⟩ | ⟨e, he, -, hr⟩
    · exact h.token hx ht
    · rw [hn] at ht; cases ht
    · rcases hr.claimToken with hs | hn | ⟨token, rfl, hs⟩
      · exact h.token he (hs ▸ ht)
      · rw [hn] at ht; cases ht
      · rw [hs] at ht
        obtain rfl := Option.some.inj ht
        exact hk _ (List.mem_singleton.2 rfl)

/-! ## A claim belongs to one lifetime -/

/-- Whatever carries the claim `token` is the lifetime `incarnation` of `id`. -/
def Bound (J : SerdeJson) (token id incarnation : String) (fs : QueueFs) : Prop :=
  ∀ e ∈ queued J fs, e.claimToken = some token → e.id = id ∧ e.incarnation = incarnation

theorem Bound.step {token id incarnation : String} {k : Kind} {ev : FsEvent}
    (h : Bound J token id incarnation fs) (hc : Clean J fs) (hch : Change J fs k ev)
    (hk : token ∉ k.draws) : Bound J token id incarnation (fs.step ev) := by
  intro x hx ht
  rcases hch.mem_queued hx with hx | ⟨-, hn⟩ | ⟨e, he, hu, hr⟩
  · exact h x hx ht
  · rw [hn] at ht; cases ht
  · rw [hu.id_eq, hc.incarnation_eq he hu]
    rcases hr.claimToken with hs | hn | ⟨other, rfl, hs⟩
    · exact h e he (hs ▸ ht)
    · rw [hn] at ht; cases ht
    · rw [hs] at ht
      exact absurd (List.mem_singleton.2 (Option.some.inj ht).symm) hk

/-! ## The journal -/

theorem Change.completion_eq {k : Kind} {ev : FsEvent} (h : Change J fs k ev) :
    (fs.step ev).completion = fs.completion ∨ (∃ c, k = .journal c ∧
      (fs.step ev).completion = some c.toVec) ∨
      (k = .finished ∧ (fs.step ev).completion = none) := by
  cases h with
  | journal => exact Or.inr (Or.inl ⟨_, rfl, rfl⟩)
  | finished => exact Or.inr (Or.inr ⟨rfl, rfl⟩)
  | _ => exact Or.inl rfl

/-! ## Calls -/

theorem Op.kinds_draws {op : Op} {k : Kind} (h : op.Kinds J fs k) :
    ∀ u ∈ k.draws, u ∈ op.draws := by
  have hfin : ∀ c, finishing c k → k.draws = [] := by
    intro c hk
    cases k <;> first | rfl | cases hk
  have hnone : k.draws = [] → ∀ u ∈ k.draws, u ∈ op.draws := by
    intro hd u hu
    rw [hd] at hu
    cases hu
  cases op with
  | put request options now incarnation =>
    obtain ⟨id, rfl⟩ := h
    exact fun u hu => hu
  | bump id => exact hnone (by rw [h]; rfl)
  | bust id => exact hnone (by rw [h]; rfl)
  | del id =>
    rcases h with rfl | rfl
    · exact hnone rfl
    · exact hnone rfl
  | claimNextDue cooldown now token =>
    obtain ⟨e, wait, -, rfl⟩ := h
    exact fun u hu => hu
  | releaseClaim id token attemptedAt =>
    rcases h with rfl | rfl
    · exact hnone rfl
    · exact hnone rfl
  | completeClaim entry tokenHash now commentUrl attempt =>
    rcases h with rfl | h
    · exact hnone rfl
    · exact hnone (hfin _ h)
  | recoverWorkerState fresh =>
    rcases h with ⟨c, -, hk⟩ | ⟨id, rfl⟩
    · exact hnone (hfin c hk)
    · exact hnone rfl
  | reopen fresh =>
    rcases h with ⟨c, -, hk⟩ | ⟨id, rfl⟩ | ⟨id, rfl⟩ | rfl
    · exact hnone (hfin c hk)
    · exact hnone rfl
    · exact hnone rfl
    · exact hnone rfl
  | appendHistory record =>
    rcases h with rfl | rfl
    · exact hnone rfl
    · exact hnone rfl

/-- What every change of a call keeps in a clean directory holds wherever the call is cut off. -/
theorem Op.leaves_invariant {op : Op} {fs' : QueueFs} {I : QueueFs → Prop} (hc : Clean J fs)
    (hs : op.Sound) (hl : op.Leaves J fs fs') (h0 : I fs)
    (hstep : ∀ g k ev, Clean J g → I g → op.Kinds J fs k → Change J g k ev → I (g.step ev))
    (htorn : ∀ g bytes, I g → I (g.step (.appendHistory bytes))) : I fs' := by
  obtain ⟨p, hp, rfl⟩ := hl
  have hboth :
      Throughout QueueFs.step Tears (fun g => Clean J g ∧ I g) fs (op.exec J fs).trace := by
    refine (performs_exec hs).along.throughout ?_ ?_ ⟨hc, h0⟩
    · rintro g ev ⟨hg, hi⟩ ⟨k, hk, hch⟩
      exact ⟨hg.step hch, hstep g k ev hg hi hk hch⟩
    · rintro g ev ev' ⟨hg, hi⟩ - ht
      refine ⟨hg.torn ht, ?_⟩
      cases ht with
      | append => exact htorn g _ hi
  exact (hboth p hp).2

theorem Drawn.leaves {used : List String} {op : Op} {fs' : QueueFs} (h : Drawn J used fs)
    (hc : Clean J fs) (hs : op.Sound) (hl : op.Leaves J fs fs') :
    Drawn J (op.draws ++ used) fs' := by
  refine Op.leaves_invariant hc hs hl ⟨?_, ?_⟩ ?_ ?_
  · exact fun he => List.mem_append_right _ (h.incarnation he)
  · exact fun he ht => List.mem_append_right _ (h.token he ht)
  · intro g k ev hg hi hk hch
    exact hi.step hg hch fun u hu => List.mem_append_left _ (Op.kinds_draws hk u hu)
  · exact fun g bytes hi => ⟨hi.incarnation, hi.token⟩

theorem Bound.leaves {token id incarnation : String} {op : Op} {fs' : QueueFs}
    (h : Bound J token id incarnation fs) (hc : Clean J fs) (hs : op.Sound)
    (hl : op.Leaves J fs fs') (hd : token ∉ op.draws) : Bound J token id incarnation fs' := by
  refine Op.leaves_invariant hc hs hl h ?_ ?_
  · intro g k ev hg hi hk hch
    exact hi.step hg hch fun hu => hd (Op.kinds_draws hk _ hu)
  · exact fun g bytes hi => hi

/-- A call leaves the journal alone, removes it, or writes its own. -/
theorem Op.leaves_completion {op : Op} {fs' : QueueFs} (hc : Clean J fs) (hs : op.Sound)
    (hl : op.Leaves J fs fs') :
    fs'.completion = fs.completion ∨ (op.Kinds J fs .finished ∧ fs'.completion = none) ∨
      ∃ c, op.Kinds J fs (.journal c) ∧ fs'.completion = some c.toVec := by
  refine Op.leaves_invariant (I := fun g => g.completion = fs.completion ∨
    (op.Kinds J fs .finished ∧ g.completion = none) ∨
    ∃ c, op.Kinds J fs (.journal c) ∧ g.completion = some c.toVec) hc hs hl (Or.inl rfl) ?_ ?_
  · intro g k ev hg hi hk hch
    rcases hch.completion_eq with he | ⟨c, rfl, he⟩ | ⟨rfl, he⟩
    · rw [he]; exact hi
    · exact Or.inr (Or.inr ⟨c, hk, he⟩)
    · exact Or.inr (Or.inl ⟨hk, he⟩)
  · exact fun g bytes hi => hi

/-- A call that never touches the journal. -/
def Op.Quiet (J : SerdeJson) (fs : QueueFs) (op : Op) : Prop :=
  ¬ op.Kinds J fs .finished ∧ ∀ c, ¬ op.Kinds J fs (.journal c)

theorem Op.Quiet.completion_eq {op : Op} {fs' : QueueFs} (h : op.Quiet J fs) (hc : Clean J fs)
    (hs : op.Sound) (hl : op.Leaves J fs fs') : fs'.completion = fs.completion := by
  rcases Op.leaves_completion hc hs hl with he | ⟨hk, -⟩ | ⟨c, hk, -⟩
  · exact he
  · exact absurd hk h.1
  · exact absurd hk (h.2 c)

theorem quiet_of_isRequest {op : Op} (h : op.isRequest = true) : op.Quiet J fs := by
  cases op with
  | put | bump | bust | del => simp [Op.Quiet, Op.Kinds]
  | _ => cases h

end Queue

/-! ## The invariant of the daemon -/

/-- The claim `token` was drawn, and whatever carries it is this lifetime of `id`. -/
structure Owns (J : SerdeJson) (used : List String) (fs : QueueFs)
    (token id incarnation : String) : Prop where
  used : token ∈ used
  bound : Bound J token id incarnation fs

structure World.Owned (J : SerdeJson) (w : World) : Prop where
  clean : Clean J w.fs
  drawn : Drawn J w.used w.fs
  /-- A journalled completion carries the claim of the lifetime it logs. -/
  journal : ∀ {c}, w.fs.completion = some (CompletionRecord.toVec c) →
    ∃ token r, c.claimToken = some token ∧ c.history = some r ∧
    Owns J w.used w.fs token c.id r.incarnation
  /-- The worker's claim is of the lifetime it was handed out for. -/
  held : ∀ {e}, w.phase = .up (.holding e) → isValidId e.id = true ∧
    ∃ token, e.claimToken = some token ∧ Owns J w.used w.fs token e.id e.incarnation
  /-- A worker past its recovery finds no journal. -/
  settled : w.phase ≠ .down → w.phase ≠ .up .stopped → w.fs.completion = none

/-- Only a completion of the held claim writes a journal. -/
theorem Calls.of_journal {J : SerdeJson} {fs : QueueFs} {phase : Phase} {a : Action} {op : Op}
    {c : CompletionRecord} (h : Calls phase a op) (hk : op.Kinds J fs (.journal c)) :
    ∃ e tokenHash now commentUrl attempt, phase = .up (.holding e) ∧
      op = .completeClaim e tokenHash now commentUrl attempt := by
  cases h with
  | listen hr => exact absurd hk ((quiet_of_isRequest hr).2 c)
  | complete e tokenHash now commentUrl attempt =>
    exact ⟨e, tokenHash, now, commentUrl, attempt, rfl, rfl⟩
  | recover | claim | recordFailure | release | openQueue =>
    simp [Op.Kinds, finishing] at hk

namespace World.Owned

variable {J : SerdeJson} {w : World}

theorem start (J : SerdeJson) : World.Owned J World.start where
  clean := Clean.empty J
  drawn := by
    constructor
    · intro e he; cases he
    · intro e t he; cases he
  journal := by intro c hc; cases hc
  held := by intro e he; cases he
  settled := by intro h; exact absurd rfl h

theorem sound (h : World.Owned J w) {a : Action} {op : Op} (hc : Calls w.phase a op) :
    op.Sound := by
  obtain ⟨fs, phase, used⟩ := w
  cases hc with
  | listen hr => cases op <;> trivial
  | complete e => exact (h.held rfl).1
  | _ => trivial

/-- A claim drawn before keeps its lifetime through a call. -/
theorem owns_leaves (h : World.Owned J w) {op : Op} {fs' : QueueFs} (hs : op.Sound)
    (hf : ∀ u ∈ op.draws, u ∉ w.used) (hl : op.Leaves J w.fs fs') {token id incarnation : String}
    (ho : Owns J w.used w.fs token id incarnation) :
    Owns J (op.draws ++ w.used) fs' token id incarnation where
  used := List.mem_append_right _ ho.used
  bound := ho.bound.leaves h.clean hs hl fun hd => hf token hd ho.used

/-- The part of the invariant that holds after any part of a call, in whatever phase. -/
theorem leaves (h : World.Owned J w) {a : Action} {op : Op} {fs' : QueueFs}
    (hc : Calls w.phase a op) (hf : ∀ u ∈ op.draws, u ∉ w.used) (hl : op.Leaves J w.fs fs')
    {phase : Phase}
    (hheld : ∀ e, phase = .up (.holding e) → isValidId e.id = true ∧
      ∃ token, e.claimToken = some token ∧
        Owns J (op.draws ++ w.used) fs' token e.id e.incarnation)
    (hset : phase ≠ .down → phase ≠ .up .stopped → fs'.completion = none) :
    World.Owned J ⟨fs', phase, op.draws ++ w.used⟩ where
  clean := h.clean.leaves (h.sound hc) hl
  drawn := h.drawn.leaves h.clean (h.sound hc) hl
  journal := by
    intro c hj
    rcases Op.leaves_completion h.clean (h.sound hc) hl with he | ⟨-, hn⟩ | ⟨c', hk, he⟩
    · obtain ⟨token, r, ht, hr, ho⟩ := h.journal (he.symm.trans hj)
      exact ⟨token, r, ht, hr, h.owns_leaves (h.sound hc) hf hl ho⟩
    · exact absurd (hn.symm.trans hj) (by simp)
    · -- the journal just written is of the worker's own claim
      obtain rfl : c' = c := CompletionRecord.toVec_injective (Option.some.inj (he.symm.trans hj))
      obtain ⟨e, tokenHash, now, commentUrl, attempt, hp, rfl⟩ := hc.of_journal hk
      obtain ⟨-, token, ht, ho⟩ := h.held hp
      rcases hk with hk | hk
      · obtain rfl := Kind.journal.inj hk
        exact ⟨token, _, ht, rfl, h.owns_leaves (h.sound hc) hf hl ho⟩
      · cases hk
  held := hheld _
  settled := hset

/-- A call that neither finishes nor writes a journal keeps the phase it was made in. -/
theorem leaves_quiet (h : World.Owned J w) {a : Action} {op : Op} {fs' : QueueFs}
    (hc : Calls w.phase a op) (hf : ∀ u ∈ op.draws, u ∉ w.used) (hl : op.Leaves J w.fs fs')
    (hq : op.Quiet J w.fs) : World.Owned J ⟨fs', w.phase, op.draws ++ w.used⟩ := by
  refine h.leaves hc hf hl ?_ ?_
  · intro e he
    obtain ⟨hv, token, ht, ho⟩ := h.held he
    exact ⟨hv, token, ht, h.owns_leaves (h.sound hc) hf hl ho⟩
  · intro hd hs
    rw [hq.completion_eq h.clean (h.sound hc) hl]
    exact h.settled hd hs

theorem leaves_idle (h : World.Owned J w) {a : Action} {op : Op} {fs' : QueueFs}
    (hc : Calls w.phase a op) (hf : ∀ u ∈ op.draws, u ∉ w.used) (hl : op.Leaves J w.fs fs')
    {phase : Phase} (hp : phase = .down ∨ phase = .up .stopped) :
    World.Owned J ⟨fs', phase, op.draws ++ w.used⟩ := by
  refine h.leaves hc hf hl ?_ ?_
  · intro e he
    rcases hp with hp | hp
    · rw [hp] at he; cases he
    · rw [hp] at he; cases he
  · intro hd hs
    exact (hp.elim hd hs).elim

theorem failed (h : World.Owned J w) {a : Action} {op : Op} {fs' : QueueFs}
    (hc : Calls w.phase a op) (hf : ∀ u ∈ op.draws, u ∉ w.used) (hl : op.Leaves J w.fs fs') :
    World.Owned J ⟨fs', w.phase.failed op, op.draws ++ w.used⟩ := by
  obtain ⟨fs, phase, used⟩ := w
  have hcall := hc
  cases hc with
  | listen hr =>
    rw [Phase.failed_request hr]
    exact h.leaves_quiet hcall hf hl (quiet_of_isRequest hr)
  | recordFailure => exact h.leaves_quiet hcall hf hl (by simp [Op.Quiet, Op.Kinds])
  | openQueue => exact h.leaves_idle hcall hf hl (Or.inl rfl)
  | _ => exact h.leaves_idle hcall hf hl (Or.inr rfl)

/-- A claim that was handed out is carried by the entry it was handed out for, and by no other. -/
theorem claimed (h : World.Owned J w) {cooldown now : UInt64} {token : Uuid}
    (hf : token.text ∉ w.used) {e : StoredEntry}
    (hok : (claimNextDue J cooldown now token w.fs).outcome = .ok (some (e, 0))) :
    isValidId e.id = true ∧ e.claimToken = some token.text ∧
      Bound J token.text e.id e.incarnation (final (claimNextDue J cooldown now token) w.fs) := by
  rcases h.clean.accounted.covered.claimNextDue_cases cooldown now token with
    ⟨err, -, hrun⟩ | ⟨due, -, hw, hrun⟩ | ⟨x, hd, hrun⟩
  · rw [hrun] at hok; cases hok
  · rw [hrun] at hok
    obtain rfl : due = some (e, 0) := by simpa using hok
    exact absurd (hw e 0 rfl) (by decide)
  · rw [hrun] at hok
    obtain rfl : { x with claimToken := some token.text } = e := by simpa using hok
    have hx := mem_of_nextDue hd
    have hv : isValidId x.id = true := isValidId_of_mem hx
    refine ⟨hv, rfl, ?_⟩
    unfold final
    rw [hrun]
    intro y hy hy'
    rcases (h.clean.accounted.mem_write_update hx (x.updates_claim token)).1 hy with rfl | ⟨hy, -⟩
    · exact ⟨rfl, rfl⟩
    · exact absurd (h.drawn.token hy hy') hf

theorem returned (h : World.Owned J w) {a : Action} {op : Op} {reply : Reply}
    (hc : Calls w.phase a op) (hf : ∀ u ∈ op.draws, u ∉ w.used)
    (hok : (op.exec J w.fs).outcome = .ok reply) :
    World.Owned J ⟨final (op.exec J) w.fs, w.phase.returned op reply, op.draws ++ w.used⟩ := by
  have hl := op.leaves_final J w.fs
  obtain ⟨fs, phase, used⟩ := w
  have hcall := hc
  cases hc with
  | listen hr =>
    rw [Phase.returned_request hr]
    exact h.leaves_quiet hcall hf hl (quiet_of_isRequest hr)
  | recordFailure => exact h.leaves_quiet hcall hf hl (by simp [Op.Quiet, Op.Kinds])
  | openQueue => exact h.leaves_idle hcall hf hl (Or.inr rfl)
  | recover fresh =>
    refine h.leaves hcall hf hl (fun e he => by cases he) fun _ _ => ?_
    obtain ⟨-, -, -, hnone, -⟩ := (h.clean.succeeds_recover fresh).final
    change (final (_ <$> recoverWorkerState J fresh) fs).completion = none
    rw [final_map]
    exact hnone
  | complete e tokenHash now commentUrl attempt =>
    refine h.leaves hcall hf hl (fun e he => by cases he) fun _ _ => ?_
    obtain ⟨hv, token, ht, -⟩ := h.held rfl
    obtain ⟨-, -, hfin⟩ := (h.clean.succeeds_completeClaim hv (Or.inl (by rw [ht]; rfl))
      tokenHash now commentUrl attempt).final
    change
      (final (_ <$> completeClaimWithToken J e tokenHash now commentUrl attempt) fs).completion = _
    rw [final_map, hfin]
    rfl
  | @release e token now ht =>
    have hq : (Op.releaseClaim e.id token now).Quiet J fs := by simp [Op.Quiet, Op.Kinds]
    refine h.leaves hcall hf hl (fun e he => by cases he) fun _ _ => ?_
    rw [hq.completion_eq h.clean (h.sound hcall) hl]
    exact h.settled (by simp) (by simp)
  | claim cooldown now token =>
    have hq : (Op.claimNextDue cooldown now token).Quiet J fs := by simp [Op.Quiet, Op.Kinds]
    have hset : (final ((Op.claimNextDue cooldown now token).exec J) fs).completion = none := by
      rw [hq.completion_eq h.clean (h.sound hcall) hl]
      exact h.settled (by simp) (by simp)
    refine h.leaves hcall hf hl (fun e he => ?_) fun _ _ => hset
    change ((Reply.due <$> claimNextDue J cooldown now token : Store Reply) fs).outcome = _ at hok
    rw [run_map] at hok
    cases ho : (claimNextDue J cooldown now token fs).outcome with
    | error err => rw [ho] at hok; cases hok
    | diverges => rw [ho] at hok; cases hok
    | ok due =>
      rw [ho] at hok
      simp only [Outcome.map, Outcome.ok.injEq] at hok
      rw [← hok] at he
      obtain rfl : due = some (e, 0) := by
        cases due with
        | none => cases he
        | some p =>
          obtain ⟨x, wait⟩ := p
          change (if wait = 0 then Phase.up (.holding x) else _) = _ at he
          split at he
          · next hz => rw [hz]; cases he; rfl
          · cases he
      obtain ⟨hv, ht, hb⟩ := h.claimed (hf _ (List.mem_singleton.2 rfl)) ho
      refine ⟨hv, token.text, ht, List.mem_append_left _ (List.mem_singleton.2 rfl), ?_⟩
      change Bound J token.text e.id e.incarnation
        (final (Reply.due <$> claimNextDue J cooldown now token) fs)
      rw [final_map]
      exact hb

theorem step {a : Action} {w' : World} (h : World.Owned J w) (hs : Step J w a w') :
    World.Owned J w' := by
  cases hs with
  | killed hc hf hl => exact h.leaves_idle hc hf hl (Or.inl rfl)
  | failed hc hf hl => exact h.failed hc hf hl
  | returned hc hf hok => exact h.returned hc hf hok
  | stop _ _ =>
    refine ⟨h.clean, h.drawn, h.journal, ?_, ?_⟩
    · intro e he; cases he
    · intro _ hs; exact absurd rfl hs
  | die _ =>
    refine ⟨h.clean, h.drawn, h.journal, ?_, ?_⟩
    · intro e he; cases he
    · intro hd; exact absurd rfl hd
  | @tamper log _ =>
    refine ⟨h.clean.history log, ⟨h.drawn.incarnation, h.drawn.token⟩, ?_, ?_, h.settled⟩
    · intro c hj
      obtain ⟨token, r, ht, hr, ho⟩ := h.journal hj
      exact ⟨token, r, ht, hr, ho.used, ho.bound⟩
    · intro e he
      obtain ⟨hv, token, ht, ho⟩ := h.held he
      exact ⟨hv, token, ht, ho.used, ho.bound⟩

end World.Owned

theorem World.Reachable.owned {J : SerdeJson} {w : World} (h : w.Reachable J) : w.Owned J :=
  Run.invariant (fun _ _ _ hw _ hs => World.Owned.step hw hs) h (World.Owned.start J)

end Comenq
