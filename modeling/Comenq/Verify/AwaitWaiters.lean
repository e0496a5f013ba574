import Comenq.Verify.AwaitLookups

/-!
# What waiters know

`Waiter.Knows` says for every stage of a handler what it may rely on, as long as no mutation was
published or is under way since the version it looked at. It is kept by the handler's own steps and
by those of all other tasks (`Waiter.Sound.step`, `Waiter.Sound.passes`). From it follow that a
lookup answers as if it were made at one moment, and that a parked handler is up to date.
-/

namespace Comenq

open Traced Signals JsonText

/-! ## The invariant of a waiter -/

/-- The stages from the start of a lookup to the end of the wait that follows it. -/
def AwaitStage.answers : AwaitStage → Bool
  | .opened | .looping | .finished => false
  | _ => true

namespace Waiter

/-- A locked lookup at one of the moments since this one began would return `result`. -/
def Linearized (J : SerdeJson) (cooldown : UInt64) (w : Waiter)
    (result : Except StoreError AwaitState) : Prop :=
  ∃ fs ∈ w.moments, ∃ now ∈ w.clocks, result = resolveAwait J fs w.id w.token cooldown now

/-- Unless something was published since the lookup began, the entry is pending as it was found. -/
def StillPending (J : SerdeJson) (cooldown : UInt64) (s : Shared) (w : Waiter) (eta : UInt64)
    (next : AwaitCursor) : Prop :=
  s.Undisturbed w.began →
    resolveAwait J s.fs w.id (some next) cooldown w.asked = .ok (.pending eta next)

def Knows (J : SerdeJson) (cooldown : UInt64) (s : Shared) (w : Waiter) : AwaitStage → Prop
  | .opened | .looping | .finished | .observing => True
  | .scanning generation => generation = UInt64.ofNat w.first
  | .marked generation =>
    generation = UInt64.ofNat w.first ∧
      (s.Undisturbed w.first → hidden s.fs w.id w.token = .ok false)
  | .rechecking generation completed =>
    generation = UInt64.ofNat w.first ∧ (∀ eta next, completed ≠ .ok (.pending eta next)) ∧
      (s.Undisturbed w.first → resolveAwaitCompletion J s.fs w.id w.token = completed)
  | .resolved result =>
    (w.gap < 2 ^ 64 → w.Linearized J cooldown result) ∧
      ∀ eta next, result = .ok (.pending eta next) →
        next.offset ≤ s.logEnd ∧ w.StillPending J cooldown s eta next
  | .parked =>
    ∃ eta next, w.sent.getLast? = some (.waiting eta) ∧ w.token = some next ∧
      w.StillPending J cooldown s eta next

/-- Waiting frames, and at most one other frame, which ends the handler. -/
def Framed (w : Waiter) : Prop :=
  ∃ waits last, w.sent = waits ++ last ∧ (∀ event ∈ waits, event.isWaiting = true) ∧
    last.length ≤ 1 ∧ ∀ event ∈ last, event.isWaiting = false ∧ w.stage = .finished

structure Sound (J : SerdeJson) (cooldown : UInt64) (s : Shared) (w : Waiter) : Prop where
  within : cursorOffset w.token ≤ s.logEnd
  first_le : w.first ≤ s.commits
  began_le : w.began ≤ s.commits
  seen_le : w.seen ≤ s.commits
  seen_began : w.stage.answers = true → w.seen ≤ w.began
  current : w.stage.looking = true → s.running = none → s.fs ∈ w.moments
  framed : w.Framed
  knows : w.Knows J cooldown s w.stage

end Waiter

/-! ## Steps of others -/

section Others

variable {J : SerdeJson} {cooldown : UInt64} {s s' : Shared} {w : Waiter}

theorem Waiter.Knows.passes {stage : AwaitStage} (h : w.Knows J cooldown s stage)
    (hp : s.Passes J s') (hwithin : cursorOffset w.token ≤ s.logEnd) (hfirst : w.first ≤ s.commits)
    (hbegan : w.began ≤ s.commits) : w.Knows J cooldown s' stage := by
  have hpending : ∀ eta next, w.StillPending J cooldown s eta next →
      w.StillPending J cooldown s' eta next := by
    intro eta next hstill hu
    exact (hp.alike _ hbegan hu).pending (hstill (hp.back _ hbegan hu))
  cases stage with
  | opened | looping | finished | observing => trivial
  | scanning generation => exact h
  | marked generation =>
    refine ⟨h.1, fun hu => ?_⟩
    rw [(hp.alike _ hfirst hu).hidden_eq]
    exact h.2 (hp.back _ hfirst hu)
  | rechecking generation completed =>
    refine ⟨h.1, h.2.1, fun hu => ?_⟩
    have halike := hp.alike _ hfirst hu
    rw [resolveAwaitCompletion_eq, halike.hidden_eq, halike.newest_eq w.id hwithin,
      ← resolveAwaitCompletion_eq]
    exact h.2.2 (hp.back _ hfirst hu)
  | resolved result =>
    refine ⟨h.1, fun eta next hr => ?_⟩
    obtain ⟨hoffset, hstill⟩ := h.2 eta next hr
    exact ⟨hoffset.trans hp.logEnd_le, hpending eta next hstill⟩
  | parked =>
    obtain ⟨eta, next, hlast, htoken, hstill⟩ := h
    exact ⟨eta, next, hlast, htoken, hpending eta next hstill⟩

/-- Growing the set of moments takes no knowledge away. -/
theorem Waiter.Knows.moments {stage : AwaitStage} (h : w.Knows J cooldown s stage) {m : Set QueueFs}
    (hm : w.moments ⊆ m) : Waiter.Knows J cooldown s { w with moments := m } stage := by
  cases stage with
  | resolved result =>
    refine ⟨fun hgap => ?_, h.2⟩
    obtain ⟨fs, hfs, hrest⟩ := h.1 hgap
    exact ⟨fs, hm hfs, hrest⟩
  | _ => exact h

/-- A waiter stays sound when the shared state changes around it. -/
theorem Waiter.Sound.passes (h : w.Sound J cooldown s) (hp : s.Passes J s')
    (hcurrent : w.stage.looking = true → s'.running = none → s'.fs ∈ w.moments) :
    w.Sound J cooldown s' where
  within := h.within.trans hp.logEnd_le
  first_le := h.first_le.trans hp.commits_le
  began_le := h.began_le.trans hp.commits_le
  seen_le := h.seen_le.trans hp.commits_le
  seen_began := h.seen_began
  current := hcurrent
  framed := h.framed
  knows := h.knows.passes hp h.within h.first_le h.began_le

theorem Waiter.Sound.witness (h : w.Sound J cooldown s) (hp : s.Passes J s') :
    (w.witness s').Sound J cooldown s' := by
  unfold Waiter.witness
  by_cases hl : w.stage.looking = true
  · rw [if_pos hl]
    have hgrown : Waiter.Sound J cooldown s { w with moments := w.moments ∪ s'.moment } :=
      ⟨h.within, h.first_le, h.began_le, h.seen_le, h.seen_began,
        fun _ hfree => Or.inl (h.current hl hfree), h.framed, h.knows.moments Set.subset_union_left⟩
    exact hgrown.passes hp fun _ hfree => Or.inr ⟨hfree, rfl⟩
  · rw [if_neg hl]
    exact h.passes hp fun hlooking => absurd hlooking hl

end Others

/-! ## Steps of the waiter -/

namespace Waiter

variable {J : SerdeJson} {cooldown : UInt64} {s : Shared} {w : Waiter}

/-- A handler that has not ended has sent waiting frames only. -/
theorem Framed.waiting (h : w.Framed) (hs : w.stage ≠ .finished) :
    ∀ event ∈ w.sent, event.isWaiting = true := by
  obtain ⟨waits, last, hsent, hwaits, -, hlast⟩ := h
  have hnil : last = [] := by
    rw [List.eq_nil_iff_forall_not_mem]
    intro event hevent
    exact hs (hlast event hevent).2
  rw [hsent, hnil, List.append_nil]
  exact hwaits

theorem framed_of_waiting {w' : Waiter} (h : ∀ event ∈ w'.sent, event.isWaiting = true) :
    w'.Framed :=
  ⟨w'.sent, [], (List.append_nil _).symm, h, Nat.zero_le _, by simp⟩

/-- The last frame ends the handler. -/
theorem Sound.close (h : w.Sound J cooldown s) (hs : w.stage ≠ .finished) {event : AwaitEvent}
    (he : event.isWaiting = false) : (w.close event).Sound J cooldown s where
  within := h.within
  first_le := h.first_le
  began_le := h.began_le
  seen_le := h.seen_le
  seen_began := by intro hstage; cases hstage
  current := by intro hstage; cases hstage
  framed := by
    refine ⟨w.sent, [event], rfl, h.framed.waiting hs, Nat.le_refl _, ?_⟩
    intro event' hevent'
    obtain rfl := List.mem_singleton.1 hevent'
    exact ⟨he, rfl⟩
  knows := trivial

/-- A change of stage that neither sends nor looks anything up. -/
theorem Sound.moves (h : w.Sound J cooldown s) (hs : w.stage ≠ .finished)
    {stage : AwaitStage} {seen : Nat} (hstage : stage = .looping ∨ stage = .finished)
    (hseen : seen ≤ s.commits) : Sound J cooldown s { w with stage := stage, seen := seen } := by
  have hwaiting := h.framed.waiting hs
  refine ⟨h.within, h.first_le, h.began_le, hseen, ?_, ?_, framed_of_waiting hwaiting, ?_⟩
  · intro ha
    rcases hstage with rfl | rfl
    · cases ha
    · cases ha
  · intro hl
    rcases hstage with rfl | rfl
    · cases hl
    · cases hl
  · rcases hstage with rfl | rfl
    · trivial
    · trivial

/-- A new stage of the same lookup, with the clock value of an observation. -/
theorem Sound.looks (h : w.Sound J cooldown s) (hl : w.stage.looking = true) {stage : AwaitStage}
    {first gap : Nat} {asked : UInt64} {clocks : Set UInt64} (hfirst : first ≤ s.commits)
    (hk : Knows J cooldown s
      { w with
        stage := stage, first := first, gap := gap, asked := asked, clocks := clocks } stage) :
    Sound J cooldown s
      { w with stage := stage, first := first, gap := gap, asked := asked, clocks := clocks } := by
  have hnot : w.stage ≠ .finished := by
    intro hf
    rw [hf] at hl
    cases hl
  have hanswers : w.stage.answers = true := by
    cases hst : w.stage with
    | opened | looping | finished | resolved | parked => rw [hst] at hl; cases hl
    | observing | scanning | marked | rechecking => rfl
  exact ⟨h.within, hfirst, h.began_le, h.seen_le, fun _ => h.seen_began hanswers,
    fun _ => h.current hl, framed_of_waiting (h.framed.waiting hnot), hk⟩

/-- A pending answer is final. -/
theorem Sound.knows_pending (h : w.Sound J cooldown s) (hl : w.stage.looking = true)
    (free : s.running = none) {now : UInt64} {pending : AwaitState}
    (hp : resolveAwaitPendingWithEta J s.fs w.id w.token (scheduledEta J s.fs cooldown now) =
      .ok (some pending)) :
    Knows J cooldown s
      { w with
        stage := .resolved (.ok pending), gap := 0, asked := now, clocks := insert now w.clocks }
      (.resolved (.ok pending)) := by
  refine ⟨fun _ => ⟨s.fs, h.current hl free, now, Set.mem_insert now _, ?_⟩, ?_⟩
  · rw [resolveAwait_eq, hp]
  · intro eta next heq
    rw [Except.ok.inj heq] at hp
    obtain ⟨hrepeats, hoffset⟩ := pending_repeats hp
    refine ⟨?_, fun _ => hrepeats⟩
    rcases hoffset with hoffset | htoken
    · rw [hoffset, Shared.logEnd_of_free free]
    · have hwithin := h.within
      rw [htoken] at hwithin
      exact hwithin

/-- So is an error. -/
theorem Sound.knows_error (h : w.Sound J cooldown s) (hl : w.stage.looking = true)
    (free : s.running = none) {now : UInt64} {err : StoreError}
    (hp : resolveAwaitPendingWithEta J s.fs w.id w.token (scheduledEta J s.fs cooldown now) =
      .error err) :
    Knows J cooldown s
      { w with
        stage := .resolved (.error err), gap := 0, asked := now, clocks := insert now w.clocks }
      (.resolved (.error err)) := by
  refine ⟨fun _ => ⟨s.fs, h.current hl free, now, Set.mem_insert now _, ?_⟩, ?_⟩
  · rw [resolveAwait_eq, hp]
  · intro eta next heq
    cases heq

/-- The first observation of a round. -/
theorem Sound.observed (h : w.Sound J cooldown s) (hs : s.Sound J cooldown)
    (observing : w.stage = .observing) (free : s.running = none) (now : UInt64) :
    (w.observed now s.commits (s.queue.observeAwaitState J w.id w.token cooldown now).1).Sound J
      cooldown s := by
  have hl : w.stage.looking = true := by rw [observing]; rfl
  rw [hs.observed free]
  cases hp : resolveAwaitPendingWithEta J s.fs w.id w.token (scheduledEta J s.fs cooldown now) with
  | error err => exact h.looks hl h.first_le (h.knows_error hl free hp)
  | ok pending =>
    cases pending with
    | some pending => exact h.looks hl h.first_le (h.knows_pending hl free hp)
    | none => exact h.looks hl (Nat.le_refl _) rfl

theorem Sound.markerRead (h : w.Sound J cooldown s) {generation : UInt64}
    (scanning : w.stage = .scanning generation) :
    (w.markerRead generation (hidden s.fs w.id w.token)).Sound J cooldown s := by
  have hl : w.stage.looking = true := by rw [scanning]; rfl
  have hk := h.knows
  rw [scanning] at hk
  have hcompletion : resolveAwaitCompletion J s.fs w.id w.token = _ := resolveAwaitCompletion_eq
  cases hm : hidden s.fs w.id w.token with
  | error err =>
    rw [hm] at hcompletion
    exact h.looks hl h.first_le ⟨hk, by simp, fun _ => hcompletion⟩
  | ok deleted =>
    rw [hm] at hcompletion
    cases deleted with
    | true => exact h.looks hl h.first_le ⟨hk, by simp, fun _ => hcompletion⟩
    | false => exact h.looks hl h.first_le ⟨hk, fun _ => hm⟩

theorem Sound.readHistory (h : w.Sound J cooldown s) {generation : UInt64}
    (marked : w.stage = .marked generation) :
    Sound J cooldown s
      { w with stage := .rechecking generation (.ok (newest J s.fs w.id w.token)) } := by
  have hl : w.stage.looking = true := by rw [marked]; rfl
  have hk := h.knows
  rw [marked] at hk
  refine h.looks hl h.first_le ⟨hk.1, ?_, fun hu => ?_⟩
  · intro eta next heq
    have hnewest := Except.ok.inj heq
    unfold newest at hnewest
    split at hnewest <;> cases hnewest
  · rw [resolveAwaitCompletion_eq, hk.2 hu]

/-- The second observation of a round: with the version unchanged since the first, the scan is that
of the present directory. -/
theorem Sound.rechecked (h : w.Sound J cooldown s) (hs : s.Sound J cooldown) {generation : UInt64}
    {completed : Except StoreError AwaitState}
    (rechecking : w.stage = .rechecking generation completed) (free : s.running = none)
    (now : UInt64) : (w.rechecked generation completed now s.commits
      (s.queue.observeAwaitState J w.id w.token cooldown now).1).Sound J cooldown s := by
  have hl : w.stage.looking = true := by rw [rechecking]; rfl
  have hk := h.knows
  rw [rechecking] at hk
  obtain ⟨rfl, hnever, hscan⟩ := hk
  rw [hs.observed free]
  cases hp : resolveAwaitPendingWithEta J s.fs w.id w.token (scheduledEta J s.fs cooldown now) with
  | error err => exact h.looks hl h.first_le (h.knows_error hl free hp)
  | ok pending =>
    cases pending with
    | some pending => exact h.looks hl h.first_le (h.knows_pending hl free hp)
    | none =>
      simp only [Waiter.rechecked, Except.map]
      split
      · next hsame =>
        refine h.looks hl h.first_le ⟨fun hgap => ?_, fun eta next heq =>
          absurd heq (hnever eta next)⟩
        have hfirst := h.first_le
        have hcommits : s.commits = w.first := by
          have hmod := congrArg UInt64.toNat hsame
          rw [UInt64.toNat_ofNat', UInt64.toNat_ofNat'] at hmod
          change s.commits - w.first < 2 ^ 64 at hgap
          omega
        refine ⟨s.fs, h.current hl free, now, Set.mem_insert now _, ?_⟩
        rw [resolveAwait_eq, hp]
        exact (hscan ⟨hcommits, Shared.calm_of_free free⟩).symm
      · exact h.looks hl h.first_le trivial

/-- A frame for the result of the lookup. -/
theorem Sound.replied (h : w.Sound J cooldown s) {result : Except StoreError AwaitState}
    (resolved : w.stage = .resolved result) :
    (w.replied (respond w.token (result.mapError .ofStore))).Sound J cooldown s := by
  have hnot : w.stage ≠ .finished := by rw [resolved]; simp
  have hk := h.knows
  rw [resolved] at hk
  have hkind := isWaiting_respond w.token (result.mapError .ofStore)
  cases hr : respond w.token (result.mapError .ofStore) with
  | mk event selected =>
    rw [hr] at hkind
    cases selected with
    | none => exact h.close hnot hkind
    | some next =>
      obtain ⟨eta, rfl, hresult⟩ : ∃ eta, event = .waiting eta ∧
          result = .ok (.pending eta next) := by
        cases result with
        | error err => cases hr
        | ok state =>
          cases state with
          | pending eta selected =>
            obtain ⟨rfl, hsel⟩ := Prod.mk.inj hr
            obtain rfl := Option.some.inj hsel
            exact ⟨eta, rfl, rfl⟩
          | posted url postedAt => cases url <;> cases (Prod.mk.inj hr).2
          | unknown => cases hr
      obtain ⟨hoffset, hstill⟩ := hk.2 eta next hresult
      have hbegan : w.seen ≤ w.began := h.seen_began (by rw [resolved]; rfl)
      refine ⟨hoffset, h.first_le, h.began_le, h.seen_le, fun _ => hbegan, nofun, ?_,
        eta, next, List.getLast?_concat, rfl, hstill⟩
      apply framed_of_waiting
      intro event hevent
      rcases List.mem_append.1 hevent with hevent | hevent
      · exact h.framed.waiting hnot event hevent
      · obtain rfl := List.mem_singleton.1 hevent
        rfl

/-- Every step of a waiter keeps its invariant. -/
theorem Sound.step {queue : SharedQueue} {w' : Waiter} (h : w.Sound J cooldown s)
    (hs : s.Sound J cooldown) (hstep : w.Step J cooldown s queue w') : w'.Sound J cooldown s := by
  cases hstep with
  | subscribe opened => exact h.moves (by rw [opened]; simp) (Or.inl rfl) (Nat.le_refl _)
  | refuse opened => exact h.close (by rw [opened]; simp) rfl
  | shutdown idle =>
    refine h.close ?_ rfl
    rcases idle with hidle | hidle <;> rw [hidle] <;> simp
  | gone sending =>
    refine h.moves ?_ (Or.inr rfl) h.seen_le
    rcases sending with hs | hs | hs | ⟨result, hs⟩ <;> rw [hs] <;> simp
  | lookup looping =>
    have hwaiting := h.framed.waiting (by rw [looping]; simp)
    exact ⟨h.within, h.first_le, Nat.le_refl _, h.seen_le, fun _ => h.seen_le,
      fun _ hfree => ⟨hfree, rfl⟩, framed_of_waiting hwaiting, trivial⟩
  | observe now observing free => exact h.observed hs observing free now
  | readMarker scanning => exact h.markerRead scanning
  | readHistory marked => exact h.readHistory marked
  | recheck now rechecking free => exact h.rechecked hs rechecking free now
  | reply resolved => exact h.replied resolved
  | wake parked ready => exact h.moves (by rw [parked]; simp) (Or.inl rfl) (Nat.le_refl _)
  | heartbeat parked => exact h.moves (by rw [parked]; simp) (Or.inl rfl) h.seen_le

/-- A waiter leaves nothing behind but a fresher cache. -/
theorem Step.passes {queue : SharedQueue} {w' : Waiter} (hs : s.Sound J cooldown)
    (hstep : w.Step J cooldown s queue w') :
    Shared.Sound J cooldown ⟨queue, s.running⟩ ∧ s.Passes J ⟨queue, s.running⟩ ∧
      Shared.fs ⟨queue, s.running⟩ = s.fs := by
  have hsame : Shared.Sound J cooldown ⟨queue, s.running⟩ ∧
      queue.stateVersion = s.queue.stateVersion ∧ Shared.fs ⟨queue, s.running⟩ = s.fs := by
    cases hstep with
    | observe now observing free =>
      obtain ⟨hsound, hfs⟩ := hs.observe free w.id w.token now
      exact ⟨hsound, rfl, hfs⟩
    | recheck now rechecking free =>
      obtain ⟨hsound, hfs⟩ := hs.observe free w.id w.token now
      exact ⟨hsound, rfl, hfs⟩
    | _ => exact ⟨hs, rfl, rfl⟩
  obtain ⟨hsound, hversion, hfs⟩ := hsame
  have hcommits : Shared.commits ⟨queue, s.running⟩ = s.commits := congrArg Watch.sends hversion
  have hend : Shared.logEnd ⟨queue, s.running⟩ = s.logEnd := by
    unfold Shared.logEnd
    rw [hfs]
  refine ⟨hsound, ⟨hcommits.ge, hend.ge, fun n _ hu => ?_, fun n _ _ => ?_⟩, hfs⟩
  · exact ⟨hcommits.symm.trans hu.1, hu.2⟩
  · rw [hfs]
    exact Alike.refl J _ _

end Waiter

/-! ## Runs -/

namespace AwaitServer

variable {ι : Type} {J : SerdeJson} {cooldown : UInt64} {s s' : AwaitServer ι}

structure Sound (J : SerdeJson) (cooldown : UInt64) (s : AwaitServer ι) : Prop where
  shared : s.shared.Sound J cooldown
  waiters : ∀ i, (s.waiters i).Sound J cooldown s.shared

theorem sound_start {fs : QueueFs} {ids : ι → String} {tokens : ι → Option AwaitCursor}
    (within : ∀ i, ∀ token ∈ tokens i, token.offset ≤ fs.historyBytes.length) :
    (start fs ids tokens).Sound J cooldown := by
  constructor
  · refine ⟨rfl, ?_, ?_, fun _ => coherent_none J cooldown _⟩
    · intro r hr
      cases hr
    · intro r hr
      cases hr
  · intro i
    refine ⟨?_, Nat.zero_le _, Nat.zero_le _, Nat.zero_le _, nofun, nofun,
      Waiter.framed_of_waiting nofun, trivial⟩
    change cursorOffset (tokens i) ≤ fs.historyBytes.length
    cases ht : tokens i with
    | none => exact Nat.zero_le _
    | some token => exact within i token ht

variable [DecidableEq ι]

theorem Sound.step (h : s.Sound J cooldown) (hs : s.Step J cooldown s') : s'.Sound J cooldown := by
  cases hs with
  | task step =>
    obtain ⟨hshared, hpasses⟩ := h.shared.step step
    exact ⟨hshared, fun i => (h.waiters i).witness hpasses⟩
  | @waiter queue w i step =>
    obtain ⟨hshared, hpasses, hfs⟩ := Waiter.Step.passes h.shared step
    -- every waiter is sound before the new cache is in place, and the cache is nothing to them
    have hbefore : ∀ j, (Function.update s.waiters i w j).Sound J cooldown s.shared := by
      intro j
      by_cases hj : j = i
      · subst hj
        rw [Function.update_self]
        exact (h.waiters j).step h.shared step
      · rw [Function.update_of_ne hj]
        exact h.waiters j
    refine ⟨hshared, fun j => (hbefore j).passes hpasses fun hl hfree => ?_⟩
    rw [hfs]
    exact (hbefore j).current hl hfree

theorem Reachable.sound (h : Reachable J cooldown s) : s.Sound J cooldown := by
  induction h with
  | start within => exact sound_start within
  | step _ hs ih => exact ih.step hs

/-- A handler that has ended stays as it is. -/
theorem Step.finished {i : ι} (hs : s.Step J cooldown s') (hf : (s.waiters i).stage = .finished) :
    s'.waiters i = s.waiters i := by
  cases hs with
  | task step =>
    change (s.waiters i).witness _ = s.waiters i
    unfold Waiter.witness
    rw [hf]
    rfl
  | @waiter queue w j step =>
    by_cases hj : i = j
    · subst hj
      exfalso
      cases step with
      | subscribe hstage | refuse hstage | lookup hstage | observe _ hstage | readMarker hstage
      | readHistory hstage | recheck _ hstage | reply hstage | wake hstage | heartbeat hstage =>
        rw [hf] at hstage
        cases hstage
      | shutdown hstage =>
        rw [hf] at hstage
        rcases hstage with hstage | hstage <;> cases hstage
      | gone hstage =>
        rw [hf] at hstage
        rcases hstage with hstage | hstage | hstage | ⟨result, hstage⟩ <;> cases hstage
    · exact Function.update_of_ne hj w s.waiters

end AwaitServer

/-! ## Linearizability -/

/-- A lookup whose deciding round fewer than 2^64 mutations overlap returns what a locked lookup
would have returned, for one of the clock values it used, at one moment since it began. -/
theorem resolve_await_linearizable {ι : Type} [DecidableEq ι] {J : SerdeJson} {cooldown : UInt64}
    {s : AwaitServer ι} (h : AwaitServer.Reachable J cooldown s) {i : ι}
    {result : Except StoreError AwaitState} (hr : (s.waiters i).stage = .resolved result)
    (hgap : (s.waiters i).gap < 2 ^ 64) :
    ∃ fs ∈ (s.waiters i).moments, ∃ now ∈ (s.waiters i).clocks,
      result = resolveAwait J fs (s.waiters i).id (s.waiters i).token cooldown now := by
  have hk := (h.sound.waiters i).knows
  rw [hr] at hk
  exact hk.1 hgap

/-! ### Runs of one waiter -/

/-- After another task has left the directory as `fs`. -/
def Waiter.sees (w : Waiter) (fs : QueueFs) : Waiter :=
  if w.stage.looking then { w with moments := insert fs w.moments } else w

/-- Some run leads to the directory `fs` at version `n`, with the lock free and the one waiter at
`w`. -/
def Alone (J : SerdeJson) (cooldown : UInt64) (fs : QueueFs) (n : Nat) (w : Waiter) : Prop :=
  ∃ s : AwaitServer Unit, AwaitServer.Reachable J cooldown s ∧ s.shared.running = none ∧
    s.shared.fs = fs ∧ s.shared.commits = n ∧ s.waiters () = w

namespace Alone

variable {J : SerdeJson} {cooldown : UInt64} {fs : QueueFs} {n : Nat} {w : Waiter}

theorem start (fs : QueueFs) (id : String) : Alone J cooldown fs 0 (.start id none) :=
  ⟨.start fs (fun _ => id) fun _ => none, .start nofun, rfl, rfl, rfl, rfl⟩

/-- No lookup sees a directory while a call holds the lock. -/
theorem witness_busy (waiters : Unit → Waiter) (q : SharedQueue) (r : Running) :
    (fun i => (waiters i).witness ⟨q, some r⟩) = waiters := by
  have hnone : Shared.moment ⟨q, some r⟩ = ∅ := by
    rw [Set.eq_empty_iff_forall_notMem]
    rintro fs ⟨hfree, -⟩
    cases hfree
  funext i
  unfold Waiter.witness
  rw [hnone, Set.union_empty, ite_self]

/-- The events of a call that holds the lock. -/
theorem performs {op : Op} {outcome : Outcome StoreError Reply} {logged : Nat}
    {waiters : Unit → Waiter} {todo : List FsEvent} {q : SharedQueue}
    (h : AwaitServer.Reachable J cooldown ⟨⟨q, some ⟨op, todo, outcome, logged⟩⟩, waiters⟩) :
    AwaitServer.Reachable J cooldown
      ⟨⟨q.withFs (QueueFs.run q.state.fs todo), some ⟨op, [], outcome, logged⟩⟩, waiters⟩ := by
  induction todo generalizing q with
  | nil => exact h
  | cons ev todo ih =>
    have hnext := h.step (.task (.perform rfl rfl))
    rw [witness_busy] at hnext
    exact ih hnext

theorem moment_free {s : Shared} (free : s.running = none) : s.moment = {s.fs} := by
  ext fs
  exact ⟨fun h => h.2, fun h => ⟨free, h⟩⟩

/-- A mutation that succeeds. -/
theorem call (h : Alone J cooldown fs n w) {op : Op} (served : op.Served)
    (hm : op.isStateMutation = true) {reply : Reply} (hok : (op.exec J fs).outcome = .ok reply) :
    Alone J cooldown (final (op.exec J) fs) (n + 1) (w.sees (final (op.exec J) fs)) := by
  obtain ⟨s, hs, free, rfl, rfl, rfl⟩ := h
  have hlocked := hs.step (.task (.acquire free served (Or.inl ⟨reply, hok⟩)))
  rw [witness_busy] at hlocked
  have hreleased := (performs hlocked).step (.task (.release rfl rfl))
  have hsettle : ∀ q : SharedQueue, q.settle op (op.exec J s.shared.fs).outcome = q.publish := by
    intro q
    rw [hok]
    exact if_pos hm
  rw [hsettle] at hreleased
  refine ⟨_, hreleased, rfl, rfl, rfl, ?_⟩
  change Waiter.witness _ _ = Waiter.sees _ _
  unfold Waiter.witness Waiter.sees
  rw [moment_free rfl, Set.union_singleton]
  rfl

/-- A step of the waiter that leaves the queue alone. -/
theorem move (h : Alone J cooldown fs n w) {w' : Waiter}
    (hstep : ∀ s : Shared, s.running = none → s.fs = fs → s.commits = n →
      w.Step J cooldown s s.queue w') : Alone J cooldown fs n w' := by
  obtain ⟨s, hs, free, rfl, rfl, rfl⟩ := h
  exact ⟨_, hs.step (.waiter () (hstep s.shared free rfl rfl)), free, rfl, rfl,
    Function.update_self () w' s.waiters⟩

/-- The start of a lookup, right after the subscription. -/
theorem lookup (h : Alone J cooldown fs n w) (opened : w.stage = .opened) :
    Alone J cooldown fs n
      { w with stage := .observing, seen := n, began := n, clocks := ∅, moments := {fs} } := by
  have hsubscribed : Alone J cooldown fs n { w with stage := .looping, seen := n } :=
    h.move fun s _ _ hn => hn ▸ .subscribe opened
  refine hsubscribed.move fun s free hfs hn => ?_
  subst hfs hn
  rw [← moment_free free]
  exact .lookup rfl

/-- The pending answer of an observation at version `n`. -/
def snapshot (J : SerdeJson) (cooldown : UInt64) (fs : QueueFs) (n : Nat) (id : String)
    (token : Option AwaitCursor) (now : UInt64) : Except StoreError AwaitSnapshot :=
  (resolveAwaitPendingWithEta J fs id token (scheduledEta J fs cooldown now)).map
    fun pending => ⟨UInt64.ofNat n, pending⟩

theorem observe (h : Alone J cooldown fs n w) (observing : w.stage = .observing) {now : UInt64}
    {seen : Except StoreError AwaitSnapshot}
    (hseen : snapshot J cooldown fs n w.id w.token now = seen) :
    Alone J cooldown fs n (w.observed now n seen) := by
  subst hseen
  obtain ⟨s, hs, free, rfl, rfl, rfl⟩ := h
  refine ⟨_, hs.step (.waiter () (.observe now observing free)), free, ?_, rfl, ?_⟩
  · exact (hs.sound.shared.observe free _ _ now).2
  · rw [hs.sound.shared.observed free]
    exact Function.update_self () _ s.waiters

theorem recheck (h : Alone J cooldown fs n w) {generation : UInt64}
    {completed : Except StoreError AwaitState}
    (rechecking : w.stage = .rechecking generation completed) {now : UInt64}
    {seen : Except StoreError AwaitSnapshot}
    (hseen : snapshot J cooldown fs n w.id w.token now = seen) :
    Alone J cooldown fs n (w.rechecked generation completed now n seen) := by
  subst hseen
  obtain ⟨s, hs, free, rfl, rfl, rfl⟩ := h
  refine ⟨_, hs.step (.waiter () (.recheck now rechecking free)), free, ?_, rfl, ?_⟩
  · exact (hs.sound.shared.observe free _ _ now).2
  · rw [hs.sound.shared.observed free]
    exact Function.update_self () _ s.waiters

theorem readMarker (h : Alone J cooldown fs n w) {generation : UInt64}
    (scanning : w.stage = .scanning generation) {seen : Except StoreError Bool}
    (hseen : Waiter.hidden fs w.id w.token = seen) :
    Alone J cooldown fs n (w.markerRead generation seen) := by
  subst hseen
  exact h.move fun _ _ hfs _ => hfs ▸ .readMarker scanning

theorem readHistory (h : Alone J cooldown fs n w) {generation : UInt64}
    (marked : w.stage = .marked generation) {seen : AwaitState}
    (hseen : Waiter.newest J fs w.id w.token = seen) :
    Alone J cooldown fs n { w with stage := .rechecking generation (.ok seen) } := by
  subst hseen
  exact h.move fun _ _ hfs _ => hfs ▸ .readHistory marked

/-- Calls that count as mutations and change nothing. -/
theorem repeats (h : Alone J cooldown fs n w) {op : Op} (served : op.Served)
    (hm : op.isStateMutation = true) {reply : Reply} (hok : (op.exec J fs).outcome = .ok reply)
    (hidle : (op.exec J fs).trace = []) (hseen : fs ∈ w.moments) (k : Nat) :
    Alone J cooldown fs (n + k) w := by
  have hsame : final (op.exec J) fs = fs := congrArg (QueueFs.run fs) hidle
  have hsees : w.sees fs = w := by
    unfold Waiter.sees
    rw [Set.insert_eq_of_mem hseen, ite_self]
  induction k with
  | zero => exact h
  | succ k ih =>
    have hnext := ih.call served hm hok
    rw [hsame, hsees] at hnext
    exact hnext

end Alone

/-! ### Samples -/

/-- A call of another task, with its reply and the events it performs. -/
structure SampleCall where
  op : Op
  reply : Reply
  events : List FsEvent

/-- The call does as noted when it is made in `fs`. -/
def SampleCall.Made (c : SampleCall) (fs : QueueFs) : Prop :=
  (c.op.exec serdeJson fs).outcome = .ok c.reply ∧ (c.op.exec serdeJson fs).trace = c.events

instance (c : SampleCall) (fs : QueueFs) : Decidable (c.Made fs) := by
  unfold SampleCall.Made
  infer_instance

/-- The directory after the first `n` of the calls, made in an empty one. -/
def sampleAfter (calls : List SampleCall) (n : Nat) : QueueFs :=
  QueueFs.run .empty ((calls.take n).flatMap SampleCall.events)

theorem sampleAfter_add_one {calls : List SampleCall} {k : Nat} {c : SampleCall}
    (hc : calls[k]? = some c) (hmade : c.Made (sampleAfter calls k)) :
    final (c.op.exec serdeJson) (sampleAfter calls k) = sampleAfter calls (k + 1) := by
  change QueueFs.run (sampleAfter calls k) (c.op.exec serdeJson (sampleAfter calls k)).trace = _
  rw [hmade.2]
  unfold sampleAfter
  rw [List.take_add_one, hc, List.flatMap_append, Option.toList_some, List.flatMap_singleton]
  exact (CrashTrace.run_append ..).symm

/-- The comment of the sample runs. -/
def sampleQueued (n : Nat) (claimToken : Option String) : StoredEntry where
  id := "4e881b86"
  incarnation := (sampleUuid n).text
  order := 0
  flutterSeconds := 0
  enqueuedAt := 1000
  notBefore := 0
  claimToken := claimToken
  request := sampleRequest

def SampleCall.put (n : Nat) : SampleCall where
  op := .put sampleRequest ⟨900, 0, true⟩ 1000 (sampleUuid n)
  reply := .stored (sampleQueued n none) 0
  events := [.writeAtomic (.entry "4e881b86") (sampleQueued n none).toVecPretty]

def SampleCall.del (n : Nat) : SampleCall where
  op := .del "4e881b86"
  reply := .done
  events :=
    [.writeAtomic (.awaitDeletion "4e881b86") (AwaitDeletionRecord.toVec ⟨(sampleUuid n).text⟩),
    .removeFile (.entry "4e881b86")]

def sampleClaimed : StoredEntry := sampleQueued 1 (some (sampleUuid 2).text)

def SampleCall.claim : SampleCall where
  op := .claimNextDue 900 1000 (sampleUuid 2)
  reply := .due (some (sampleClaimed, 0))
  events := [.writeAtomic (.entry "4e881b86") sampleClaimed.toVecPretty]

def samplePosted : HistoryRecord := .succeeded (sampleUuid 4) sampleClaimed "hash" 1000 (some "url")

/-- The claimed comment is recorded as posted, after its entry was deleted. -/
def SampleCall.complete : SampleCall where
  op := .completeClaim sampleClaimed "hash" 1000 (some "url") (sampleUuid 4)
  reply := .done
  events := [.writeAtomic .completion
      (completionRecord sampleClaimed "hash" 1000 (some "url") (sampleUuid 4) 0).toVec,
    .openHistory, .appendHistory (samplePosted.toVec ++ [nl]), .syncHistory, .syncDir .root,
    .removeFile (.awaitDeletion "4e881b86"), .syncDir .awaitDeletions,
    .writeAtomic .lastPost (decimalU64 1000), .removeFile .completion, .syncDir .root]

/-- A comment is claimed, deleted and queued again before it is recorded as posted; the new entry is
deleted too. -/
def sampleReplaced : List SampleCall :=
  [SampleCall.put 1, SampleCall.claim, SampleCall.del 1, SampleCall.put 3, SampleCall.complete,
    SampleCall.del 3]

theorem sampleReplaced_made :
    (SampleCall.put 1).Made (sampleAfter sampleReplaced 0) ∧
      SampleCall.claim.Made (sampleAfter sampleReplaced 1) ∧
      (SampleCall.del 1).Made (sampleAfter sampleReplaced 2) ∧
      (SampleCall.put 3).Made (sampleAfter sampleReplaced 3) := by
  decide +kernel

theorem sampleReplaced_clean : Clean serdeJson (sampleAfter sampleReplaced 4) := by
  have hstep : ∀ k c, sampleReplaced[k]? = some c → c.op.Sound →
      c.Made (sampleAfter sampleReplaced k) → Clean serdeJson (sampleAfter sampleReplaced k) →
      Clean serdeJson (sampleAfter sampleReplaced (k + 1)) := by
    intro k c hc hs hmade hclean
    rw [← sampleAfter_add_one hc hmade]
    exact hclean.leaves hs (Op.leaves_final _ _ _)
  obtain ⟨hput, hclaim, hdel, hagain⟩ := sampleReplaced_made
  have h₁ := hstep 0 _ rfl trivial hput (Clean.empty serdeJson)
  have h₂ := hstep 1 _ rfl trivial hclaim h₁
  have h₃ := hstep 2 _ rfl trivial hdel h₂
  exact hstep 3 _ rfl trivial hagain h₃

theorem SampleCall.complete_served : SampleCall.complete.op.Served :=
  show isValidId "4e881b86" = true by decide

theorem SampleCall.complete_made : SampleCall.complete.Made (sampleAfter sampleReplaced 4) := by
  let c := completionRecord sampleClaimed "hash" 1000 (some "url") (sampleUuid 4) 0
  let fs : QueueFs := { sampleAfter sampleReplaced 4 with completion := some c.toVec }
  have hclears : clearsMarker serdeJson fs c.id samplePosted.incarnation = true := by decide +kernel
  have htakes : takesEntry serdeJson fs c = false := by decide +kernel
  have hrun : completeClaimWithToken serdeJson sampleClaimed "hash" 1000 (some "url") (sampleUuid 4)
      (sampleAfter sampleReplaced 4) =
        ⟨.ok (), .writeAtomic .completion c.toVec :: finishTrace serdeJson c samplePosted fs⟩ :=
    sampleReplaced_clean.completeClaim_run SampleCall.complete_served (Or.inl rfl)
      "hash" 1000 (some "url") (sampleUuid 4) rfl rfl
  have hfinish : finishTrace serdeJson c samplePosted fs = SampleCall.complete.events.tail := by
    unfold finishTrace logTrace clearTrace
    rw [if_neg (show ¬ containsAttempt serdeJson fs.historyBytes _ _ = true by decide +kernel),
      if_pos hclears, htakes]
    rfl
  constructor
  · exact (outcome_map ..).trans (congrArg (Outcome.map _) (congrArg Ran.outcome hrun))
  · refine (trace_map ..).trans ?_
    rw [hrun, hfinish]
    rfl

/-- The directories seen by a lookup that began in the empty one. -/
def sampleMoments (calls : List SampleCall) : Nat → Set QueueFs
  | 0 => {.empty}
  | n + 1 => insert (sampleAfter calls (n + 1)) (sampleMoments calls n)

/-- A lookup of the comment that has seen `n` of the calls. -/
def sampleLookup (stage : AwaitStage) (calls : List SampleCall) (n : Nat) : Waiter :=
  { Waiter.start "4e881b86" none with
    stage := stage, asked := 1000, clocks := {1000}, moments := sampleMoments calls n }

theorem sampleLookup_alone (calls : List SampleCall) :
    Alone serdeJson 900 (sampleAfter calls 0) 0 (sampleLookup (.marked 0) calls 0) := by
  have hlookup : Alone serdeJson 900 .empty 0 _ := (Alone.start .empty "4e881b86").lookup rfl
  have hnone : Alone.snapshot serdeJson 900 .empty 0 "4e881b86" none 1000 = .ok ⟨0, none⟩ := by
    decide +kernel
  have hmarker : Waiter.hidden .empty "4e881b86" none = .ok false := by decide +kernel
  have hclocks : ({1000} : Set UInt64) = insert 1000 ∅ := (insert_empty_eq 1000).symm
  unfold sampleLookup
  rw [hclocks]
  exact (hlookup.observe rfl hnone).readMarker rfl hmarker

theorem sampleLookup_call {stage : AwaitStage} {calls : List SampleCall} {k n : Nat}
    {c : SampleCall} (h : Alone serdeJson 900 (sampleAfter calls k) n (sampleLookup stage calls k))
    (hl : stage.looking = true) (hc : calls[k]? = some c) (served : c.op.Served)
    (hm : c.op.isStateMutation = true) (hmade : c.Made (sampleAfter calls k)) :
    Alone serdeJson 900 (sampleAfter calls (k + 1)) (n + 1) (sampleLookup stage calls (k + 1)) := by
  have hcall := h.call served hm hmade.1
  rw [sampleAfter_add_one hc hmade] at hcall
  have hsees : (sampleLookup stage calls k).sees (sampleAfter calls (k + 1)) =
      sampleLookup stage calls (k + 1) := if_pos hl
  rw [hsees] at hcall
  exact hcall

theorem newest_of_latest {J : SerdeJson} {fs : QueueFs} {id : String} {token : Option AwaitCursor}
    {r : HistoryRecord} (h : latestCompletion J fs id token = some r) :
    Waiter.newest J fs id token = .posted r.commentUrl r.postedAt := by
  unfold Waiter.newest
  rw [h]

theorem sampleReplaced_latest :
    latestCompletion serdeJson (sampleAfter sampleReplaced 5) "4e881b86" none =
    some samplePosted := by
  have hlog : (sampleAfter sampleReplaced 5).historyBytes = samplePosted.toVec ++ [nl] := rfl
  have hfits : samplePosted.FitsLine := by decide +kernel
  have hmatch : isCompletionOf "4e881b86" none samplePosted = true := by decide +kernel
  rw [latestCompletion_eq, hlog]
  unfold completionsIn
  rw [show cursorOffset none = 0 from rfl, List.drop_zero, recordsIn_line hfits,
    List.filter_cons_of_pos hmatch, List.filter_nil, List.getLast?_singleton]

/-- The lookup reads the marker before all calls; five of them are made before it reads the log. -/
theorem sampleReplaced_overlap :
    Alone serdeJson 900 (sampleAfter sampleReplaced 5) 5
    (sampleLookup (.marked 0) sampleReplaced 5) := by
  obtain ⟨hput, hclaim, hdel, hagain⟩ := sampleReplaced_made
  have h₁ := sampleLookup_call (sampleLookup_alone sampleReplaced) rfl rfl trivial rfl hput
  have h₂ := sampleLookup_call h₁ rfl rfl trivial rfl hclaim
  have h₃ := sampleLookup_call h₂ rfl rfl trivial rfl hdel
  have h₄ := sampleLookup_call h₃ rfl rfl trivial rfl hagain
  exact sampleLookup_call h₄ rfl rfl SampleCall.complete_served rfl SampleCall.complete_made

/-- It reads the log after the fifth. Before that the worker asks for its next comment again and
again, until the version is almost back where it was. -/
theorem sampleReplaced_scan :
    Alone serdeJson 900 (sampleAfter sampleReplaced 5) (5 + (2 ^ 64 - 6))
      (sampleLookup (.rechecking 0 (.ok (.posted (some "url") 1000))) sampleReplaced 5) := by
  have hidle : SampleCall.Made ⟨SampleCall.claim.op, .due (some (sampleQueued 3 none, 900)), []⟩
      (sampleAfter sampleReplaced 5) := by decide +kernel
  have hseen : sampleAfter sampleReplaced 5 ∈
      (sampleLookup (.marked 0) sampleReplaced 5).moments := Set.mem_insert _ _
  have hasked : SampleCall.claim.op.Served := trivial
  have hrepeated := sampleReplaced_overlap.repeats hasked rfl hidle.1 hidle.2 hseen (2 ^ 64 - 6)
  exact hrepeated.readHistory rfl (newest_of_latest sampleReplaced_latest)

theorem sampleReplaced_del : (SampleCall.del 3).Made (sampleAfter sampleReplaced 5) := by
  decide +kernel

/-- A queued entry keeps a lookup without a token from answering with a post. -/
theorem resolveAwait_ne_posted {J : SerdeJson} {fs : QueueFs} {id : String} {e : StoredEntry}
    (hf : find J fs id = .ok e) (cooldown now : UInt64) (url : Option String) (postedAt : UInt64) :
    resolveAwait J fs id none cooldown now ≠ .ok (.posted url postedAt) := by
  rw [resolveAwait_eq, resolveAwaitPending_of_ok hf,
    if_pos (show cursorSelects none e = true from rfl)]
  cases scheduledEta J fs cooldown now e with
  | error err => nofun
  | ok eta => nofun

/-- Without an entry the answer is the completion. -/
theorem resolveAwait_of_unknownId {J : SerdeJson} {fs : QueueFs} {id : String}
    (hf : find J fs id = .error (.unknownId id)) (token : Option AwaitCursor)
    (cooldown now : UInt64) :
    resolveAwait J fs id token cooldown now = resolveAwaitCompletion J fs id token := by
  rw [resolveAwait_eq, resolveAwaitPending_of_error hf]
  rfl

theorem mem_sampleMoments {calls : List SampleCall} {n : Nat} {fs : QueueFs}
    (h : fs ∈ sampleMoments calls n) : ∃ k ≤ n, fs = sampleAfter calls k := by
  induction n with
  | zero => exact ⟨0, Nat.le_refl _, h⟩
  | succ n ih =>
    rcases h with rfl | h
    · exact ⟨n + 1, Nat.le_refl _, rfl⟩
    · obtain ⟨k, hk, rfl⟩ := ih h
      exact ⟨k, hk.trans (Nat.le_succ n), rfl⟩

/-- What lookups find after each call of the run: the entry, or nothing and no older post. -/
def sampleFinds (k : Nat) : Prop :=
  match find serdeJson (sampleAfter sampleReplaced k) "4e881b86" with
  | .ok _ => True
  | .error err => err = .unknownId "4e881b86" ∧
    resolveAwaitCompletion serdeJson (sampleAfter sampleReplaced k) "4e881b86" none = .ok .unknown

instance (k : Nat) : Decidable (sampleFinds k) := by
  unfold sampleFinds
  split <;> infer_instance

theorem sampleFinds_all : ∀ k ≤ 6, sampleFinds k := by decide +kernel

/-- At no moment of the run a locked lookup answers with a post. -/
theorem sampleReplaced_ne_posted {fs : QueueFs} (h : fs ∈ sampleMoments sampleReplaced 6)
    (now : UInt64) (url : Option String) (postedAt : UInt64) :
    resolveAwait serdeJson fs "4e881b86" none 900 now ≠ .ok (.posted url postedAt) := by
  obtain ⟨k, hk, rfl⟩ := mem_sampleMoments h
  have hfinds := sampleFinds_all k hk
  unfold sampleFinds at hfinds
  cases hf : find serdeJson (sampleAfter sampleReplaced k) "4e881b86" with
  | ok e => exact resolveAwait_ne_posted hf 900 now url postedAt
  | error err =>
    rw [hf] at hfinds
    obtain ⟨rfl, hunknown⟩ := hfinds
    rw [resolveAwait_of_unknownId hf, hunknown]
    nofun

/-- A lookup that 2^64 mutations overlap answers with a post it would have answered with at no
moment. -/
theorem resolve_await_not_linearizable :
    ∃ (s : AwaitServer Unit) (result : Except StoreError AwaitState),
      AwaitServer.Reachable serdeJson 900 s ∧ (s.waiters ()).stage = .resolved result ∧
      ∀ fs ∈ (s.waiters ()).moments, ∀ now : UInt64,
        result ≠ resolveAwait serdeJson fs (s.waiters ()).id (s.waiters ()).token 900 now := by
  have hlast := sampleLookup_call sampleReplaced_scan rfl rfl trivial rfl sampleReplaced_del
  have hnone : Alone.snapshot serdeJson 900 (sampleAfter sampleReplaced 6) (5 + (2 ^ 64 - 6) + 1)
      "4e881b86" none 1000 = .ok ⟨0, none⟩ := by decide +kernel
  obtain ⟨s, hs, -, -, -, hw⟩ := hlast.recheck rfl hnone
  refine ⟨s, .ok (.posted (some "url") 1000), hs, ?_, ?_⟩
  · rw [hw]
    rfl
  · rw [hw]
    intro fs hfs now
    exact (sampleReplaced_ne_posted hfs now _ _).symm

/-- The same calls without the detour: a comment is posted between the two reads of the lookup, and
its new entry is deleted before the second observation. The lookup drops the post it has found,
starts over and answers as the last directory does. -/
theorem resolve_await_linearizable_overlapped :
    ∃ s : AwaitServer Unit, AwaitServer.Reachable serdeJson 900 s ∧ (s.waiters ()).began = 0 ∧
      s.shared.commits = 6 ∧
      Waiter.newest serdeJson (sampleAfter sampleReplaced 5) "4e881b86" none =
        .posted (some "url") 1000 ∧
      (s.waiters ()).stage = .resolved (.ok .unknown) ∧
      ∃ fs ∈ (s.waiters ()).moments, ∃ now ∈ (s.waiters ()).clocks,
        .ok .unknown =
          resolveAwait serdeJson fs (s.waiters ()).id (s.waiters ()).token 900 now := by
  have hposted := newest_of_latest sampleReplaced_latest
  have hfound : Alone serdeJson 900 (sampleAfter sampleReplaced 5) 5
      (sampleLookup (.rechecking 0 (.ok (.posted (some "url") 1000))) sampleReplaced 5) :=
    sampleReplaced_overlap.readHistory rfl hposted
  have hdeleted := sampleLookup_call hfound rfl rfl trivial rfl sampleReplaced_del
  have hnone : Alone.snapshot serdeJson 900 (sampleAfter sampleReplaced 6) 6 "4e881b86" none 1000 =
      .ok ⟨6, none⟩ := by decide +kernel
  have hmarker : Waiter.hidden (sampleAfter sampleReplaced 6) "4e881b86" none = .ok true := by
    decide +kernel
  -- the version has changed, so a second round follows
  have hagain := (hdeleted.recheck rfl hnone).observe rfl hnone
  obtain ⟨s, hs, -, -, hcommits, hw⟩ := (hagain.readMarker rfl hmarker).recheck rfl hnone
  have hresolved : (s.waiters ()).stage = .resolved (.ok .unknown) := by rw [hw]; rfl
  have hgap : (s.waiters ()).gap < 2 ^ 64 := by rw [hw]; decide
  have hbegan : (s.waiters ()).began = 0 := by rw [hw]; rfl
  exact ⟨s, hs, hbegan, hcommits, hposted, hresolved, resolve_await_linearizable hs hresolved hgap⟩

/-! ## Handlers -/

/-- A parked handler whose subscription is not ready has looked its entry up since the last
mutation, and unless one is under way, a lookup now answers as the frame it sent last. A handler
sends waiting frames, then at most one other frame, and nothing after it. -/
theorem await_handler_up_to_date {ι : Type} [DecidableEq ι] {J : SerdeJson} {cooldown : UInt64}
    {s : AwaitServer ι} (h : AwaitServer.Reachable J cooldown s) (i : ι) :
    ((s.waiters i).stage = .parked → ¬ s.shared.queue.stateVersion.Ready (s.waiters i).seen →
      (s.waiters i).began = s.shared.commits ∧
      (s.shared.Calm → ∃ eta next, (s.waiters i).sent.getLast? = some (.waiting eta) ∧
        (s.waiters i).token = some next ∧
        resolveAwait J s.shared.fs (s.waiters i).id (some next) cooldown (s.waiters i).asked =
          .ok (.pending eta next))) ∧
    (∃ waits last, (s.waiters i).sent = waits ++ last ∧
      (∀ event ∈ waits, event.isWaiting = true) ∧ last.length ≤ 1 ∧
      ∀ event ∈ last, event.isWaiting = false ∧ (s.waiters i).stage = .finished) ∧
    ((s.waiters i).stage = .finished →
      ∀ s', s.Step J cooldown s' → s'.waiters i = s.waiters i) := by
  have hw := h.sound.waiters i
  refine ⟨fun hparked hready => ?_, hw.framed, fun hf s' hs => hs.finished hf⟩
  have hseen : (s.waiters i).seen = s.shared.commits := not_not.1 hready
  have hbegan : (s.waiters i).began = s.shared.commits := by
    have hle := hw.seen_began (by rw [hparked]; rfl)
    exact Nat.le_antisymm hw.began_le (hseen ▸ hle)
  refine ⟨hbegan, fun hcalm => ?_⟩
  have hk := hw.knows
  rw [hparked] at hk
  obtain ⟨eta, next, hlast, htoken, hstill⟩ := hk
  exact ⟨eta, next, hlast, htoken, hstill ⟨hbegan.symm, hcalm⟩⟩

/-- A handler that waits for a queued comment. -/
theorem await_handler_up_to_date_sample :
    ∃ s : AwaitServer Unit, (s.waiters ()).stage = .parked ∧ s.shared.Calm ∧
      resolveAwait serdeJson s.shared.fs "4e881b86" (some ⟨0, (sampleUuid 1).text⟩) 900 1000 =
        .ok (.pending 0 ⟨0, (sampleUuid 1).text⟩) := by
  have hstart : Alone serdeJson 900 (sampleAfter sampleReplaced 0) 0 (.start "4e881b86" none) :=
    Alone.start _ _
  have hserved : (SampleCall.put 1).op.Served := trivial
  have hput := hstart.call hserved rfl sampleReplaced_made.1.1
  have hpending : Alone.snapshot serdeJson 900 (sampleAfter sampleReplaced 1) 1
      "4e881b86" none 1000 = .ok ⟨1, some (.pending 0 ⟨0, (sampleUuid 1).text⟩)⟩ := by
    decide +kernel
  rw [sampleAfter_add_one rfl sampleReplaced_made.1] at hput
  have hresolved := (hput.lookup rfl).observe rfl hpending
  obtain ⟨s, hs, free, -, hn, hw⟩ := hresolved.move fun _ _ _ _ => .reply rfl
  have hparked : (s.waiters ()).stage = .parked := by rw [hw]; rfl
  have hseen : ¬ s.shared.queue.stateVersion.Ready (s.waiters ()).seen := by
    rw [hw]
    exact not_not.2 hn.symm
  have hcalm := Shared.calm_of_free free
  obtain ⟨-, hnow⟩ := (await_handler_up_to_date hs ()).1 hparked hseen
  obtain ⟨eta, next, hlast, htoken, hanswer⟩ := hnow hcalm
  rw [hw] at hlast htoken hanswer
  obtain rfl := AwaitEvent.waiting.inj (Option.some.inj hlast)
  obtain rfl := Option.some.inj htoken
  exact ⟨s, hparked, hcalm, hanswer⟩

end Comenq
