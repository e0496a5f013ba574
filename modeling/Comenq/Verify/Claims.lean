import Comenq.Store.Codec
import Comenq.Verify.Ownership

/-!
# Claims along runs of the daemon

Only a claim attempt sets a claim, and only when no entry carries one; every other call passes
claims on or clears them (`Passes`). From this follows the invariant of the daemon's states
(`World.Exclusive`): at most one queued entry is claimed, a worker that holds a claim holds the only
one there is, and a worker that is about to claim finds none.
-/

namespace Comenq

open Traced CrashTrace

/-! ## Claims after a call -/

section Passing

variable {J : SerdeJson} {fs : QueueFs}

/-- Every claim in `fs'` was there in `fs`, on the entry of the same name. -/
def Passes (J : SerdeJson) (fs fs' : QueueFs) : Prop :=
  ∀ x ∈ queued J fs', ∀ token, x.claimToken = some token →
    ∃ y ∈ queued J fs, y.id = x.id ∧ y.claimToken = some token

/-- A change that sets no claim passes the claims on or clears them. -/
theorem Change.passes {k : Kind} {ev : FsEvent} (h : Change J fs k ev)
    (hk : ∀ id token, k ≠ .claim id token) : Passes J fs (fs.step ev) := by
  intro x hx token ht
  rcases h.mem_queued hx with hx | ⟨-, hn⟩ | ⟨e, he, hu, hr⟩
  · exact ⟨x, hx, rfl, ht⟩
  · rw [hn] at ht
    cases ht
  · rcases hr.claimToken with hs | hn | ⟨other, hclaim, -⟩
    · exact ⟨e, he, hu.id_eq.symm, hs ▸ ht⟩
    · rw [hn] at ht
      cases ht
    · exact absurd hclaim (hk _ _)

theorem Passes.trans {fs₁ fs₂ : QueueFs} (h : Passes J fs fs₁) (h' : Passes J fs₁ fs₂) :
    Passes J fs fs₂ := by
  intro x hx token ht
  obtain ⟨y, hy, hid, hyt⟩ := h' x hx token ht
  obtain ⟨z, hz, hid', hzt⟩ := h y hy token hyt
  exact ⟨z, hz, hid'.trans hid, hzt⟩

theorem Passes.refl (J : SerdeJson) (fs : QueueFs) : Passes J fs fs :=
  fun x hx _ ht => ⟨x, hx, rfl, ht⟩

/-- Claims are set by claim attempts alone. -/
theorem Op.kinds_ne_claim {op : Op}
    (hop : ∀ cooldown now token, op ≠ .claimNextDue cooldown now token)
    {k : Kind} (hk : op.Kinds J fs k) (id token : String) : k ≠ .claim id token := by
  rintro rfl
  cases op with
  | claimNextDue cooldown now token => exact hop _ _ _ rfl
  | _ => simp [Op.Kinds, finishing] at hk

theorem Op.leaves_passes {op : Op} {fs' : QueueFs} (hc : Clean J fs) (hs : op.Sound)
    (hl : op.Leaves J fs fs') (hop : ∀ cooldown now token, op ≠ .claimNextDue cooldown now token) :
    Passes J fs fs' := by
  apply Op.leaves_invariant hc hs hl (Passes.refl J fs)
  · intro g k ev _ hg hk hch
    exact hg.trans (hch.passes (Op.kinds_ne_claim hop hk))
  · intro g bytes hg
    exact hg

/-- A claim attempt in a directory without claims sets at most its own, on the head it found. -/
theorem claim_leaves {cooldown now : UInt64} {token : Uuid} {fs' : QueueFs} (hc : Clean J fs)
    (hnone : ∀ x ∈ queued J fs, x.claimToken = none)
    (hl : (Op.claimNextDue cooldown now token).Leaves J fs fs') :
    ∀ x ∈ queued J fs', x.claimToken.isSome = true → x.claimToken = some token.text ∧
      ∃ e wait, nextDue J cooldown now fs = .ok (some (e, wait)) ∧ x.id = e.id := by
  have hsound : (Op.claimNextDue cooldown now token).Sound := trivial
  refine Op.leaves_invariant (I := fun g => ∀ x ∈ queued J g, x.claimToken.isSome = true →
    x.claimToken = some token.text ∧
      ∃ e wait, nextDue J cooldown now fs = .ok (some (e, wait)) ∧ x.id = e.id)
    hc hsound hl ?_ ?_ ?_
  · intro x hx hsome
    rw [hnone x hx] at hsome
    cases hsome
  · rintro g k ev - hg ⟨e, wait, hd, rfl⟩ hch x hx hsome
    rcases hch.mem_queued hx with hx | ⟨-, hn⟩ | ⟨y, hy, hu, hr⟩
    · exact hg x hx hsome
    · rw [hn] at hsome
      cases hsome
    · rw [hu.id_eq]
      rcases hr.claimToken with hs | hn | ⟨other, hclaim, hs⟩
      · rw [hs] at hsome ⊢
        exact hg y hy hsome
      · rw [hn] at hsome
        cases hsome
      · obtain ⟨hid, rfl⟩ := Kind.claim.inj hclaim
        exact ⟨hs, e, wait, hd, hid.symm⟩
  · intro g bytes hg
    exact hg

end Passing

/-! ## The invariant -/

/-- At most one queued entry carries a claim. -/
def AtMostOneClaim (J : SerdeJson) (fs : QueueFs) : Prop :=
  ∀ x ∈ queued J fs, ∀ y ∈ queued J fs, x.claimToken.isSome = true → y.claimToken.isSome = true →
    x.id = y.id

theorem AtMostOneClaim.passes {J : SerdeJson} {fs fs' : QueueFs} (h : AtMostOneClaim J fs)
    (hp : Passes J fs fs') : AtMostOneClaim J fs' := by
  intro x hx y hy hxs hys
  obtain ⟨t, ht⟩ := Option.isSome_iff_exists.1 hxs
  obtain ⟨s, hs⟩ := Option.isSome_iff_exists.1 hys
  obtain ⟨x₀, hx₀, hxid, hxt⟩ := hp x hx t ht
  obtain ⟨y₀, hy₀, hyid, hyt⟩ := hp y hy s hs
  rw [← hxid, ← hyid]
  exact h x₀ hx₀ y₀ hy₀ (by rw [hxt]; rfl) (by rw [hyt]; rfl)

/-- At most one entry is claimed; the worker's claim is the only one; a ready worker finds none. -/
structure World.Exclusive (J : SerdeJson) (w : World) : Prop where
  exclusive : AtMostOneClaim J w.fs
  ready : w.phase = .up .ready → ∀ x ∈ queued J w.fs, x.claimToken = none
  holding : ∀ {e}, w.phase = .up (.holding e) → ∀ x ∈ queued J w.fs, x.claimToken.isSome = true →
    x.claimToken = e.claimToken

namespace World.Exclusive

variable {J : SerdeJson} {w : World}

theorem start (J : SerdeJson) : World.Exclusive J World.start where
  exclusive := by intro x hx; cases hx
  ready := by intro hp; cases hp
  holding := by intro e hp; cases hp

/-- Without claims the invariant holds in every phase. -/
theorem of_unclaimed {fs : QueueFs} {phase : Phase} {used : List String}
    (h : ∀ x ∈ queued J fs, x.claimToken = none) : World.Exclusive J ⟨fs, phase, used⟩ where
  exclusive := by
    intro x hx _ _ hsome
    rw [h x hx] at hsome
    cases hsome
  ready := fun _ => h
  holding := by
    intro e _ x hx hsome
    rw [h x hx] at hsome
    cases hsome

/-- A call that passes the claims on keeps the invariant in the phase it was made in. -/
theorem passes (h : World.Exclusive J w) {fs' : QueueFs} (hp : Passes J w.fs fs')
    (used : List String) : World.Exclusive J ⟨fs', w.phase, used⟩ where
  exclusive := h.exclusive.passes hp
  ready := by
    intro hphase x hx
    cases ht : x.claimToken with
    | none => rfl
    | some t =>
      obtain ⟨y, hy, -, hyt⟩ := hp x hx t ht
      rw [h.ready hphase y hy] at hyt
      cases hyt
  holding := by
    intro e hphase x hx hsome
    obtain ⟨t, ht⟩ := Option.isSome_iff_exists.1 hsome
    obtain ⟨y, hy, -, hyt⟩ := hp x hx t ht
    rw [ht, ← hyt]
    exact h.holding hphase y hy (by rw [hyt]; rfl)

/-- A worker that is not running needs exclusiveness only. -/
theorem idle {fs' : QueueFs} {phase : Phase} {used : List String} (hex : AtMostOneClaim J fs')
    (hp : phase = .down ∨ phase = .up .stopped) : World.Exclusive J ⟨fs', phase, used⟩ where
  exclusive := hex
  ready := by
    rintro rfl
    rcases hp with hp | hp
    · cases hp
    · cases hp
  holding := by
    rintro e rfl
    rcases hp with hp | hp
    · cases hp
    · cases hp

/-- At most one entry is claimed after any part of a call. -/
theorem exclusive_leaves (h : World.Exclusive J w) (ho : w.Owned J) {a : Action} {op : Op}
    {fs' : QueueFs} (hc : Calls w.phase a op) (hl : op.Leaves J w.fs fs') :
    AtMostOneClaim J fs' := by
  have hs := ho.sound hc
  obtain ⟨fs, phase, used⟩ := w
  cases hc with
  | claim cooldown now token =>
    intro x hx y hy hxs hys
    have hleaves := claim_leaves ho.clean (h.ready rfl) hl
    obtain ⟨-, e, wait, hd, hxid⟩ := hleaves x hx hxs
    obtain ⟨-, e', wait', hd', hyid⟩ := hleaves y hy hys
    rw [hd] at hd'
    obtain ⟨rfl, -⟩ : e = e' ∧ wait = wait' := by simpa using hd'
    exact hxid.trans hyid.symm
  | listen hr =>
    refine h.exclusive.passes (Op.leaves_passes ho.clean hs hl ?_)
    rintro _ _ _ rfl
    cases hr
  | _ => exact h.exclusive.passes (Op.leaves_passes ho.clean hs hl (by simp))

theorem failed (h : World.Exclusive J w) (ho : w.Owned J) {a : Action} {op : Op} {fs' : QueueFs}
    (hc : Calls w.phase a op) (hl : op.Leaves J w.fs fs') (used : List String) :
    World.Exclusive J ⟨fs', w.phase.failed op, used⟩ := by
  have hs := ho.sound hc
  have hex := h.exclusive_leaves ho hc hl
  obtain ⟨fs, phase, used'⟩ := w
  cases hc with
  | listen hr =>
    rw [Phase.failed_request hr]
    refine h.passes (Op.leaves_passes ho.clean hs hl ?_) used
    rintro _ _ _ rfl
    cases hr
  | recordFailure => exact h.passes (Op.leaves_passes ho.clean hs hl (by simp)) used
  | openQueue => exact idle hex (Or.inl rfl)
  | _ => exact idle hex (Or.inr rfl)

/-- A finished completion has removed the entry that carried the worker's claim. -/
theorem completed (h : World.Exclusive J w) (ho : w.Owned J) {e : StoredEntry}
    (hp : w.phase = .up (.holding e)) (tokenHash : String) (now : UInt64)
    (commentUrl : Option String) (attempt : Uuid) :
    ∀ x ∈ queued J (final (completeClaimWithToken J e tokenHash now commentUrl attempt) w.fs),
      x.claimToken = none := by
  obtain ⟨hv, token, ht, howns⟩ := ho.held hp
  obtain ⟨-, -, hfin⟩ := (ho.clean.succeeds_completeClaim hv (Or.inl (by rw [ht]; rfl))
    tokenHash now commentUrl attempt).final
  rw [hfin]
  intro x hx
  have hx' : x ∈ queued J { w.fs with entries := (finishedFs J (completionRecord e tokenHash now
      commentUrl attempt w.fs.historyBytes.length)
      (.succeeded attempt e tokenHash now commentUrl) w.fs).entries } := hx
  unfold finishedFs at hx'
  by_contra hne
  have hsome := Option.isSome_iff_ne_none.2 hne
  split at hx'
  · obtain ⟨hx₀, hid⟩ := mem_queued_remove.1 hx'
    have hxt := h.holding hp x hx₀ hsome
    exact hid (howns.bound x hx₀ (hxt.trans ht)).1
  · next htakes =>
    have hx₀ : x ∈ queued J w.fs := hx'
    have hxt := h.holding hp x hx₀ hsome
    refine htakes (takesEntry_iff.2 ⟨x, hx₀, (howns.bound x hx₀ (hxt.trans ht)).1, ?_⟩)
    intro t hmem
    exact hxt.trans hmem

/-- A finished release has cleared the worker's claim. -/
theorem released (h : World.Exclusive J w) (ho : w.Owned J) {e : StoredEntry} {token : String}
    (hp : w.phase = .up (.holding e)) (ht : e.claimToken = some token) (now : UInt64) :
    ∀ x ∈ queued J (final (releaseClaim J e.id token now) w.fs), x.claimToken = none := by
  obtain ⟨-, token', ht', howns⟩ := ho.held hp
  obtain rfl : token = token' := Option.some.inj (ht.symm.trans ht')
  by_cases hfound : ∃ y, find J w.fs e.id = .ok y ∧ y.claimToken = some token
  · obtain ⟨y, hf, hy⟩ := hfound
    obtain ⟨previous, hprev⟩ := ho.clean.lastAttempt_ok
    obtain ⟨hyq, hyid⟩ := find_ok_iff.1 hf
    unfold final
    rw [ho.clean.accounted.covered.releaseClaim_run hf hy hprev, ← hyid]
    intro x hx
    have hacc : Accounted J
        (w.fs.write (decimalU64 (Saturating.maxU (previous.getD 0) now)) .lastAttempt) :=
      ho.clean.accounted.congr rfl
    rcases (hacc.mem_write_update (e := y) hyq y.updates_release).1 hx with rfl | ⟨hx, hne⟩
    · rfl
    · by_contra hsome
      have hxt := h.holding hp x hx (Option.isSome_iff_ne_none.2 hsome)
      exact hne ((howns.bound x hx (hxt.trans ht)).1.trans hyid.symm)
  · -- no entry carries the claim any more, so there is nothing to clear
    have hstale : ∀ y, find J w.fs e.id = .ok y → y.claimToken ≠ some token :=
      fun y hf hy => hfound ⟨y, hf, hy⟩
    unfold final
    rw [releaseClaim_stale hstale, run_nil]
    intro x hx
    by_contra hsome
    have hxt := (h.holding hp x hx (Option.isSome_iff_ne_none.2 hsome)).trans ht
    exact hstale x (find_ok_iff.2 ⟨hx, (howns.bound x hx hxt).1⟩) hxt

/-- A claim attempt that returns leaves the worker ready without claims, or with the only one. -/
theorem claimed (h : World.Exclusive J w) (ho : w.Owned J) (hp : w.phase = .up .ready)
    {cooldown now : UInt64} {token : Uuid} {reply : Reply} (used : List String)
    (hok : ((Op.claimNextDue cooldown now token).exec J w.fs).outcome = .ok reply) :
    World.Exclusive J ⟨final ((Op.claimNextDue cooldown now token).exec J) w.fs,
      w.phase.returned (.claimNextDue cooldown now token) reply, used⟩ := by
  have hleaves := claim_leaves ho.clean (h.ready hp)
    ((Op.claimNextDue cooldown now token).leaves_final J w.fs)
  have hcall : Calls w.phase (.claim cooldown now token) (.claimNextDue cooldown now token) := by
    rw [hp]
    exact .claim cooldown now token
  have hex := h.exclusive_leaves ho hcall
    ((Op.claimNextDue cooldown now token).leaves_final J w.fs)
  change ((Reply.due <$> claimNextDue J cooldown now token : Store Reply) w.fs).outcome = _ at hok
  rw [outcome_map] at hok
  rcases ho.clean.accounted.covered.claimNextDue_cases cooldown now token with
    ⟨err, -, hrun⟩ | ⟨due, -, hw, hrun⟩ | ⟨e, -, hrun⟩
  · rw [hrun] at hok
    cases hok
  · have hsame : final ((Op.claimNextDue cooldown now token).exec J) w.fs = w.fs := by
      change final (Reply.due <$> claimNextDue J cooldown now token) w.fs = _
      rw [final_map]
      unfold final
      rw [hrun]
      rfl
    rw [hsame]
    exact of_unclaimed (h.ready hp)
  · rw [hrun] at hok
    obtain rfl := Outcome.ok.inj hok
    change World.Exclusive J ⟨_, .up (.holding { e with claimToken := some token.text }), used⟩
    refine ⟨hex, ?_, ?_⟩
    · intro hphase
      cases hphase
    · intro e' hphase x hx hsome
      cases hphase
      exact (hleaves x hx hsome).1

theorem returned (h : World.Exclusive J w) (ho : w.Owned J) {a : Action} {op : Op} {reply : Reply}
    (hc : Calls w.phase a op) (hok : (op.exec J w.fs).outcome = .ok reply) (used : List String) :
    World.Exclusive J ⟨final (op.exec J) w.fs, w.phase.returned op reply, used⟩ := by
  have hl := op.leaves_final J w.fs
  have hs := ho.sound hc
  have hex := h.exclusive_leaves ho hc hl
  obtain ⟨fs, phase, used'⟩ := w
  cases hc with
  | listen hr =>
    rw [Phase.returned_request hr]
    refine h.passes (Op.leaves_passes ho.clean hs hl ?_) used
    rintro _ _ _ rfl
    cases hr
  | recordFailure => exact h.passes (Op.leaves_passes ho.clean hs hl (by simp)) used
  | openQueue => exact idle hex (Or.inr rfl)
  | recover fresh =>
    apply of_unclaimed
    obtain ⟨-, -, -, -, hnone⟩ := (ho.clean.succeeds_recover fresh).final
    change ∀ x ∈ queued J (final (_ <$> recoverWorkerState J fresh) fs), _
    rw [final_map]
    exact hnone
  | complete e tokenHash now commentUrl attempt =>
    apply of_unclaimed
    change ∀ x ∈ queued J
      (final (_ <$> completeClaimWithToken J e tokenHash now commentUrl attempt) fs), _
    rw [final_map]
    exact h.completed ho rfl tokenHash now commentUrl attempt
  | release now ht =>
    apply of_unclaimed
    change ∀ x ∈ queued J (final (_ <$> releaseClaim J _ _ now) fs), _
    rw [final_map]
    exact h.released ho rfl ht now
  | claim cooldown now token => exact h.claimed ho rfl used hok

theorem step {a : Action} {w' : World} (h : World.Exclusive J w) (ho : w.Owned J)
    (hs : Step J w a w') : World.Exclusive J w' := by
  cases hs with
  | killed hc _ hl => exact idle (h.exclusive_leaves ho hc hl) (Or.inl rfl)
  | failed hc _ hl => exact h.failed ho hc hl _
  | returned hc _ hok => exact h.returned ho hc hok _
  | stop _ _ => exact idle h.exclusive (Or.inr rfl)
  | die _ => exact idle h.exclusive (Or.inl rfl)
  | tamper _ => exact ⟨h.exclusive, h.ready, h.holding⟩

end World.Exclusive

theorem World.Reachable.claims {J : SerdeJson} {w : World} (h : w.Reachable J) : w.Exclusive J := by
  have hboth : w.Owned J ∧ w.Exclusive J := by
    refine Run.invariant (I := fun w => w.Owned J ∧ w.Exclusive J) ?_ h
      ⟨World.Owned.start J, World.Exclusive.start J⟩
    rintro w a w' ⟨ho, he⟩ - hs
    exact ⟨ho.step hs, he.step ho hs⟩
  exact hboth.2

/-! ## Claims are exclusive and never stranded -/

/-- A claim attempt that reports nothing in a directory without claims found an empty queue. -/
theorem Clean.queued_eq_nil {J : SerdeJson} {fs : QueueFs} (h : Clean J fs)
    (hnone : ∀ x ∈ queued J fs, x.claimToken = none) {cooldown now : UInt64} {token : Uuid}
    (hok : (claimNextDue J cooldown now token fs).outcome = .ok none) : queued J fs = [] := by
  rcases h.accounted.covered.claimNextDue_cases cooldown now token with
    ⟨err, -, hrun⟩ | ⟨due, hd, -, hrun⟩ | ⟨e, -, hrun⟩
  · rw [hrun] at hok
    cases hok
  · rw [hrun] at hok
    obtain rfl := Outcome.ok.inj hok
    obtain ⟨previous, -, -, hdue⟩ := nextDue_ok hd
    have hany : ¬ (sortEntries (queued J fs)).any (fun e => e.claimToken.isSome) = true := by
      rw [List.any_eq_true]
      rintro ⟨x, hx, hsome⟩
      rw [hnone x (mem_sortEntries.1 hx)] at hsome
      cases hsome
    rw [if_neg hany] at hdue
    have hempty := List.head?_eq_none_iff.1 hdue.symm
    have hsorted : sortEntries (queued J fs) = [] := by
      rw [← map_fst_projectedSchedule cooldown now (sortEntries (queued J fs)) previous, hempty]
      rfl
    exact (List.perm_nil.1 (hsorted ▸ sortEntries_perm (queued J fs)).symm)
  · rw [hrun] at hok
    cases hok

/-- In every state of the daemon at most one queued entry is claimed. When the worker is about to
claim, none is, and it is told that there is nothing to do only if the queue is empty. -/
theorem claims_exclusive {J : SerdeJson} {w : World} (h : w.Reachable J) :
    (∀ x ∈ queued J w.fs, ∀ y ∈ queued J w.fs, x.claimToken.isSome = true →
      y.claimToken.isSome = true → x = y) ∧
    (w.phase = .up .ready →
      (∀ x ∈ queued J w.fs, x.claimToken = none) ∧
      ∀ cooldown now token, (claimNextDue J cooldown now token w.fs).outcome = .ok none →
        entries J w.fs = .ok [] ∧ w.fs.entries.entries = []) := by
  have hclaims := h.claims
  have hclean := h.owned.clean
  refine ⟨fun x hx y hy hxs hys => ?_,
    fun hp => ⟨hclaims.ready hp, fun cooldown now token hok => ?_⟩⟩
  · exact eq_of_mem_queued hx hy (hclaims.exclusive x hx y hy hxs hys)
  · have hnil := hclean.queued_eq_nil (hclaims.ready hp) hok
    refine ⟨by rw [hclean.entries_eq, hnil]; rfl, ?_⟩
    rw [List.eq_nil_iff_forall_not_mem]
    rintro ⟨name, node⟩ hmem
    obtain ⟨x, hx, -⟩ := hclean.readable (AList.mem_lookup_iff.2 hmem)
    rw [hnil] at hx
    cases hx

/-- A put, a claim, a crash, a restart and a recovery. -/
def sampleRecovered : World :=
  World.afterStart serdeJson (sampleBoot ++
    [.listen (.put sampleRequest ⟨900, 0, true⟩ 1000 (sampleUuid 1)),
      .claim 900 1000 (sampleUuid 2), .die, .openQueue fun _ => sampleUuid 0,
      .recover fun _ => sampleUuid 0])

theorem claims_exclusive_sample :
    sampleRecovered.phase = .up .ready ∧ (queued serdeJson sampleRecovered.fs).length = 1 ∧
      ∀ x ∈ queued serdeJson sampleRecovered.fs, x.claimToken = none := by
  have hready : sampleRecovered.phase = .up .ready := by decide +kernel
  exact ⟨hready, by decide +kernel,
    ((claims_exclusive (World.reachable_afterStart serdeJson _)).2 hready).1⟩

end Comenq
