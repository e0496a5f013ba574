import Comenq.Verify.EtaLaws
import Comenq.Verify.Etas
import Comenq.Verify.Ownership

/-!
# Pacing of posting attempts

A claim is handed out when the head of the queue is due, a cooldown and its flutter after the latest
time on the two markers. Every completion leaves its time on the post marker, whether its entry is
still queued or not, and with a clock that does not go back the markers never lose a time. A release
leaves its time on the attempt marker only if it finds its claim on the queued entry: when the entry
in flight was deleted, replaced or reclaimed, the attempt is forgotten (`release_forgotten`).
-/

namespace Comenq

open Saturating JsonText Traced CrashTrace

/-! ## Runs with a clock -/

/-- The calls that neither hand out a claim nor end one. -/
def Op.Unpaced : Op → Prop
  | .claimNextDue .. | .releaseClaim .. | .completeClaim .. => False
  | _ => True

/-- The claim that a call of `claim_next_due` handed out. -/
def handedOut : Outcome StoreError (Option (StoredEntry × UInt64)) → List StoredEntry
  | .ok (some (e, wait)) => if wait = 0 then [e] else []
  | _ => []

/-- A store on the way: the time of its latest call, the claims handed out so far, and the times at
which posting attempts ended, by a completion or a release. -/
structure Attempts where
  fs : QueueFs
  clock : UInt64
  claims : List StoredEntry
  ended : List UInt64

/-- Runs of store calls with a clock that does not go back. Calls that end no attempt may be cut
off; a claim is released under the condition `Releases`. -/
inductive TimedRun (J : SerdeJson) (cooldown : UInt64) (Releases : QueueFs → StoredEntry → Prop) :
    Attempts → Prop
  | start {fs : QueueFs} (clock : UInt64) : Reachable J fs → fs.completion = none →
      TimedRun J cooldown Releases ⟨fs, clock, [], []⟩
  | call {s : Attempts} {op : Op} {fs' : QueueFs} {time : UInt64} :
      TimedRun J cooldown Releases s → s.clock ≤ time → op.Unpaced → op.Leaves J s.fs fs' →
      TimedRun J cooldown Releases { s with fs := fs', clock := time }
  | claim {s : Attempts} {time : UInt64} (token : Uuid) :
      TimedRun J cooldown Releases s → s.clock ≤ time →
      TimedRun J cooldown Releases
        { s with
          fs := final (claimNextDue J cooldown time token) s.fs
          clock := time
          claims := handedOut (claimNextDue J cooldown time token s.fs).outcome ++ s.claims }
  | complete {s : Attempts} {time : UInt64} {e : StoredEntry} (tokenHash : String)
      (commentUrl : Option String) (attempt : Uuid) :
      TimedRun J cooldown Releases s → s.clock ≤ time → e ∈ s.claims →
      TimedRun J cooldown Releases
        { s with
          fs := final (completeClaimWithToken J e tokenHash time commentUrl attempt) s.fs
          clock := time
          ended := time :: s.ended }
  | release {s : Attempts} {time : UInt64} {e : StoredEntry} {token : String} :
      TimedRun J cooldown Releases s → s.clock ≤ time → e ∈ s.claims → e.claimToken = some token →
      Releases s.fs e →
      TimedRun J cooldown Releases
        { s with
          fs := final (releaseClaim J e.id token time) s.fs
          clock := time
          ended := time :: s.ended }

/-- The claim is still on the entry queued under its identifier. -/
def HoldsClaim (J : SerdeJson) (fs : QueueFs) (e : StoredEntry) : Prop :=
  ∃ x ∈ queued J fs, x.id = e.id ∧ x.claimToken = e.claimToken

/-! ## Times on the markers -/

/-- One of the markers shows this time or a later one. -/
def Marked (fs : QueueFs) (p : UInt64) : Prop :=
  (∃ a, lastPost fs = .ok (some a) ∧ p ≤ a) ∨ ∃ a, lastAttempt fs = .ok (some a) ∧ p ≤ a

section Markers

variable {J : SerdeJson} {cooldown time p : UInt64} {fs fs' : QueueFs}

theorem Marked.congr (h : Marked fs p) (hpost : fs'.lastPost = fs.lastPost)
    (hattempt : fs'.lastAttempt = fs.lastAttempt) : Marked fs' p := by
  unfold Marked lastPost lastAttempt at h ⊢
  rw [hpost, hattempt]
  exact h

/-- A time on a marker is not after the latest activity. -/
theorem Marked.previousActivity (h : Marked fs p) {previous : Option UInt64}
    (hp : previousActivity fs = .ok previous) : NoLater (some p) previous := by
  unfold Comenq.previousActivity at hp
  cases ho : lastPost fs with
  | error err => rw [ho] at hp; cases hp
  | ok post =>
    cases ha : lastAttempt fs with
    | error err => rw [ho, ha] at hp; cases hp
    | ok attempt =>
      rw [ho, ha] at hp
      obtain rfl : latest post attempt = previous := Except.ok.inj hp
      unfold Marked at h
      rw [ho, ha] at h
      rcases h with ⟨a, hpost, hle⟩ | ⟨a, hattempt, hle⟩
      · obtain rfl := Except.ok.inj hpost
        cases attempt with
        | none => exact noLater_some.2 hle
        | some b =>
          apply noLater_some.2
          rw [UInt64.le_iff_toNat_le, toNat_maxU]
          rw [UInt64.le_iff_toNat_le] at hle
          omega
      · obtain rfl := Except.ok.inj hattempt
        cases post with
        | none => exact noLater_some.2 hle
        | some b =>
          apply noLater_some.2
          rw [UInt64.le_iff_toNat_le, toNat_maxU]
          rw [UInt64.le_iff_toNat_le] at hle
          omega

/-! ## What the calls do to the markers -/

theorem Op.Unpaced.sound {op : Op} (h : op.Unpaced) : op.Sound := by
  cases op with
  | completeClaim => exact h.elim
  | _ => trivial

/-- Without a pending completion, only completions and releases write a marker. -/
theorem Op.Unpaced.markers {op : Op} (h : op.Unpaced) (hc : Clean J fs)
    (hnone : fs.completion = none) (hl : op.Leaves J fs fs') :
    fs'.lastPost = fs.lastPost ∧ fs'.lastAttempt = fs.lastAttempt ∧ fs'.completion = none := by
  have hpending : ∀ c, pendingCompletion J fs ≠ some c := by
    intro c hpending
    unfold pendingCompletion at hpending
    rw [hnone] at hpending
    cases hpending
  have hkinds : ∀ k, op.Kinds J fs k →
      k ≠ .posted ∧ k ≠ .attempted ∧ k ≠ .finished ∧ ∀ c, k ≠ .journal c := by
    intro k hk
    cases op with
    | claimNextDue | releaseClaim | completeClaim => exact h.elim
    | recoverWorkerState fresh =>
      rcases hk with ⟨c, hcompletion, -⟩ | ⟨id, rfl⟩
      · exact absurd hcompletion (hpending c)
      · simp
    | reopen fresh =>
      rcases hk with ⟨c, hcompletion, -⟩ | ⟨id, rfl⟩ | ⟨id, rfl⟩ | rfl
      · exact absurd hcompletion (hpending c)
      · simp
      · simp
      · simp
    | put request options now incarnation =>
      obtain ⟨id, rfl⟩ := hk
      simp
    | bump id => rw [show k = .reorder id from hk]; simp
    | bust id => rw [show k = .reorder id from hk]; simp
    | del id => rcases hk with rfl | rfl <;> simp
    | appendHistory record => rcases hk with rfl | rfl <;> simp
  apply Op.leaves_invariant (I := fun g => g.lastPost = fs.lastPost ∧
    g.lastAttempt = fs.lastAttempt ∧ g.completion = none) hc h.sound hl ⟨rfl, rfl, hnone⟩
  · intro g k ev _ hi hk hch
    obtain ⟨hposted, hattempted, hfinished, hjournal⟩ := hkinds k hk
    cases hch with
    | posted => exact absurd rfl hposted
    | attempted => exact absurd rfl hattempted
    | finished => exact absurd rfl hfinished
    | journal => exact absurd rfl (hjournal _)
    | _ => exact hi
  · intro g bytes hi
    exact hi

/-- A claim attempt leaves the markers alone. -/
theorem claimNextDue_markers (h : Clean J fs) (token : Uuid) :
    (final (claimNextDue J cooldown time token) fs).lastPost = fs.lastPost ∧
    (final (claimNextDue J cooldown time token) fs).lastAttempt = fs.lastAttempt ∧
    (final (claimNextDue J cooldown time token) fs).completion = fs.completion := by
  unfold final
  rcases h.accounted.covered.claimNextDue_cases cooldown time token with
    ⟨err, -, hrun⟩ | ⟨due, -, -, hrun⟩ | ⟨e, -, hrun⟩ <;>
  · rw [hrun]
    exact ⟨rfl, rfl, rfl⟩

/-- What a completion of a claim leaves behind. -/
theorem completeClaim_markers (h : Clean J fs) {e : StoredEntry} (hv : isValidId e.id = true)
    (hclaim : e.claimToken.isSome = true) (tokenHash : String) (time : UInt64)
    (commentUrl : Option String) (attempt : Uuid) :
    lastPost (final (completeClaimWithToken J e tokenHash time commentUrl attempt) fs) =
      .ok (some time) ∧
    (final (completeClaimWithToken J e tokenHash time commentUrl attempt) fs).lastAttempt =
      fs.lastAttempt ∧
    (final (completeClaimWithToken J e tokenHash time commentUrl attempt) fs).completion =
    none := by
  obtain ⟨_, -, hfinal⟩ :=
    (h.succeeds_completeClaim hv (Or.inl hclaim) tokenHash time commentUrl attempt).final
  rw [hfinal]
  exact ⟨readMarker_decimalU64 _ time, rfl, rfl⟩

/-- What a release of a claim that is still on its entry leaves behind. -/
theorem releaseClaim_markers (h : Clean J fs) {e : StoredEntry} {token : String}
    (hheld : HoldsClaim J fs e) (htoken : e.claimToken = some token) (time : UInt64) :
    (final (releaseClaim J e.id token time) fs).lastPost = fs.lastPost ∧
    (∃ a, lastAttempt (final (releaseClaim J e.id token time) fs) = .ok (some a) ∧ time ≤ a ∧
      ∀ b, lastAttempt fs = .ok (some b) → b ≤ a) ∧
    (final (releaseClaim J e.id token time) fs).completion = fs.completion := by
  obtain ⟨x, hx, hid, hclaim⟩ := hheld
  obtain ⟨previous, hprevious⟩ := h.lastAttempt_ok
  have hfind : find J fs e.id = .ok x := find_ok_iff.2 ⟨hx, hid⟩
  have hrun := h.accounted.covered.releaseClaim_run hfind (hclaim.trans htoken) hprevious time
  unfold final
  rw [hrun]
  refine ⟨rfl, ⟨maxU (previous.getD 0) time, readMarker_decimalU64 _ _, ?_, ?_⟩, rfl⟩
  · rw [UInt64.le_iff_toNat_le, toNat_maxU]
    omega
  · intro b hb
    rw [hprevious] at hb
    obtain rfl := Except.ok.inj hb
    rw [UInt64.le_iff_toNat_le, toNat_maxU]
    exact Nat.le_max_left _ _

end Markers

/-! ## Runs -/

section Runs

variable {J : SerdeJson} {cooldown time : UInt64} {s : Attempts}

/-- The markers show the time of every attempt that ended. -/
structure Attempts.Kept (J : SerdeJson) (s : Attempts) : Prop where
  clean : Clean J s.fs
  settled : s.fs.completion = none
  held : ∀ e ∈ s.claims, isValidId e.id = true ∧ e.claimToken.isSome = true
  past : ∀ p ∈ s.ended, p ≤ s.clock ∧ Marked s.fs p

theorem mem_handedOut {e : StoredEntry} {token : Uuid}
    (ha : Accounted J s.fs)
    (h : e ∈ handedOut (claimNextDue J cooldown time token s.fs).outcome) :
    ∃ x ∈ queued J s.fs, e = { x with claimToken := some token.text } ∧
      nextDue J cooldown time s.fs = .ok (some (x, 0)) := by
  rcases ha.covered.claimNextDue_cases cooldown time token with
    ⟨err, -, hrun⟩ | ⟨due, -, hwait, hrun⟩ | ⟨x, hdue, hrun⟩
  · rw [hrun] at h
    cases h
  · rw [hrun] at h
    cases due with
    | none => cases h
    | some p =>
      obtain ⟨x, wait⟩ := p
      have hpos : wait ≠ 0 := by
        intro hz
        have := hwait x wait rfl
        rw [hz] at this
        exact absurd this (by decide)
      simp [handedOut, hpos] at h
  · rw [hrun] at h
    obtain rfl : e = { x with claimToken := some token.text } := by simpa [handedOut] using h
    exact ⟨x, mem_of_nextDue hdue, rfl, hdue⟩

theorem TimedRun.kept {s : Attempts} (h : TimedRun J cooldown (HoldsClaim J) s) : s.Kept J := by
  induction h with
  | start clock hreach hnone =>
    exact ⟨hreach.clean, hnone, fun e he => (by cases he), fun p hp => (by cases hp)⟩
  | call hrun hle hop hl ih =>
    obtain ⟨hpost, hattempt, hnone⟩ := hop.markers ih.clean ih.settled hl
    refine ⟨ih.clean.leaves hop.sound hl, hnone, ih.held, ?_⟩
    intro p hp
    obtain ⟨hpast, hmarked⟩ := ih.past p hp
    exact ⟨UInt64.le_trans hpast hle, hmarked.congr hpost hattempt⟩
  | @claim s time token hrun hle ih =>
    obtain ⟨hpost, hattempt, hnone⟩ := @claimNextDue_markers J cooldown time s.fs ih.clean token
    have hleaves := Op.leaves_final J (.claimNextDue cooldown time token) s.fs
    rw [Op.exec, final_map] at hleaves
    refine ⟨ih.clean.leaves (show (Op.claimNextDue ..).Sound from trivial) hleaves,
      hnone.trans ih.settled, ?_, ?_⟩
    · intro e he
      rcases List.mem_append.1 he with he | he
      · obtain ⟨x, hx, rfl, -⟩ := mem_handedOut ih.clean.accounted he
        exact ⟨@isValidId_of_mem J s.fs x hx, rfl⟩
      · exact ih.held e he
    · intro p hp
      obtain ⟨hpast, hmarked⟩ := ih.past p hp
      exact ⟨UInt64.le_trans hpast hle, hmarked.congr hpost hattempt⟩
  | @complete s time e tokenHash commentUrl attempt hrun hle he ih =>
    obtain ⟨hv, hclaim⟩ := ih.held e he
    obtain ⟨hpost, hattempt, hnone⟩ :=
      completeClaim_markers ih.clean hv hclaim tokenHash time commentUrl attempt
    have hleaves := Op.leaves_final J (.completeClaim e tokenHash time commentUrl attempt) s.fs
    rw [Op.exec, final_map] at hleaves
    refine ⟨ih.clean.leaves (show (Op.completeClaim e ..).Sound from hv) hleaves,
      hnone, ih.held, ?_⟩
    intro p hp
    have hpast : p ≤ time := by
      rcases List.mem_cons.1 hp with rfl | hp
      · exact UInt64.le_refl _
      · exact UInt64.le_trans (ih.past p hp).1 hle
    exact ⟨hpast, Or.inl ⟨time, hpost, hpast⟩⟩
  | @release s time e token hrun hle he htoken hheld ih =>
    obtain ⟨hpost, ⟨a, hattempt, hreleased, hlater⟩, hnone⟩ :=
      releaseClaim_markers ih.clean hheld htoken time
    have hleaves := Op.leaves_final J (.releaseClaim e.id token time) s.fs
    rw [Op.exec, final_map] at hleaves
    refine ⟨ih.clean.leaves (show (Op.releaseClaim ..).Sound from trivial) hleaves,
      hnone.trans ih.settled, ih.held, ?_⟩
    intro p hp
    rcases List.mem_cons.1 hp with rfl | hp
    · exact ⟨UInt64.le_refl _, Or.inr ⟨a, hattempt, hreleased⟩⟩
    · obtain ⟨hpast, hmarked⟩ := ih.past p hp
      refine ⟨UInt64.le_trans hpast hle, ?_⟩
      rcases hmarked with ⟨b, hb, hpb⟩ | ⟨b, hb, hpb⟩
      · refine Or.inl ⟨b, ?_, hpb⟩
        unfold lastPost at hb ⊢
        rw [hpost]
        exact hb
      · exact Or.inr ⟨a, hattempt, UInt64.le_trans hpb (hlater b hb)⟩

/-- A head without a wait is due. -/
theorem postAt_le_of_nextDue {x : StoredEntry}
    (h : nextDue J cooldown time s.fs = .ok (some (x, 0))) :
    ∃ previous, previousActivity s.fs = .ok previous ∧ postAt cooldown time previous x ≤ time := by
  obtain ⟨previous, -, hp, hdue⟩ := nextDue_ok h
  refine ⟨previous, hp, ?_⟩
  split at hdue
  · cases hdue
  · cases hs : sortEntries (queued J s.fs) with
    | nil => rw [hs] at hdue; cases hdue
    | cons e es =>
      rw [hs, projectedSchedule, List.head?_cons] at hdue
      obtain ⟨rfl, hzero⟩ := Prod.mk.inj (Option.some.inj hdue)
      have := congrArg UInt64.toNat hzero
      rw [toNat_sub] at this
      rw [UInt64.le_iff_toNat_le]
      have hz : (0 : UInt64).toNat = 0 := rfl
      omega

theorem Attempts.Kept.paced (h : s.Kept J) {token : Uuid} {e : StoredEntry}
    (hclaim : (claimNextDue J cooldown time token s.fs).outcome = .ok (some (e, 0))) :
    e.notBefore ≤ time ∧ ∀ p ∈ s.ended, add (add p cooldown) e.flutterSeconds ≤ time := by
  have hmem : e ∈ handedOut (claimNextDue J cooldown time token s.fs).outcome := by
    rw [hclaim]
    simp [handedOut]
  obtain ⟨x, -, rfl, hdue⟩ := mem_handedOut h.clean.accounted hmem
  obtain ⟨previous, hp, hle⟩ := postAt_le_of_nextDue hdue
  constructor
  · have hfloor : x.notBefore ≤ postAt cooldown time previous x := by
      rw [UInt64.le_iff_toNat_le, postAt, toNat_maxU, toNat_maxU]
      omega
    exact UInt64.le_trans hfloor hle
  · intro p hended
    have hlater := (h.past p hended).2.previousActivity hp
    have hmono := @postAt_mono cooldown time (some p) previous x hlater
    have hdueAt : add (add p cooldown) x.flutterSeconds ≤ postAt cooldown time (some p) x := by
      rw [UInt64.le_iff_toNat_le, toNat_postAt_some]
      omega
    exact UInt64.le_trans hdueAt (UInt64.le_trans hmono hle)

end Runs

/-- In a run whose releases all find their claims, a claim is handed out no earlier than its entry
allows, and a cooldown and its flutter after every attempt that ended before. -/
theorem attempts_paced {J : SerdeJson} {cooldown : UInt64} {s : Attempts}
    (h : TimedRun J cooldown (HoldsClaim J) s) {time : UInt64} {token : Uuid} {e : StoredEntry}
    (hclaim : (claimNextDue J cooldown time token s.fs).outcome = .ok (some (e, 0))) :
    e.notBefore ≤ time ∧ ∀ p ∈ s.ended, add (add p cooldown) e.flutterSeconds ≤ time :=
  h.kept.paced hclaim

section Samples

variable {J : SerdeJson} {cooldown clock time : UInt64} {Releases : QueueFs → StoredEntry → Prop}
  {fs : QueueFs} {claims : List StoredEntry} {ended : List UInt64} {e : StoredEntry}

/-- A claim that is handed out. -/
theorem TimedRun.hands (h : TimedRun J cooldown Releases ⟨fs, clock, claims, ended⟩)
    (hle : clock ≤ time) (token : Uuid)
    (hclaims : handedOut (claimNextDue J cooldown time token fs).outcome = [e]) :
    TimedRun J cooldown Releases
      ⟨final (claimNextDue J cooldown time token) fs, time, e :: claims, ended⟩ := by
  have hclaim := h.claim token hle
  rw [hclaims] at hclaim
  exact hclaim

/-- A deletion that runs to its end. -/
theorem TimedRun.deletes (h : TimedRun J cooldown Releases ⟨fs, clock, claims, ended⟩)
    (hle : clock ≤ time) (id : String) :
    TimedRun J cooldown Releases ⟨final ((Op.del id).exec J) fs, time, claims, ended⟩ :=
  h.call hle (show (Op.del id).Unpaced from trivial) (Op.leaves_final J (.del id) fs)

/-- A release of the latest claim. -/
theorem TimedRun.releases (h : TimedRun J cooldown Releases ⟨fs, clock, e :: claims, ended⟩)
    (hle : clock ≤ time) {token : String} (htoken : e.claimToken = some token)
    (hr : Releases fs e) :
    TimedRun J cooldown Releases
      ⟨final (releaseClaim J e.id token time) fs, time, e :: claims, time :: ended⟩ :=
  h.release hle List.mem_cons_self htoken hr

theorem outcome_of_handedOut {outcome : Outcome StoreError (Option (StoredEntry × UInt64))}
    (h : handedOut outcome = [e]) : outcome = .ok (some (e, 0)) := by
  unfold handedOut at h
  split at h
  · split at h
    · next hz => rw [hz, (List.cons.inj h).1]
    · cases h
  · cases h

end Samples

/-- The claim on the first of two comments. -/
def sampleFirstClaim : StoredEntry :=
  { newEntry sampleRequest ⟨900, 0, true⟩ 1000 (sampleUuid 1) "4e881b86" [] with
    claimToken := some (sampleUuid 3).text }

/-- The first of two comments is in flight. -/
def sampleInFlight : QueueFs :=
  final (claimNextDue serdeJson 900 1000 (sampleUuid 3)) sampleTwoQueued

theorem sampleInFlight_run (Releases : QueueFs → StoredEntry → Prop) :
    TimedRun serdeJson 900 Releases ⟨sampleInFlight, 1000, [sampleFirstClaim], []⟩ := by
  have hclaims :
      handedOut (claimNextDue serdeJson 900 1000 (sampleUuid 3) sampleTwoQueued).outcome =
      [sampleFirstClaim] := by decide +kernel
  have hreach : Reachable serdeJson sampleTwoQueued := reachable_afterCalls (by simp [Op.Sound])
  have hrun : TimedRun serdeJson 900 Releases ⟨sampleTwoQueued, 1000, [], []⟩ :=
    .start 1000 hreach (by decide +kernel)
  exact hrun.hands (UInt64.le_refl 1000) (sampleUuid 3) hclaims

/-- The entry in flight is deleted, and the worker releases its claim. -/
def sampleForgotten : Attempts :=
  ⟨final (releaseClaim serdeJson sampleFirstClaim.id (sampleUuid 3).text 1000)
      (final ((Op.del "4e881b86").exec serdeJson) sampleInFlight),
    1000, [sampleFirstClaim], [1000]⟩

theorem sampleForgotten_run : TimedRun serdeJson 900 (fun _ _ => True) sampleForgotten :=
  ((sampleInFlight_run _).deletes (UInt64.le_refl 1000) "4e881b86").releases (UInt64.le_refl 1000)
    rfl trivial

/-- The claim on the second comment, once the first one is gone. -/
def sampleSecondClaim : StoredEntry :=
  { newEntry sampleSecond ⟨900, 0, true⟩ 1000 (sampleUuid 2) "0a8013bd" [sampleFirstClaim] with
    claimToken := some (sampleUuid 4).text }

/-- The second comment is claimed at the very second at which the attempt at the first one ended. -/
theorem release_forgotten :
    TimedRun serdeJson 900 (fun _ _ => True) sampleForgotten ∧
    1000 ∈ sampleForgotten.ended ∧
    ∃ e, (claimNextDue serdeJson 900 1000 (sampleUuid 4) sampleForgotten.fs).outcome =
        .ok (some (e, 0)) ∧
      ¬ add (add 1000 900) e.flutterSeconds ≤ 1000 := by
  have hclaims :
      handedOut (claimNextDue serdeJson 900 1000 (sampleUuid 4) sampleForgotten.fs).outcome =
      [sampleSecondClaim] := by decide +kernel
  exact ⟨sampleForgotten_run, List.mem_singleton_self 1000, sampleSecondClaim,
    outcome_of_handedOut hclaims, by decide⟩

/-- The attempt at the first comment fails, and the worker releases its claim. -/
def sampleFailedAttempt : Attempts :=
  ⟨final (releaseClaim serdeJson sampleFirstClaim.id (sampleUuid 3).text 1000) sampleInFlight,
    1000, [sampleFirstClaim], [1000]⟩

theorem sampleFailedAttempt_run :
    TimedRun serdeJson 900 (HoldsClaim serdeJson) sampleFailedAttempt := by
  have hheld : HoldsClaim serdeJson sampleInFlight sampleFirstClaim := by
    unfold HoldsClaim
    decide +kernel
  exact (sampleInFlight_run _).releases (UInt64.le_refl 1000) rfl hheld

/-- The claim of the retry. -/
def sampleRetry : StoredEntry :=
  { sampleFirstClaim with claimToken := some (sampleUuid 4).text }

theorem attempts_paced_retry :
    (claimNextDue serdeJson 900 1900 (sampleUuid 4) sampleFailedAttempt.fs).outcome =
      .ok (some (sampleRetry, 0)) ∧
    sampleRetry.notBefore ≤ 1900 ∧
    ∀ p ∈ sampleFailedAttempt.ended, add (add p 900) sampleRetry.flutterSeconds ≤ 1900 := by
  have hclaims :
      handedOut (claimNextDue serdeJson 900 1900 (sampleUuid 4) sampleFailedAttempt.fs).outcome =
      [sampleRetry] := by decide +kernel
  have hclaim := outcome_of_handedOut hclaims
  exact ⟨hclaim, attempts_paced sampleFailedAttempt_run hclaim⟩

end Comenq
