import Comenq.Verify.EtaLaws
import Comenq.Verify.Etas

/-!
# The worker executes the projected schedule

`projectedSchedule` folds over the whole queue once; the worker claims the head, posts it, completes
it and derives the anchor of the next claim from the time markers. As seen from one clock value, a
post at the planned time removes the head of the schedule and leaves the rest of it as it was
(`Awaiting.post`), because the planned time is not before any earlier activity and becomes the new
anchor. So the schedule is carried out entry by entry.
-/

namespace Comenq

open Saturating JsonText Traced CrashTrace

/-! ## Posting by a plan -/

/-- The values drawn for one post. -/
structure PostChoice where
  token : Uuid
  tokenHash : String
  commentUrl : Option String
  attempt : Uuid

section Run

variable (J : SerdeJson) (cooldown : UInt64)

/-- The directory after a claim at `time` whose entry is posted and completed at that instant. -/
def afterPost (time : UInt64) (choice : PostChoice) (fs : QueueFs) : QueueFs :=
  match (claimNextDue J cooldown time choice.token fs).outcome with
  | .ok (some (entry, _)) =>
    final (completeClaimWithToken J entry choice.tokenHash time choice.commentUrl choice.attempt)
      (final (claimNextDue J cooldown time choice.token) fs)
  | _ => final (claimNextDue J cooldown time choice.token) fs

/-- The directory after the first posts of a plan, each made when it is planned from `now`. -/
def executed (now : UInt64) (planned : List (StoredEntry × UInt64)) (choices : Nat → PostChoice)
    (fs : QueueFs) : Nat → QueueFs
  | 0 => fs
  | n + 1 =>
    match planned[n]? with
    | none => executed now planned choices fs n
    | some p =>
      afterPost J cooldown (projectedTime now p.2) (choices n) (executed now planned choices fs n)

end Run

/-! ## One post -/

section Post

variable {J : SerdeJson} {cooldown now time : UInt64} {fs : QueueFs} {e : StoredEntry}
    {eta : UInt64}
  {rest planned : List (StoredEntry × UInt64)}

/-- A later look at the clock delays a posting time to the clock at most. -/
theorem postAt_later (previous : Option UInt64) (e : StoredEntry) (h : now ≤ time) :
    postAt cooldown time previous e = maxU (postAt cooldown now previous e) time := by
  apply UInt64.toNat_inj.1
  rw [UInt64.le_iff_toNat_le] at h
  cases previous with
  | none =>
    rw [toNat_maxU, toNat_postAt_none, toNat_postAt_none]
    omega
  | some t =>
    rw [toNat_maxU, toNat_postAt_some, toNat_postAt_some]
    omega

/-- A directory in which nothing is being posted, with what is planned from `now` on. -/
structure Awaiting (J : SerdeJson) (cooldown now : UInt64) (fs : QueueFs)
    (planned : List (StoredEntry × UInt64)) : Prop where
  clean : Clean J fs
  idle : ∀ e ∈ queued J fs, e.claimToken = none
  plan : schedule J cooldown now fs = .ok planned

/-- The queue behind a plan, and the activity it starts from. -/
theorem Awaiting.head (h : Awaiting J cooldown now fs ((e, eta) :: rest)) :
    ∃ previous es, previousActivity fs = .ok previous ∧ sortEntries (queued J fs) = e :: es ∧
      projectedTime now eta = postAt cooldown now previous e ∧
      rest = projectedSchedule cooldown now es (some (postAt cooldown now previous e)) ∧
      eta = sub (postAt cooldown now previous e) now := by
  obtain ⟨previous, -, hp, hplan⟩ := schedule_ok h.plan
  cases hs : sortEntries (queued J fs) with
  | nil =>
    rw [hs] at hplan
    cases hplan
  | cons e' es =>
    rw [hs, projectedSchedule] at hplan
    obtain ⟨hhead, hrest⟩ := List.cons.inj hplan
    obtain ⟨rfl, rfl⟩ := Prod.mk.inj hhead
    exact ⟨previous, es, hp, rfl, projectedTime_sub (now_le_postAt _ _), hrest, rfl⟩

theorem sub_maxU_self (a b : UInt64) : sub (maxU a b) b = sub a b := by
  apply UInt64.toNat_inj.1
  rw [toNat_sub, toNat_sub, toNat_maxU]
  omega

/-- From `now` on, the head is due at its planned time. -/
theorem Awaiting.nextDue_eq (h : Awaiting J cooldown now fs ((e, eta) :: rest)) (ht : now ≤ time) :
    nextDue J cooldown time fs = .ok (some (e, sub (projectedTime now eta) time)) := by
  obtain ⟨previous, es, hp, hs, htime, -⟩ := h.head
  have hplan : schedule J cooldown time fs =
      .ok (projectedSchedule cooldown time (sortEntries (queued J fs)) previous) :=
    schedule_eq cooldown time h.clean.accounted.withinLimits hp
  have hidle : ((projectedSchedule cooldown time (sortEntries (queued J fs)) previous).any
      fun p => p.1.claimToken.isSome) = false := by
    rw [List.any_eq_false]
    intro p hmem
    have hfst := List.mem_map_of_mem (f := Prod.fst) hmem
    rw [map_fst_projectedSchedule, mem_sortEntries] at hfst
    rw [h.idle _ hfst]
    decide
  unfold nextDue
  rw [hplan]
  simp only [bind, Except.bind, hidle, Bool.false_eq_true, if_false]
  rw [hs, projectedSchedule, postAt_later previous e ht, sub_maxU_self, htime]
  rfl

theorem Awaiting.waits (h : Awaiting J cooldown now fs ((e, eta) :: rest)) (ht : now ≤ time)
    (hlt : time < projectedTime now eta) (token : Uuid) :
    claimNextDue J cooldown time token fs =
      ⟨.ok (some (e, sub (projectedTime now eta) time)), []⟩ := by
  apply claimNextDue_idle (h.nextDue_eq ht)
  intro e' wait heq
  obtain ⟨-, rfl⟩ := Prod.mk.inj (Option.some.inj heq)
  rw [gt_iff_lt, UInt64.lt_iff_toNat_lt, toNat_sub]
  rw [UInt64.lt_iff_toNat_lt] at hlt
  have : (0 : UInt64).toNat = 0 := rfl
  omega

/-- The claim made at the planned time. -/
theorem Awaiting.claims (h : Awaiting J cooldown now fs ((e, eta) :: rest)) (token : Uuid) :
    claimNextDue J cooldown (projectedTime now eta) token fs =
      ⟨.ok (some ({ e with claimToken := some token.text }, 0)),
        [.writeAtomic (.entry e.id) { e with claimToken := some token.text }.toVecPretty]⟩ := by
  obtain ⟨previous, -, -, -, htime, -⟩ := h.head
  have hnow : now ≤ projectedTime now eta := htime ▸ now_le_postAt previous e
  have hdue := h.nextDue_eq hnow
  have hzero : sub (projectedTime now eta) (projectedTime now eta) = 0 := by
    apply UInt64.toNat_inj.1
    rw [toNat_sub, Nat.sub_self]
    rfl
  rw [hzero] at hdue
  exact h.clean.accounted.covered.claimNextDue_run hdue token

/-- A completion at once takes the claimed entry out of the queue and sets the post marker. -/
theorem completeClaim_claimed {claimed : StoredEntry} {g : QueueFs} (ha : Accounted J fs)
    (he : e ∈ queued J fs) (choice : PostChoice)
    (hclaimed : claimed = { e with claimToken := some choice.token.text })
    (hg : g = fs.write claimed.toVecPretty (.entry claimed.id)) (hclean : Clean J g)
    (time : UInt64) :
    Succeeds
      (completeClaimWithToken J claimed choice.tokenHash time choice.commentUrl choice.attempt)
      g fun _ fs' => fs'.entries = fs.entries.erase e.id ∧ fs'.lastPost = some (decimalU64 time) ∧
        fs'.lastAttempt = fs.lastAttempt := by
  have hid : claimed.id = e.id := by rw [hclaimed]
  have hv : isValidId claimed.id = true := hid ▸ isValidId_of_mem he
  have htoken : claimed.claimToken = some choice.token.text := by rw [hclaimed]
  have hupdates : e.Updates claimed := hclaimed ▸ e.updates_claim choice.token
  have hmem : claimed ∈ queued J g := by
    rw [hg, ha.mem_write_update he hupdates]
    exact Or.inl rfl
  have htakes : takesEntry J g (completionRecord claimed choice.tokenHash time choice.commentUrl
      choice.attempt g.historyBytes.length) = true := by
    refine takesEntry_iff.2 ⟨claimed, hmem, rfl, ?_⟩
    intro token ht
    exact htoken.trans (htoken.symm.trans ht)
  have hremove := congrArg QueueFs.entries (remove_write fs claimed.id claimed.toVecPretty)
  apply (hclean.succeeds_completeClaim hv (Or.inl (by rw [htoken]; rfl)) choice.tokenHash time
    choice.commentUrl choice.attempt).mono
  rintro _ _ rfl
  refine ⟨?_, rfl, ?_⟩
  · simp only [finishedFs, htakes, if_true]
    rw [hg, ← hid]
    exact hremove
  · rw [hg]
    rfl

/-- Taking the head out of the queue leaves the others in order. -/
theorem sortEntries_erase_head {fs' : QueueFs} {es : List StoredEntry}
    (hs : sortEntries (queued J fs) = e :: es) (he : fs'.entries = fs.entries.erase e.id) :
    sortEntries (queued J fs') = es := by
  have hqueued : queued J fs' = (queued J fs).filter fun x => x.id ≠ e.id := by
    rw [← queued_remove]
    exact queued_congr he
  have hnodup : ((e :: es).map StoredEntry.id).Nodup := by
    rw [← hs]
    exact (((sortEntries_perm _).map StoredEntry.id).nodup_iff).2 (nodup_queued J fs)
  have hothers : ∀ x ∈ es, x.id ≠ e.id := by
    intro x hx heq
    rw [List.map_cons, List.nodup_cons] at hnodup
    exact hnodup.1 (heq ▸ List.mem_map_of_mem hx)
  have hfilter : (e :: es).filter (fun x => x.id ≠ e.id) = es := by
    rw [List.filter_cons_of_neg (by simp), List.filter_eq_self]
    intro x hx
    simpa using hothers x hx
  apply sortEntries_eq (nodup_queued J fs')
  · rw [hqueued, ← hfilter, ← hs]
    exact (sortEntries_perm _).filter _
  · have hsorted := pairwise_sortEntries (queued J fs)
    rw [hs] at hsorted
    exact hsorted.of_cons

theorem previousActivity_post {fs' : QueueFs} {previous : Option UInt64}
    (hp : previousActivity fs = .ok previous) (hle : NoLater previous (some time))
    (hpost : fs'.lastPost = some (decimalU64 time)) (hattempt : fs'.lastAttempt = fs.lastAttempt) :
    previousActivity fs' = .ok (some time) := by
  have hpost' : lastPost fs' = .ok (some time) := by
    unfold lastPost
    rw [hpost]
    exact readMarker_decimalU64 _ time
  have hattempt' : lastAttempt fs' = lastAttempt fs := by
    unfold lastAttempt
    rw [hattempt]
  unfold previousActivity at hp ⊢
  rw [hpost', hattempt']
  cases ho : lastPost fs with
  | error err => rw [ho] at hp; cases hp
  | ok post =>
    cases ha : lastAttempt fs with
    | error err => rw [ho, ha] at hp; cases hp
    | ok attempt =>
      rw [ho, ha] at hp
      obtain rfl : latest post attempt = previous := Except.ok.inj hp
      cases attempt with
      | none => rfl
      | some a =>
        -- the attempt is part of the activity that the post follows
        have hbefore : a ≤ time := by
          cases post with
          | none => exact noLater_some.1 hle
          | some p =>
            have hmax := noLater_some.1 hle
            rw [UInt64.le_iff_toNat_le, toNat_maxU] at hmax
            rw [UInt64.le_iff_toNat_le]
            omega
        have hmax : maxU time a = time := by
          apply UInt64.toNat_inj.1
          rw [UInt64.le_iff_toNat_le] at hbefore
          rw [toNat_maxU]
          omega
        show Except.ok (some (maxU time a)) = _
        rw [hmax]

/-- The directory between a claim at the planned time and its completion. -/
theorem Awaiting.final_claim (h : Awaiting J cooldown now fs ((e, eta) :: rest)) (token : Uuid) :
    final (claimNextDue J cooldown (projectedTime now eta) token) fs =
      fs.write { e with claimToken := some token.text }.toVecPretty (.entry e.id) ∧
    Clean J (final (claimNextDue J cooldown (projectedTime now eta) token) fs) := by
  constructor
  · unfold final
    rw [h.claims token]
    rfl
  · have hleaves := Op.leaves_final J (.claimNextDue cooldown (projectedTime now eta) token) fs
    rw [Op.exec, final_map] at hleaves
    exact h.clean.leaves (show (Op.claimNextDue ..).Sound from trivial) hleaves

/-- A post at the planned time succeeds and leaves the rest of the plan. -/
theorem Awaiting.post (h : Awaiting J cooldown now fs ((e, eta) :: rest)) (choice : PostChoice) :
    (completeClaimWithToken J { e with claimToken := some choice.token.text } choice.tokenHash
      (projectedTime now eta) choice.commentUrl choice.attempt
      (final (claimNextDue J cooldown (projectedTime now eta) choice.token) fs)).outcome = .ok () ∧
    Awaiting J cooldown now (afterPost J cooldown (projectedTime now eta) choice fs) rest := by
  obtain ⟨previous, es, hp, hs, htime, hrest, -⟩ := h.head
  have he : e ∈ queued J fs := mem_sortEntries.1 (hs ▸ List.mem_cons_self)
  obtain ⟨hfinal, hclean⟩ := h.final_claim choice.token
  set claimed : StoredEntry := { e with claimToken := some choice.token.text } with hclaimed
  set g := final (claimNextDue J cooldown (projectedTime now eta) choice.token) fs with hg
  obtain ⟨_, houtcome, hentries, hpost, hattempt⟩ :=
    (completeClaim_claimed h.clean.accounted he choice hclaimed hfinal hclean
      (projectedTime now eta)).final
  have hafter : afterPost J cooldown (projectedTime now eta) choice fs =
      final (completeClaimWithToken J claimed choice.tokenHash (projectedTime now eta)
        choice.commentUrl choice.attempt) g := by
    unfold afterPost
    rw [h.claims choice.token]
  have hleaves := Op.leaves_final J (.completeClaim claimed choice.tokenHash (projectedTime now eta)
    choice.commentUrl choice.attempt) g
  rw [Op.exec, final_map, ← hafter] at hleaves
  have hsound : (Op.completeClaim claimed choice.tokenHash (projectedTime now eta) choice.commentUrl
      choice.attempt).Sound := @isValidId_of_mem J fs e he
  have hclean' : Clean J (afterPost J cooldown (projectedTime now eta) choice fs) :=
    hclean.leaves hsound hleaves
  rw [← hafter] at hentries hpost hattempt
  have hsorted := sortEntries_erase_head hs hentries
  have hle : NoLater previous (some (projectedTime now eta)) := htime ▸ noLater_postAt previous e
  have hprevious := previousActivity_post hp hle hpost hattempt
  refine ⟨houtcome, hclean', ?_, ?_⟩
  · intro x hx
    rw [← mem_sortEntries, hsorted] at hx
    exact h.idle x (mem_sortEntries.1 (hs ▸ List.mem_cons_of_mem e hx))
  · rw [schedule_eq cooldown now hclean'.accounted.withinLimits hprevious, hsorted, hrest, htime]

end Post

/-! ## The whole plan -/

section Plan

variable {J : SerdeJson} {cooldown now : UInt64} {fs : QueueFs}
  {planned : List (StoredEntry × UInt64)}

/-- After the first posts of a plan, the others are still planned. -/
theorem Awaiting.executed (h : Awaiting J cooldown now fs planned) (choices : Nat → PostChoice)
    (n : Nat) :
    Awaiting J cooldown now (executed J cooldown now planned choices fs n) (planned.drop n) := by
  induction n with
  | zero => exact h
  | succ n ih =>
    unfold Comenq.executed
    cases hn : planned[n]? with
    | none =>
      rw [List.getElem?_eq_none_iff] at hn
      rw [List.drop_of_length_le hn] at ih
      rw [List.drop_of_length_le (by omega)]
      exact ih
    | some p =>
      obtain ⟨hlt, rfl⟩ := List.getElem?_eq_some_iff.1 hn
      rw [List.drop_eq_getElem_cons hlt] at ih
      exact (ih.post (choices n)).2

end Plan

/-- The schedule of a store in which nothing is claimed is what the worker executes: the entry at
position `i` is handed out at its planned time, and before that reported with the time left. -/
theorem schedule_executed (J : SerdeJson) {fs : QueueFs} (hreach : Reachable J fs)
    (hidle : ∀ e ∈ queued J fs, e.claimToken = none) (cooldown now : UInt64)
    {planned : List (StoredEntry × UInt64)} (hplan : schedule J cooldown now fs = .ok planned)
    (choices : Nat → PostChoice) {i : Nat} {e : StoredEntry} {eta : UInt64}
    (hi : planned[i]? = some (e, eta)) :
    let fsᵢ := executed J cooldown now planned choices fs i
    (projectedTime now eta).toNat = now.toNat + eta.toNat ∧
    (∀ choice : PostChoice,
      (claimNextDue J cooldown (projectedTime now eta) choice.token fsᵢ).outcome =
        .ok (some ({ e with claimToken := some choice.token.text }, 0)) ∧
      (completeClaimWithToken J { e with claimToken := some choice.token.text } choice.tokenHash
        (projectedTime now eta) choice.commentUrl choice.attempt
        (final (claimNextDue J cooldown (projectedTime now eta) choice.token) fsᵢ)).outcome =
          .ok ()) ∧
    ∀ (time : UInt64) (token : Uuid), now ≤ time → time < projectedTime now eta →
      ∃ wait : UInt64, wait.toNat = now.toNat + eta.toNat - time.toNat ∧
        claimNextDue J cooldown time token fsᵢ = ⟨.ok (some (e, wait)), []⟩ := by
  intro fsᵢ
  have hawaiting : Awaiting J cooldown now fsᵢ ((e, eta) :: planned.drop (i + 1)) := by
    obtain ⟨hlt, heq⟩ := List.getElem?_eq_some_iff.1 hi
    have := (Awaiting.mk hreach.clean hidle hplan).executed choices i
    rwa [List.drop_eq_getElem_cons hlt, heq] at this
  have htime : (projectedTime now eta).toNat = now.toNat + eta.toNat := by
    obtain ⟨previous, es, -, -, htime, -, heta⟩ := hawaiting.head
    -- the wait is the distance of a time from the clock, so adding it back does not saturate
    have hnow := @now_le_postAt cooldown now previous e
    rw [UInt64.le_iff_toNat_le] at hnow
    rw [htime, heta, toNat_sub]
    omega
  refine ⟨htime, ?_, ?_⟩
  · intro choice
    exact ⟨by rw [hawaiting.claims], (hawaiting.post choice).1⟩
  · intro time token hle hlt
    refine ⟨_, ?_, hawaiting.waits hle hlt token⟩
    rw [toNat_sub, htime]

/-- The same values for every post. -/
def sampleChoice : PostChoice := ⟨sampleUuid 3, "9f86d081", none, sampleUuid 4⟩

/-- The second of two comments is handed out when it is planned, a cooldown after the first. -/
theorem schedule_executed_second : ∃ planned e eta,
    schedule serdeJson 900 1000 sampleTwoQueued = .ok planned ∧ planned[1]? = some (e, eta) ∧
    eta = 900 ∧
    (claimNextDue serdeJson 900 (projectedTime 1000 eta) (sampleUuid 5)
      (executed serdeJson 900 1000 planned (fun _ => sampleChoice) sampleTwoQueued 1)).outcome =
        .ok (some ({ e with claimToken := some (sampleUuid 5).text }, 0)) := by
  have hsample : (∀ e ∈ queued serdeJson sampleTwoQueued, e.claimToken = none) ∧
      ((schedule serdeJson 900 1000 sampleTwoQueued).toOption.bind fun planned =>
        planned[1]?.map Prod.snd) = some 900 := by decide +kernel
  obtain ⟨hidle, hsecond⟩ := hsample
  have hreach : Reachable serdeJson sampleTwoQueued := reachable_afterCalls (by simp [Op.Sound])
  cases hplan : schedule serdeJson 900 1000 sampleTwoQueued with
  | error err => rw [hplan] at hsecond; cases hsecond
  | ok planned =>
    rw [hplan] at hsecond
    obtain ⟨⟨e, eta⟩, hi, heta⟩ := Option.map_eq_some_iff.1 hsecond
    have hrun := (schedule_executed serdeJson hreach hidle 900 1000 hplan (fun _ => sampleChoice)
      hi).2.1 ⟨sampleUuid 5, "9f86d081", none, sampleUuid 6⟩
    exact ⟨planned, e, eta, rfl, hi, heta, hrun.1⟩

end Comenq
