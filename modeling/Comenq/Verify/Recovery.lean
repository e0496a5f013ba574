import Comenq.Verify.HistoryLog
import Comenq.Store.Codec
import Comenq.Verify.Settling

/-!
# Crash recovery of completions

A completion journals its post, logs it, clears the deletion marker, removes the entry, records the
time and removes the journal. The process may die after any of these steps, or in the middle of the
append, and recovery may be cut off in the same places any number of times.

While the journal is there the directory is in `Progress`: each of the steps has happened or not,
in their order. Once it is gone the directory is `Done`, and what is left of opening the store is
to clear claims and obsolete markers.
-/

namespace Comenq

open JsonText LineLog Traced CrashTrace

/-! ## Finishing a journalled completion -/

theorem find_congr {J : SerdeJson} {fs fs' : QueueFs} (h : fs'.entries = fs.entries) (id : String) :
    find J fs' id = find J fs id := by
  unfold find readEntry
  rw [h]

theorem clearsMarker_congr {J : SerdeJson} {fs fs' : QueueFs}
    (hm : fs'.awaitDeletions = fs.awaitDeletions) (he : fs'.entries = fs.entries)
    (id incarnation : String) :
    clearsMarker J fs' id incarnation = clearsMarker J fs id incarnation := by
  unfold clearsMarker
  rw [hm, find_congr he]

/-- Without the entry a marker is cleared for fewer lifetimes. -/
theorem clearsMarker_of_gone {J : SerdeJson} {fs fs' : QueueFs} {id incarnation : String}
    (hm : fs'.awaitDeletions = fs.awaitDeletions) (hgone : ∀ e, find J fs' id ≠ .ok e)
    (h : clearsMarker J fs id incarnation = false) : clearsMarker J fs' id incarnation = false := by
  unfold clearsMarker at *
  rw [hm]
  cases hl : fs.awaitDeletions.lookup id with
  | none => rfl
  | some bytes =>
    simp only [hl] at h ⊢
    cases hd : J.deletion bytes with
    | none => rfl
    | some marker =>
      simp only [hd, Bool.or_eq_false_iff] at h ⊢
      refine ⟨h.1, ?_⟩
      cases hf : find J fs' id with
      | ok e => exact absurd hf (hgone e)
      | error err => rfl

theorem find_erase {J : SerdeJson} {fs fs' : QueueFs} {id : String}
    (h : fs'.entries = fs.entries.erase id) (e : StoredEntry) : find J fs' id ≠ .ok e := by
  intro hf
  obtain ⟨he, hid⟩ := find_ok_iff.1 hf
  obtain ⟨-, bytes, hl, -⟩ := mem_queued.1 he
  rw [hid, h, AList.lookup_erase] at hl
  cases hl

section Progress

variable {J : SerdeJson} {c : CompletionRecord} {r : HistoryRecord} {g fs : QueueFs}

/-- How far the marker and the entry have been dealt with; the marker comes first. -/
def Stage (J : SerdeJson) (c : CompletionRecord) (r : HistoryRecord) (g fs : QueueFs) : Prop :=
  (fs.awaitDeletions = g.awaitDeletions ∧ fs.entries = g.entries) ∨
  (fs.awaitDeletions = (finishedFs J c r g).awaitDeletions ∧
    (fs.entries = g.entries ∨ fs.entries = (finishedFs J c r g).entries))

/-- The marker goes if it would have gone at the start, unless it is gone already. -/
theorem Stage.markers_eq (h : Stage J c r g fs) :
    (if clearsMarker J fs c.id r.incarnation then fs.awaitDeletions.erase c.id
      else fs.awaitDeletions) = (finishedFs J c r g).awaitDeletions := by
  rcases h with ⟨hm, he⟩ | ⟨hm, he⟩
  · rw [clearsMarker_congr hm he, hm]
    rfl
  · have hkeep : clearsMarker J fs c.id r.incarnation = false := by
      cases hg : clearsMarker J g c.id r.incarnation with
      | true =>
        have hfin : (finishedFs J c r g).awaitDeletions = g.awaitDeletions.erase c.id := if_pos hg
        unfold clearsMarker
        rw [hm, hfin, AList.lookup_erase]
      | false =>
        have hfin : (finishedFs J c r g).awaitDeletions = g.awaitDeletions := if_neg (by simp [hg])
        have hm' : fs.awaitDeletions = g.awaitDeletions := hm.trans hfin
        have hsame : fs.entries = g.entries → clearsMarker J fs c.id r.incarnation = false := by
          intro he
          rw [clearsMarker_congr hm' he, hg]
        rcases he with he | he
        · exact hsame he
        · cases ht : takesEntry J g c with
          | true =>
            have hgone : fs.entries = g.entries.erase c.id := he.trans (if_pos ht)
            exact clearsMarker_of_gone hm' (find_erase hgone) hg
          | false => exact hsame (he.trans (if_neg (by simp [ht])))
    rw [hkeep]
    exact hm

/-- The entry goes if it would have gone at the start, unless it is gone already. -/
theorem Stage.entries_eq (h : Stage J c r g fs) :
    (if takesEntry J fs c then fs.entries.erase c.id else fs.entries) =
      (finishedFs J c r g).entries := by
  have hsame : fs.entries = g.entries →
      (if takesEntry J fs c then fs.entries.erase c.id else fs.entries) =
        (finishedFs J c r g).entries := by
    intro he
    have ht : takesEntry J fs c = takesEntry J g c := by
      unfold takesEntry
      rw [find_congr he]
    rw [ht, he]
    rfl
  rcases h with ⟨-, he⟩ | ⟨-, he | he⟩
  · exact hsame he
  · exact hsame he
  · cases ht : takesEntry J g c with
    | true =>
      have hgone : fs.entries = g.entries.erase c.id := he.trans (if_pos ht)
      have hkeep : takesEntry J fs c = false := by
        unfold takesEntry
        cases hf : find J fs c.id with
        | ok e => exact absurd hf (find_erase hgone e)
        | error err => rfl
      rw [hkeep]
      exact he
    | false => exact hsame (he.trans (if_neg (by simp [ht])))

/-- The completion `c`, journalled in `g`, is under way in `fs`. -/
structure Progress (J : SerdeJson) (c : CompletionRecord) (r : HistoryRecord) (g fs : QueueFs) :
    Prop where
  clean : Clean J fs
  journal : fs.completion = some c.toVec
  log : Pending J r.attemptId g.historyBytes fs.historyBytes ∨
    Logged J r g.historyBytes fs.historyBytes
  lastAttempt : fs.lastAttempt = g.lastAttempt
  stage : Stage J c r g fs

/-- The completion `c`, journalled in `g`, has been carried out in `fs`. -/
structure Done (J : SerdeJson) (c : CompletionRecord) (r : HistoryRecord)
    (g fs : QueueFs) : Prop where
  clean : Clean J fs
  completion : fs.completion = none
  records : historyRecords J fs.historyBytes = historyRecords J (close nl g.historyBytes) ++ [r]
  lastPost : fs.lastPost = some (decimalU64 c.postedAt)
  lastAttempt : fs.lastAttempt = g.lastAttempt
  markers : fs.awaitDeletions = (finishedFs J c r g).awaitDeletions
  entries : fs.entries = (finishedFs J c r g).entries

/-- The log contains the attempt exactly when the record has been added. -/
theorem Progress.contains_iff (h : Progress J c r g fs) :
    containsAttempt J fs.historyBytes r.attemptId g.historyBytes.length = true ↔
      Logged J r g.historyBytes fs.historyBytes := by
  constructor
  · intro hc
    rcases h.log with hp | hl
    · rw [hp.contains] at hc; cases hc
    · exact hl
  · exact fun hl => hl.contains

theorem Progress.withLog {log : Option Bytes} (h : Progress J c r g fs)
    (hl : Pending J r.attemptId g.historyBytes (log.getD []) ∨
      Logged J r g.historyBytes (log.getD [])) :
    Progress J c r g { fs with history := log } :=
  ⟨h.clean.history log, h.journal, hl, h.lastAttempt, h.stage⟩

/-- An event that cannot be torn and keeps what holds now. -/
theorem throughout_cons_of {I : QueueFs → Prop} {ev : FsEvent} {t : List FsEvent} (h0 : I fs)
    (hev : ∀ bytes, ev ≠ .appendHistory bytes)
    (h : Throughout QueueFs.step Tears I (fs.step ev) t) :
    Throughout QueueFs.step Tears I fs (ev :: t) := by
  refine throughout_cons.2 ⟨h0, fun ev' ht => ?_, h⟩
  cases ht
  exact absurd rfl (hev _)

/-- The append of the line to a closed log, then syncs. -/
theorem Progress.appendLine {L : Bytes} {rest : List FsEvent} (h : Progress J c r g fs)
    (hr : r.FitsLine) (hL : Closed nl L) (hp : Pending J r.attemptId g.historyBytes L)
    (hrest : rest = [] ∨ rest = [.syncDir .root]) :
    Throughout QueueFs.step Tears (Progress J c r g) { fs with history := some L }
      ([.appendHistory (r.toVec ++ [nl]), .syncHistory] ++ rest) := by
  have hlog : Progress J c r g { fs with history := some (L ++ (r.toVec ++ [nl])) } :=
    h.withLog (Or.inr (hp.logged hr hL))
  refine throughout_cons.2 ⟨h.withLog (Or.inl hp), fun ev' ht => ?_, ?_⟩
  · cases ht with
    | append htorn => exact h.withLog (hp.torn hr hL htorn)
  · refine throughout_cons_of hlog (by simp) ?_
    rcases hrest with rfl | rfl
    · exact throughout_nil.2 hlog
    · exact throughout_cons_of hlog (by simp) (throughout_nil.2 hlog)

/-- The append keeps the completion under way, wherever it is cut off. -/
theorem Progress.append (h : Progress J c r g fs) (hr : r.FitsLine)
    (hp : Pending J r.attemptId g.historyBytes fs.historyBytes) :
    Throughout QueueFs.step Tears (Progress J c r g) fs (appendTrace r fs.historyBytes) := by
  have hrest : (if fs.historyBytes.length = 0 then [FsEvent.syncDir .root] else []) = [] ∨
      (if fs.historyBytes.length = 0 then [FsEvent.syncDir .root] else []) = [.syncDir .root] := by
    split
    · exact Or.inr rfl
    · exact Or.inl rfl
  unfold appendTrace
  refine throughout_cons_of h (by simp) ?_
  change Throughout _ _ _ { fs with history := some fs.historyBytes } _
  by_cases hL : Closed nl fs.historyBytes
  · rw [if_pos hL, List.nil_append]
    exact h.appendLine hr hL hp hrest
  · rw [if_neg hL, List.append_assoc, List.singleton_append]
    refine throughout_cons.2 ⟨h.withLog (Or.inl hp), fun ev' ht => ?_, ?_⟩
    · cases ht with
      | append htorn =>
        rcases List.prefix_concat_iff.1 (List.nil_append [nl] ▸ htorn) with rfl | htorn
        · exact h.withLog (Or.inl (hp.repair r hL))
        · rw [List.prefix_nil.1 htorn]
          exact h.withLog (Or.inl ((List.append_nil fs.historyBytes).symm ▸ hp))
    · exact h.appendLine hr (closed_append_singleton _) (hp.repair r hL) hrest

/-- A finished append logs the record, whatever the log ended in. -/
theorem Pending.appended {H L : Bytes} (h : Pending J r.attemptId H L) (hr : r.FitsLine) :
    Logged J r H (L ++ appendedBytes r L) := by
  rw [append_appendedBytes]
  by_cases hL : Closed nl L
  · rw [close_of_closed hL]
    exact h.logged hr hL
  · rw [close_of_not_closed hL]
    exact (h.repair r hL).logged hr (closed_append_singleton L)

/-- The log step: under way throughout, and logged at its end. -/
theorem Progress.logs (h : Progress J c r g fs) (hr : r.FitsLine)
    (hoff : c.historyOffset = some g.historyBytes.length) :
    Throughout QueueFs.step Tears (Progress J c r g) fs (logTrace J c r fs) ∧
      Logged J r g.historyBytes
        (CrashTrace.run QueueFs.step fs (logTrace J c r fs)).historyBytes := by
  have hlen : c.historyOffset.getD 0 = g.historyBytes.length := by rw [hoff]; rfl
  unfold logTrace
  rw [hlen]
  by_cases hcon : containsAttempt J fs.historyBytes r.attemptId g.historyBytes.length = true
  · rw [if_pos hcon]
    exact ⟨throughout_nil.2 h, h.contains_iff.1 hcon⟩
  · have hp : Pending J r.attemptId g.historyBytes fs.historyBytes :=
      h.log.resolve_right fun hl => hcon hl.contains
    rw [if_neg hcon]
    refine ⟨h.append hr hp, ?_⟩
    rw [run_appendTrace]
    exact hp.appended hr

/-- The marker step: under way throughout, and the marker dealt with at its end. -/
theorem Progress.clears (h : Progress J c r g fs) :
    Throughout QueueFs.step Tears (Progress J c r g) fs (clearTrace J fs c.id r.incarnation) ∧
      CrashTrace.run QueueFs.step fs (clearTrace J fs c.id r.incarnation) =
        { fs with awaitDeletions := (finishedFs J c r g).awaitDeletions } := by
  have heq := h.stage.markers_eq
  have hentries : fs.entries = g.entries ∨ fs.entries = (finishedFs J c r g).entries := by
    rcases h.stage with ⟨-, he⟩ | ⟨-, he⟩
    · exact Or.inl he
    · exact he
  unfold clearTrace
  by_cases hc : clearsMarker J fs c.id r.incarnation = true
  · rw [if_pos hc] at heq ⊢
    have hafter : Progress J c r g (fs.step (.removeFile (.awaitDeletion c.id))) :=
      ⟨h.clean.step (.unmark c.id), h.journal, h.log, h.lastAttempt, Or.inr ⟨heq, hentries⟩⟩
    refine ⟨?_, QueueFs.ext rfl heq rfl rfl rfl rfl⟩
    exact throughout_cons_of h (by simp)
      (throughout_cons_of hafter (by simp) (throughout_nil.2 hafter))
  · rw [if_neg hc] at heq ⊢
    exact ⟨throughout_nil.2 h, QueueFs.ext rfl heq rfl rfl rfl rfl⟩

/-- The entry step: under way throughout, and the entry dealt with at its end. -/
theorem Progress.takes (h : Progress J c r g fs)
    (hm : fs.awaitDeletions = (finishedFs J c r g).awaitDeletions) :
    Throughout QueueFs.step Tears (Progress J c r g) fs
        (if takesEntry J fs c then [.removeFile (.entry c.id)] else []) ∧
      CrashTrace.run QueueFs.step fs
      (if takesEntry J fs c then [.removeFile (.entry c.id)] else []) =
        { fs with entries := (finishedFs J c r g).entries } := by
  have heq := h.stage.entries_eq
  by_cases ht : takesEntry J fs c = true
  · rw [if_pos ht] at heq ⊢
    have hafter : Progress J c r g (fs.step (.removeFile (.entry c.id))) :=
      ⟨h.clean.remove_entry c.id, h.journal, h.log, h.lastAttempt, Or.inr ⟨hm, Or.inr heq⟩⟩
    refine ⟨throughout_cons_of h (by simp) (throughout_nil.2 hafter), ?_⟩
    exact QueueFs.ext heq rfl rfl rfl rfl rfl
  · rw [if_neg ht] at heq ⊢
    exact ⟨throughout_nil.2 h, QueueFs.ext heq rfl rfl rfl rfl rfl⟩

/-- The last steps: under way until the journal is gone, and then carried out. -/
theorem Progress.concludes (h : Progress J c r g fs)
    (hl : Logged J r g.historyBytes fs.historyBytes)
    (hm : fs.awaitDeletions = (finishedFs J c r g).awaitDeletions)
    (he : fs.entries = (finishedFs J c r g).entries) :
    Throughout QueueFs.step Tears (fun s => Progress J c r g s ∨ Done J c r g s) fs
      [.writeAtomic .lastPost (decimalU64 c.postedAt), .removeFile .completion,
        .syncDir .root] := by
  have hposted : Progress J c r g (fs.step (.writeAtomic .lastPost (decimalU64 c.postedAt))) :=
    ⟨h.clean.step (.posted _), h.journal, h.log, h.lastAttempt, h.stage⟩
  have hdone : Done J c r g
      ((fs.step (.writeAtomic .lastPost (decimalU64 c.postedAt))).step (.removeFile .completion)) :=
    ⟨hposted.clean.step .finished, rfl, hl.records, rfl, h.lastAttempt, hm, he⟩
  refine throughout_cons_of (Or.inl h) (by simp) (throughout_cons_of (Or.inl hposted) (by simp) ?_)
  exact throughout_cons_of (Or.inr hdone) (by simp) (throughout_nil.2 (Or.inr hdone))

/-- Every step of finishing keeps the completion under way until the journal is gone, and then it
has been carried out. -/
theorem Progress.finishes (h : Progress J c r g fs) (hr : r.FitsLine)
    (hoff : c.historyOffset = some g.historyBytes.length) :
    Throughout QueueFs.step Tears (fun s => Progress J c r g s ∨ Done J c r g s) fs
      (finishTrace J c r fs) := by
  obtain ⟨hlog, hlogged⟩ := h.logs hr hoff
  have hfs₁ := run_logTrace J c r fs
  rw [hfs₁] at hlogged
  have h₁ := hlog.finish
  rw [hfs₁] at h₁
  obtain ⟨hclear, hfs₂⟩ := h₁.clears
  have h₂ := hclear.finish
  rw [hfs₂] at h₂
  obtain ⟨htake, hfs₃⟩ := h₂.takes rfl
  have h₃ := htake.finish
  rw [hfs₃] at h₃
  -- the marker and the entry are looked up in the directory as it was before the append
  have hclear_eq : clearTrace J { fs with history := (finishedFs J c r fs).history } c.id
      r.incarnation = clearTrace J fs c.id r.incarnation := rfl
  rw [hclear_eq] at hclear hfs₂
  have htakes_eq : takesEntry J { fs with
      history := (finishedFs J c r fs).history
      awaitDeletions := (finishedFs J c r g).awaitDeletions } c = takesEntry J fs c := rfl
  rw [htakes_eq] at htake hfs₃
  unfold finishTrace
  refine throughout_append.2 ⟨throughout_append.2 ⟨throughout_append.2 ⟨?_, ?_⟩, ?_⟩, ?_⟩
  · exact hlog.mono fun _ => Or.inl
  · rw [hfs₁]
    exact hclear.mono fun _ => Or.inl
  · rw [run_append, hfs₁, hfs₂]
    exact htake.mono fun _ => Or.inl
  · rw [run_append, run_append, hfs₁, hfs₂, hfs₃]
    exact h₃.concludes hlogged rfl rfl

/-! ## Opening with a journal -/

theorem Clean.openStore_some (h : Clean J fs) (hj : fs.completion = some c.toVec)
    (hv : isValidId c.id = true) (hc : c.history = some r) (fresh : String → Uuid) :
    openStore J fresh fs =
      (openStore J fresh (finishedFs J c r fs)).after (finishTrace J c r fs) := by
  have hrec := h.reconcileCompletion_run hj hv hc
  have hnone : reconcileCompletion J (finishedFs J c r fs) = ⟨.ok (), []⟩ :=
    Clean.reconcileCompletion_none rfl
  unfold openStore
  rw [run_bind_ok hrec, run_bind_ok hnone, Ran.after_nil, run_finishTrace]
  rfl

/-- After any part of a completion and of later openings: still under way, or carried out and
being tidied up. -/
def Recovering (J : SerdeJson) (c : CompletionRecord) (r : HistoryRecord) (g fs : QueueFs) : Prop :=
  Progress J c r g fs ∨ ∃ g₁, Done J c r g g₁ ∧ Settling J g₁ fs

theorem Done.recovering (h : Done J c r g fs) : Recovering J c r g fs :=
  Or.inr ⟨fs, h, .refl h.clean⟩

section Recover

variable (hv : isValidId c.id = true) (hc : c.history = some r) (hr : r.FitsLine)
  (hoff : c.historyOffset = some g.historyBytes.length)
include hr hoff

theorem Progress.done (h : Progress J c r g fs) : Done J c r g (finishedFs J c r fs) := by
  have hfin := (h.finishes hr hoff).finish
  rw [run_finishTrace] at hfin
  refine hfin.resolve_left fun hp => ?_
  have hj := hp.journal
  cases hj

include hv hc

theorem Recovering.interrupted {fs' : QueueFs} {fresh : String → Uuid} (h : Recovering J c r g fs)
    (hi : Interrupted Tears (openStore J fresh) fs fs') : Recovering J c r g fs' := by
  rcases h with h | ⟨g₁, hd, hs⟩
  · obtain ⟨p, hp, rfl⟩ := hi
    rw [h.clean.openStore_some h.journal hv hc fresh] at hp
    rcases cut_append.1 hp with hp | ⟨q, rfl, hq⟩
    · rcases h.finishes hr hoff p hp with h' | h'
      · exact Or.inl h'
      · exact h'.recovering
    · have hdone := h.done hr hoff
      rw [run_append, run_finishTrace]
      have hi : Interrupted Tears (openStore J fresh) (finishedFs J c r fs)
          (CrashTrace.run QueueFs.step (finishedFs J c r fs) q) := ⟨q, hq, rfl⟩
      exact Or.inr ⟨_, hdone, (Settling.refl hdone.clean).interrupted hdone.completion hi⟩
  · exact Or.inr ⟨g₁, hd, hs.interrupted hd.completion hi⟩

/-- Whatever has happened so far, the next opening that runs to its end finishes the completion. -/
theorem Recovering.opened (h : Recovering J c r g fs) (fresh : String → Uuid) :
    ∃ g₁, Done J c r g g₁ ∧
      Succeeds (openStore J fresh) fs fun _ fs' => Clean J fs' ∧ Opened J g₁ fs' := by
  rcases h with h | ⟨g₁, hd, hs⟩
  · exact ⟨_, h.done hr hoff, h.clean.succeeds_openStore_some h.journal hv hc fresh⟩
  · refine ⟨g₁, hd, ?_⟩
    refine (hs.clean.succeeds_openStore_none (hs.completion.trans hd.completion) fresh).mono ?_
    rintro _ fs' ⟨hclean, ho⟩
    exact ⟨hclean, hs.opened ho⟩

end Recover

/-! ## Any number of openings -/

/-- Openings that were all cut off lead from one directory to another. -/
inductive Reopened (J : SerdeJson) (fs : QueueFs) : QueueFs → Prop
  | refl : Reopened J fs fs
  | step {fs₁ fs₂ : QueueFs} {fresh : String → Uuid} : Reopened J fs fs₁ →
      Interrupted Tears (openStore J fresh) fs₁ fs₂ → Reopened J fs fs₂

theorem Reopened.invariant {I : QueueFs → Prop} {fs' : QueueFs} (h : Reopened J fs fs') (h0 : I fs)
    (hstep : ∀ fs₁ fs₂ fresh, I fs₁ → Interrupted Tears (openStore J fresh) fs₁ fs₂ → I fs₂) :
    I fs' := by
  induction h with
  | refl => exact h0
  | step _ hi ih => exact hstep _ _ _ ih hi

/-! ## The completion of a claim -/

/-- Closing a log makes no further record readable. -/
theorem mem_historyRecords_close {x : HistoryRecord} {L : Bytes}
    (h : x ∈ historyRecords J (close nl L)) : x ∈ historyRecords J L := by
  by_cases hL : Closed nl L
  · rwa [close_of_closed hL] at h
  · rw [close_of_not_closed hL] at h
    obtain ⟨Y, t, rfl, hY, ht⟩ := exists_tail nl L
    have hne : t ≠ [] := by
      rintro rfl
      rw [List.append_nil] at hL
      exact hL hY
    rw [List.append_assoc, historyRecords_append hY] at h
    rw [historyRecords_append hY]
    refine List.mem_append.2 ((List.mem_append.1 h).imp_right fun hx => ?_)
    unfold historyRecords at hx ⊢
    rw [collect_line ht, Option.mem_toList] at hx
    unfold collect
    rw [lines_of_not_mem hne ht, List.mem_filterMap]
    refine ⟨t, List.mem_singleton.2 rfl, ?_⟩
    -- the delimiter is white space, so the unfinished line is read the same
    unfold lineRecord at hx ⊢
    rw [List.length_append, List.all_append, J.record_nl] at hx
    split at hx
    · cases hx
    · next hlen =>
      have hnl : [nl].all isAsciiWhitespace = true := by decide
      rw [hnl, Bool.and_true] at hx
      rw [if_neg (by simp only [List.length_singleton] at hlen; omega)]
      exact hx

/-- Two directories with the same queue, markers, posting time and readable history. -/
structure SameQueue (J : SerdeJson) (a b : QueueFs) : Prop where
  entries : entries J a = entries J b
  markers : ∀ id, a.awaitDeletions.lookup id = b.awaitDeletions.lookup id
  lastPost : a.lastPost = b.lastPost
  records : historyRecords J a.historyBytes = historyRecords J b.historyBytes

theorem Done.sameQueue {g₁ g₂ fs₁ fs₂ : QueueFs} (h₁ : Done J c r g g₁) (h₂ : Done J c r g g₂)
    (hc₁ : Clean J fs₁) (hc₂ : Clean J fs₂) (ho₁ : Opened J g₁ fs₁) (ho₂ : Opened J g₂ fs₂) :
    SameQueue J fs₁ fs₂ := by
  have hq : queued J g₁ = queued J g₂ := queued_congr (h₁.entries.trans h₂.entries.symm)
  have hlog : ∀ {a b : QueueFs}, Opened J a b → b.historyBytes = a.historyBytes := by
    intro a b ho
    unfold QueueFs.historyBytes
    rw [ho.history]
  refine ⟨?_, fun id => ?_, ?_, ?_⟩
  · rw [hc₁.entries_eq, hc₂.entries_eq, ho₁.sorted, ho₂.sorted, hq]
  · rw [ho₁.markers, ho₂.markers, hq, h₁.markers, h₂.markers]
  · rw [ho₁.lastPost, ho₂.lastPost, h₁.lastPost, h₂.lastPost]
  · rw [hlog ho₁, hlog ho₂, h₁.records, h₂.records]

end Progress

/-- What a directory without a journal looks like after opening: claims are gone, and with them the
markers of queued entries; nothing else has changed. -/
structure Untouched (J : SerdeJson) (fs fs' : QueueFs) : Prop where
  entries : ∀ es, entries J fs = .ok es → entries J fs' = .ok (es.map StoredEntry.unclaimed)
  markers : ∀ id, fs'.awaitDeletions.lookup id =
    if id ∈ (queued J fs).map StoredEntry.id then none else fs.awaitDeletions.lookup id
  lastPost : fs'.lastPost = fs.lastPost
  lastAttempt : fs'.lastAttempt = fs.lastAttempt
  history : fs'.history = fs.history
  completion : fs'.completion = none

/-- **Completion recovery is crash-idempotent.** A completion that dies at any point, in any state
of the daemon, followed by openings that die at any point: the first opening that runs to its end
leaves what an uninterrupted completion and opening leave, with the post logged exactly once, if the
journal had been written; and the queue as it was, with claims cleared, if it had not. -/
theorem completion_recovery {J : SerdeJson} {w : World} (hw : w.Reachable J) {e : StoredEntry}
    (hheld : w.phase = .up (.holding e)) (tokenHash : String) (now : UInt64)
    (commentUrl : Option String) (attempt : Uuid) {c : CompletionRecord} {r : HistoryRecord}
    (hc : c = completionRecord e tokenHash now commentUrl attempt w.fs.historyBytes.length)
    (hr : r = .succeeded attempt e tokenHash now commentUrl) (hfits : r.FitsLine)
    (hfresh : ∀ x ∈ historyRecords J w.fs.historyBytes, x.attemptId ≠ r.attemptId)
    {p : List FsEvent}
    (hp : Cut Tears p (completeClaimWithToken J e tokenHash now commentUrl attempt w.fs).trace)
    {fs : QueueFs} (hre : Reopened J (w.fs.run p) fs) (fresh fresh' : String → Uuid)
    {completed : QueueFs}
    (hcompleted :
      completed = final (completeClaimWithToken J e tokenHash now commentUrl attempt) w.fs) :
    (openStore J fresh fs).outcome = .ok () ∧
    (.writeAtomic .completion c.toVec ∈ p →
      (completeClaimWithToken J e tokenHash now commentUrl attempt w.fs).outcome = .ok () ∧
      (openStore J fresh' completed).outcome = .ok () ∧
      SameQueue J (final (openStore J fresh) fs) (final (openStore J fresh') completed) ∧
      (historyRecords J (final (openStore J fresh) fs).historyBytes).filter
        (fun x => x.attemptId = r.attemptId) = [r] ∧
      (final (openStore J fresh) fs).completion = none) ∧
    (.writeAtomic .completion c.toVec ∉ p → Untouched J w.fs (final (openStore J fresh) fs)) := by
  have howned := hw.owned
  have hclean := howned.clean
  obtain ⟨hv, token, htoken, -⟩ := howned.held hheld
  have hnone : w.fs.completion = none := by
    refine howned.settled ?_ ?_
    · rw [hheld]; simp
    · rw [hheld]; simp
  have hv' : isValidId c.id = true := hc ▸ hv
  have hr' : c.history = some r := hc ▸ hr ▸ rfl
  have hoff : c.historyOffset = some w.fs.historyBytes.length := hc ▸ rfl
  have hrun := hclean.completeClaim_run hv (Or.inl (by rw [htoken]; rfl)) tokenHash now commentUrl
    attempt hc hr
  -- the directory with the journal just written
  have hstart : Progress J c r w.fs { w.fs with completion := some c.toVec } :=
    ⟨hclean.step (k := .journal c) (.journal hv' (by rw [hr']; rfl)), rfl,
      Or.inl (.start J _ _), rfl, Or.inl ⟨rfl, rfl⟩⟩
  have hfinal : Done J c r w.fs completed := by
    rw [hcompleted]
    unfold final
    rw [hrun]
    have := hstart.done hfits hoff
    rw [← run_finishTrace] at this
    exact this
  rw [hrun] at hp
  cases hp with
  | torn ht => cases ht
  | stop =>
    have hset : Settling J w.fs fs :=
      hre.invariant (.refl hclean) fun _ _ _ hs hi => hs.interrupted hnone hi
    obtain ⟨u, hok, hclean', ho⟩ :=
      (hset.clean.succeeds_openStore_none (hset.completion.trans hnone) fresh).final
    have ho' := hset.opened ho
    refine ⟨hok, fun hm => absurd hm List.not_mem_nil, fun _ => ⟨?_, ho'.markers, ho'.lastPost,
      ho'.lastAttempt, ho'.history, ho'.completion.trans hnone⟩⟩
    intro es hes
    rw [hclean.entries_eq] at hes
    rw [hclean'.entries_eq, ho'.sorted, Except.ok.inj hes]
  | @step _ q _ hq =>
    have hrecovering : Recovering J c r w.fs fs := by
      refine hre.invariant ?_ fun _ _ _ h hi => h.interrupted hv' hr' hfits hoff hi
      rcases hstart.finishes hfits hoff q hq with h | h
      · exact Or.inl h
      · exact h.recovering
    obtain ⟨g₁, hd₁, hs₁⟩ := hrecovering.opened hv' hr' hfits hoff fresh
    obtain ⟨u, hok, hclean₁, ho₁⟩ := hs₁.final
    obtain ⟨u', hok', hclean₂, ho₂⟩ :=
      (hfinal.clean.succeeds_openStore_none hfinal.completion fresh').final
    refine ⟨hok, fun _ => ⟨by rw [hrun], hok', hd₁.sameQueue hfinal hclean₁ hclean₂ ho₁ ho₂, ?_,
      ho₁.completion.trans hd₁.completion⟩, fun hn => absurd List.mem_cons_self hn⟩
    have hlog : (final (openStore J fresh) fs).historyBytes = g₁.historyBytes := by
      unfold QueueFs.historyBytes
      rw [ho₁.history]
    rw [hlog, hd₁.records, List.filter_append]
    have hold : (historyRecords J (close nl w.fs.historyBytes)).filter
        (fun x => x.attemptId = r.attemptId) = [] := by
      rw [List.filter_eq_nil_iff]
      intro x hx
      simpa using hfresh x (mem_historyRecords_close hx)
    rw [hold, List.nil_append, List.filter_cons_of_pos (by simp), List.filter_nil]

/-- A worker that has just claimed the only entry of the queue. -/
def sampleHolding : World :=
  World.afterStart serdeJson (sampleBoot ++
    [.listen (.put sampleRequest ⟨900, 0, true⟩ 1000 (sampleUuid 1)),
      .claim 900 1000 (sampleUuid 2)])

def sampleClaim : StoredEntry :=
  ⟨"4e881b86", (sampleUuid 1).text, 0, 0, 1000, 0, some (sampleUuid 2).text, sampleRequest⟩

theorem sampleHolding_reachable : sampleHolding.Reachable serdeJson :=
  World.reachable_afterStart serdeJson _

theorem sampleHolding_eq : sampleHolding.phase = .up (.holding sampleClaim) ∧
    (sampleUuid 3).text ∉ sampleHolding.used ∧ sampleHolding.fs.historyBytes = [] ∧
    sampleHolding.fs.completion = none := by
  decide +kernel

/-- The directory when the completion of the sample claim dies after four steps. -/
def sampleDied : QueueFs :=
  sampleHolding.fs.run ((completeClaimWithToken serdeJson sampleClaim "hash" 1010 none
    (sampleUuid 3) sampleHolding.fs).trace.take 4)

/-- The directory when the opening that follows dies after two steps. -/
def sampleCrashed : QueueFs :=
  sampleDied.run ((openStore serdeJson (fun _ => sampleUuid 0) sampleDied).trace.take 2)

theorem completion_recovery_sample :
    (openStore serdeJson (fun _ => sampleUuid 0) sampleCrashed).outcome = .ok () ∧
    (historyRecords serdeJson
      (final (openStore serdeJson fun _ => sampleUuid 0) sampleCrashed).historyBytes).filter
        (fun x => x.attemptId = (sampleUuid 3).text) =
      [.succeeded (sampleUuid 3) sampleClaim "hash" 1010 none] := by
  have hcut : Interrupted Tears (openStore serdeJson fun _ => sampleUuid 0) sampleDied
      sampleCrashed :=
    ⟨_, .take _ 2, rfl⟩
  have h := completion_recovery sampleHolding_reachable sampleHolding_eq.1 "hash" 1010 none
    (sampleUuid 3) rfl rfl (by decide +kernel) (by decide +kernel) (.take _ 4) (.step .refl hcut)
    (fun _ => sampleUuid 0) (fun _ => sampleUuid 0) rfl
  refine ⟨h.1, (h.2.1 ?_).2.2.2.1⟩
  decide +kernel

end Comenq
