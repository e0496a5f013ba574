import Comenq.Verify.AwaitLifetimes
import Comenq.Verify.Lifetimes

/-!
# Waits beside interrupted completions

A completion may fail after any of its steps; the entry can then still be queued while its post is
in the log already, and a later recovery removes the entry without another record. A wait reads the
log from the length it had when the wait began. So it learns of the post as long as it began before
the record was readable (`await_posted_after_recovery`), and misses it for good if it began between
the append and the removal (`await_missed_after_append`).

`Watched` is what is kept on the way: the record of a journalled completion is either not in the
log, or lies behind the offset of the wait, and a lifetime that is waited for is queued or has its
post behind that offset. The entry is removed last, when the record is in the log.
-/

namespace Comenq

open Traced CrashTrace JsonText LineLog

/-! ## Appends -/

/-- What holds for the log with any leading part of the appended bytes holds throughout an
append. -/
theorem throughout_appendTrace {I : QueueFs → Prop} {fs : QueueFs} {r : HistoryRecord} (h0 : I fs)
    (h : ∀ q, q <+: appendedBytes r fs.historyBytes →
      I { fs with history := some (fs.historyBytes ++ q) }) :
    Throughout QueueFs.step Tears I fs (appendTrace r fs.historyBytes) := by
  have hstart : I { fs with history := some fs.historyBytes } := by
    have := h [] List.nil_prefix
    rwa [List.append_nil] at this
  -- from the open log on, with the bytes `done` written
  have hline : ∀ done, appendedBytes r fs.historyBytes = done ++ (r.toVec ++ [nl]) →
      Throughout QueueFs.step Tears I { fs with history := some (fs.historyBytes ++ done) }
        ([.appendHistory (r.toVec ++ [nl]), .syncHistory] ++
          (if fs.historyBytes.length = 0 then [.syncDir .root] else [])) := by
    intro done hdone
    have hall : I { fs with history := some (fs.historyBytes ++ done ++ (r.toVec ++ [nl])) } := by
      rw [List.append_assoc, ← hdone]
      exact h _ List.prefix_rfl
    refine throughout_cons.2 ⟨h done ⟨_, hdone.symm⟩, fun ev' ht => ?_, ?_⟩
    · cases ht with
      | @append _ torn htorn =>
        change I { fs with history := some (fs.historyBytes ++ done ++ torn) }
        rw [List.append_assoc]
        refine h _ ?_
        rw [hdone]
        exact (List.prefix_append_right_inj done).2 htorn
    · refine throughout_cons_of hall (by simp) ?_
      split
      · exact throughout_cons_of hall (by simp) (throughout_nil.2 hall)
      · exact throughout_nil.2 hall
  unfold appendTrace
  refine throughout_cons_of h0 (by simp) ?_
  change Throughout _ _ _ { fs with history := some fs.historyBytes } _
  by_cases hL : Closed nl fs.historyBytes
  · rw [if_pos hL, List.nil_append]
    have := hline [] (by unfold appendedBytes; rw [if_pos hL])
    rwa [List.append_nil] at this
  · have hbytes : appendedBytes r fs.historyBytes = [nl] ++ (r.toVec ++ [nl]) := by
      unfold appendedBytes
      rw [if_neg hL]
    rw [if_neg hL, List.append_assoc, List.singleton_append]
    refine throughout_cons.2 ⟨hstart, fun ev' ht => ?_, hline [nl] hbytes⟩
    cases ht with
    | @append _ torn htorn =>
      refine h torn ?_
      rw [hbytes]
      exact htorn.trans (List.prefix_append _ _)

/-! ## The record of a journalled completion -/

/-- The journalled completion `c` is of the record `r`, and nothing readable of it has been added to
the log, or the record has: behind the offset `m`, if its lifetime is one of `S`. -/
structure Settles (J : SerdeJson) (m : Nat) (S : String → Prop) (c : CompletionRecord)
    (r : HistoryRecord) (log : Bytes) : Prop where
  post : c.history = some r
  success : r.success = true
  id : r.id = c.id
  fits : r.FitsLine
  progress : ∃ H, c.historyOffset = some H.length ∧ (Pending J r.attemptId H log ∨
    Logged J r H log ∧ (S r.incarnation → r ∈ recordsIn J (log.drop m)))

section Append

variable {J : SerdeJson} {m : Nat} {S : String → Prop} {c : CompletionRecord} {r : HistoryRecord}
  {L H : Bytes}

/-- A part of the line, written to a closed log. -/
theorem Settles.line (h : Settles J m S c r L) (hoff : c.historyOffset = some H.length)
    (hp : Pending J r.attemptId H L) (hm : m ≤ L.length) (hL : Closed nl L) {q : Bytes}
    (hq : q <+: r.toVec ++ [nl]) : Settles J m S c r (L ++ q) := by
  refine ⟨h.post, h.success, h.id, h.fits, H, hoff, ?_⟩
  -- the whole object lies behind the offset, with or without its delimiter
  have hmem : ∀ bytes, recordsIn J bytes = [r] → r ∈ recordsIn J ((L ++ bytes).drop m) := by
    intro bytes hb
    rw [List.drop_append_of_le_length hm, recordsIn_append (closed_drop hL m), hb]
    exact List.mem_append_right _ (List.mem_singleton.2 rfl)
  rcases List.prefix_concat_iff.1 hq with rfl | ⟨rest, hrest⟩
  · exact Or.inr ⟨hp.logged h.fits hL, fun _ => hmem _ (recordsIn_line h.fits)⟩
  · by_cases hn : rest = []
    · rw [hn, List.append_nil] at hrest
      rw [hrest]
      refine Or.inr ⟨hp.logged_tail h.fits hL, fun _ => hmem _ ?_⟩
      rw [← recordsIn_concat]
      exact recordsIn_line h.fits
    · exact Or.inl (hp.torn_object hL hrest.symm hn)

/-- An append that is cut off anywhere leaves the record whole or unreadable. -/
theorem Settles.appended (h : Settles J m S c r L) (hoff : c.historyOffset = some H.length)
    (hp : Pending J r.attemptId H L) (hm : m ≤ L.length) {q : Bytes}
    (hq : q <+: appendedBytes r L) : Settles J m S c r (L ++ q) := by
  unfold appendedBytes at hq
  by_cases hL : Closed nl L
  · rw [if_pos hL, List.nil_append] at hq
    exact h.line hoff hp hm hL hq
  · rw [if_neg hL, List.singleton_append] at hq
    cases q with
    | nil =>
      rw [List.append_nil]
      exact h
    | cons b q =>
      obtain ⟨rfl, htail⟩ := List.cons_prefix_cons.1 hq
      have hrepaired : Settles J m S c r (L ++ [nl]) :=
        ⟨h.post, h.success, h.id, h.fits, H, hoff, Or.inl (hp.repair r hL)⟩
      have := hrepaired.line hoff (hp.repair r hL) (hm.trans (by simp))
        (closed_append_singleton L) htail
      rwa [List.append_assoc] at this

end Append

/-! ## Lifetimes that are waited for -/

/-- The log holds a readable post of this lifetime. -/
def HoldsPost (J : SerdeJson) (log : Bytes) (id i : String) : Prop :=
  ∃ r ∈ recordsIn J log, r.success = true ∧ r.id = id ∧ r.incarnation = i

/-- The lifetimes `T` are queued or have their post behind the offset `m` of the log. -/
structure Watched (J : SerdeJson) (m : Nat) (S : String → Prop) (T : String → String → Prop)
    (fs : QueueFs) : Prop where
  offset : m ≤ fs.historyBytes.length
  journal : ∀ c, fs.completion = some (CompletionRecord.toVec c) →
    ∃ r, Settles J m S c r fs.historyBytes
  found : ∀ id i, T id i → HoldsPost J (fs.historyBytes.drop m) id i ∨
    ∃ e ∈ queued J fs, e.id = id ∧ e.incarnation = i

namespace Watched

variable {J : SerdeJson} {m : Nat} {S : String → Prop} {T : String → String → Prop}
  {fs fs' : QueueFs}

theorem congr (h : Watched J m S T fs) (he : fs'.entries = fs.entries)
    (hc : fs'.completion = fs.completion) (hh : fs'.history = fs.history) :
    Watched J m S T fs' := by
  have hlog : fs'.historyBytes = fs.historyBytes := by
    unfold QueueFs.historyBytes
    rw [hh]
  refine ⟨hlog ▸ h.offset, fun c hj => ?_, fun id i ht => ?_⟩
  · rw [hlog]
    exact h.journal c (hc ▸ hj)
  · rw [hlog, queued_congr he]
    exact h.found id i ht

/-- A part of an append; the journal is looked after separately. -/
theorem append (h : Watched J m S T fs) {r : HistoryRecord} {q : Bytes}
    (hq : q <+: appendedBytes r fs.historyBytes)
    (hj : ∀ c, fs.completion = some (CompletionRecord.toVec c) →
      ∃ r, Settles J m S c r (fs.historyBytes ++ q)) :
    Watched J m S T { fs with history := some (fs.historyBytes ++ q) } := by
  refine ⟨?_, hj, fun id i ht => ?_⟩
  · change m ≤ (fs.historyBytes ++ q).length
    rw [List.length_append]
    exact Nat.le_add_right_of_le h.offset
  · refine (h.found id i ht).imp_left ?_
    rintro ⟨x, hx, hpost⟩
    obtain ⟨added, -, hrecords⟩ := recordsIn_appended (J := J) h.offset hq
    refine ⟨x, ?_, hpost⟩
    change x ∈ recordsIn J ((fs.historyBytes ++ q).drop m)
    rw [hrecords]
    exact List.mem_append_left _ hx

/-! ## Finishing a completion -/

section Finish

variable {c : CompletionRecord} {r : HistoryRecord}

/-- The log step: watched throughout, with the record in the log at its end. -/
theorem logs (h : Watched J m S T fs) (hj : fs.completion = some c.toVec)
    (hs : Settles J m S c r fs.historyBytes) :
    Throughout QueueFs.step Tears (Watched J m S T) fs (logTrace J c r fs) ∧
      (S r.incarnation → r ∈ recordsIn J
        ((CrashTrace.run QueueFs.step fs (logTrace J c r fs)).historyBytes.drop m)) := by
  obtain ⟨H, hoff, hprogress⟩ := hs.progress
  have hlen : c.historyOffset.getD 0 = H.length := by rw [hoff]; rfl
  unfold logTrace
  rw [hlen]
  rcases hprogress with hp | ⟨hl, hmem⟩
  · rw [hp.contains]
    refine ⟨throughout_appendTrace h fun q hq => h.append hq fun c' hc' => ?_, fun _ => ?_⟩
    · obtain rfl := CompletionRecord.toVec_injective (Option.some.inj (hj.symm.trans hc'))
      exact ⟨r, hs.appended hoff hp h.offset hq⟩
    · rw [if_neg (by simp), run_appendTrace]
      change r ∈ recordsIn J ((fs.historyBytes ++ appendedBytes r fs.historyBytes).drop m)
      rw [recordsIn_appendedBytes hs.fits h.offset]
      exact List.mem_append_right _ (List.mem_singleton.2 rfl)
  · rw [if_pos hl.contains]
    exact ⟨throughout_nil.2 h, hmem⟩

/-- The entry that carries the claim goes when its post is in the log. -/
theorem take (h : Watched J m S T fs) (hTS : ∀ id i, T id i → S i)
    (hs : r.success = true ∧ r.id = c.id)
    (hmem : S r.incarnation → r ∈ recordsIn J (fs.historyBytes.drop m))
    (hown : ∀ e ∈ queued J fs, e.id = c.id → e.incarnation = r.incarnation) :
    Watched J m S T (fs.remove (.entry c.id)) := by
  refine ⟨h.offset, h.journal, fun id i ht => ?_⟩
  rcases h.found id i ht with hf | ⟨e, he, hid, hi⟩
  · exact Or.inl hf
  · by_cases hne : e.id = c.id
    · have hir : r.incarnation = i := (hown e he hne).symm.trans hi
      exact Or.inl ⟨r, hmem (hir ▸ hTS id i ht), hs.1, hs.2.trans (hne.symm.trans hid), hir⟩
    · exact Or.inr ⟨e, mem_queued_remove.2 ⟨he, hne⟩, hid, hi⟩

theorem settled (h : Watched J m S T fs) : Watched J m S T { fs with completion := none } :=
  ⟨h.offset, (fun c hc => by cases hc), h.found⟩

/-- Finishing a journalled completion keeps the waits, wherever it is cut off. -/
theorem finishes (h : Watched J m S T fs) (hTS : ∀ id i, T id i → S i)
    (hj : fs.completion = some c.toVec) (hs : Settles J m S c r fs.historyBytes)
    (hown : takesEntry J fs c = true →
      ∀ e ∈ queued J fs, e.id = c.id → e.incarnation = r.incarnation) :
    Throughout QueueFs.step Tears (Watched J m S T) fs (finishTrace J c r fs) := by
  obtain ⟨hlogs, hmem⟩ := h.logs hj hs
  have h₁ := hlogs.finish
  rw [run_logTrace] at h₁ hmem
  -- the marker
  have hclear : ∀ markers, Watched J m S T { fs with
      history := (finishedFs J c r fs).history
      awaitDeletions := markers } := fun markers => h₁.congr rfl rfl rfl
  have hclears : Throughout QueueFs.step Tears (Watched J m S T)
      { fs with history := (finishedFs J c r fs).history }
      (clearTrace J fs c.id r.incarnation) := by
    unfold clearTrace
    split
    · refine throughout_cons_of h₁ (by simp) (throughout_cons_of (hclear _) (by simp) ?_)
      exact throughout_nil.2 (hclear _)
    · exact throughout_nil.2 h₁
  have hfs₂ : CrashTrace.run QueueFs.step { fs with history := (finishedFs J c r fs).history }
      (clearTrace J fs c.id r.incarnation) = { fs with
        history := (finishedFs J c r fs).history
        awaitDeletions := (finishedFs J c r fs).awaitDeletions } := by
    unfold clearTrace
    by_cases hm : clearsMarker J fs c.id r.incarnation = true
    · rw [if_pos hm]
      exact QueueFs.ext rfl (if_pos hm).symm rfl rfl rfl rfl
    · rw [if_neg hm]
      exact QueueFs.ext rfl (if_neg hm).symm rfl rfl rfl rfl
  -- the entry
  have htaken : Watched J m S T { finishedFs J c r fs with
      lastPost := fs.lastPost
      completion := fs.completion } := by
    by_cases ht : takesEntry J fs c = true
    · refine ((hclear (finishedFs J c r fs).awaitDeletions).take hTS ⟨hs.success, hs.id⟩ hmem
        (hown ht)).congr (if_pos ht) rfl rfl
    · exact (hclear (finishedFs J c r fs).awaitDeletions).congr (if_neg ht) rfl rfl
  have hfs₃ : CrashTrace.run QueueFs.step { fs with
        history := (finishedFs J c r fs).history
        awaitDeletions := (finishedFs J c r fs).awaitDeletions }
      (if takesEntry J fs c then [.removeFile (.entry c.id)] else []) = { finishedFs J c r fs with
      lastPost := fs.lastPost
      completion := fs.completion } := by
    by_cases ht : takesEntry J fs c = true
    · rw [if_pos ht]
      exact QueueFs.ext (if_pos ht).symm rfl rfl rfl rfl rfl
    · rw [if_neg ht]
      exact QueueFs.ext (if_neg ht).symm rfl rfl rfl rfl rfl
  have htakes : Throughout QueueFs.step Tears (Watched J m S T) { fs with
        history := (finishedFs J c r fs).history
        awaitDeletions := (finishedFs J c r fs).awaitDeletions }
      (if takesEntry J fs c then [.removeFile (.entry c.id)] else []) := by
    by_cases ht : takesEntry J fs c = true
    · rw [if_pos ht] at hfs₃ ⊢
      refine throughout_cons_of (hclear _) (by simp) (throughout_nil.2 ?_)
      rw [← hfs₃] at htaken
      exact htaken
    · rw [if_neg ht]
      exact throughout_nil.2 (hclear _)
  unfold finishTrace
  refine throughout_append.2 ⟨throughout_append.2 ⟨throughout_append.2 ⟨hlogs, ?_⟩, ?_⟩, ?_⟩
  · rw [run_logTrace]
    exact hclears
  · rw [run_append, run_logTrace, hfs₂]
    exact htakes
  · rw [run_append, run_append, run_logTrace, hfs₂, hfs₃]
    have hposted : Watched J m S T { finishedFs J c r fs with completion := fs.completion } :=
      htaken.congr rfl rfl rfl
    refine throughout_cons_of htaken (by simp) (throughout_cons_of hposted (by simp) ?_)
    exact throughout_cons_of hposted.settled (by simp) (throughout_nil.2 hposted.settled)

end Finish

/-! ## Calls -/

/-- Changes that leave the journal and the log alone and take no entry for a completion. -/
def calm : Kind → Prop
  | .take _ | .journal _ | .finished | .log => False
  | _ => True

theorem history_eq {k : Kind} {ev : FsEvent} (hch : Change J fs k ev) (hk : calm k) :
    (fs.step ev).history = fs.history := by
  cases hch with
  | openLog | log | syncLog => exact hk.elim
  | _ => rfl

theorem change (h : Watched J m S T fs) (hclean : Clean J fs) {k : Kind} {ev : FsEvent}
    (hch : Change J fs k ev) (hk : calm k) (hdrop : ∀ id i, k = .drop id → ¬ T id i) :
    Watched J m S T (fs.step ev) := by
  have hbytes : (fs.step ev).historyBytes = fs.historyBytes := by
    unfold QueueFs.historyBytes
    rw [history_eq hch hk]
  refine ⟨hbytes ▸ h.offset, fun c hc => ?_, fun id i ht => ?_⟩
  · rw [hbytes]
    refine h.journal c ?_
    rcases hch.completion_eq with he | ⟨c', rfl, -⟩ | ⟨rfl, -⟩
    · exact he ▸ hc
    · exact hk.elim
    · exact hk.elim
  · rw [hbytes]
    refine (h.found id i ht).imp_right ?_
    rintro ⟨e, he, hid, hi⟩
    rcases hch.keeps he with hkept | ⟨e', he', hu, -⟩ | hd | ⟨c, rfl, -, -⟩
    · exact ⟨e, hkept, hid, hi⟩
    · exact ⟨e', he', hu.id_eq.trans hid, (hclean.incarnation_eq he hu).trans hi⟩
    · exact absurd ht (hdrop id i (hid ▸ hd))
    · exact hk.elim

/-- A call of calm changes keeps the waits, unless it deletes a queued lifetime that is waited for
and whose post is not in the log yet. -/
theorem leaves_calm (h : Watched J m S T fs) (hclean : Clean J fs) {op : Op} (hs : op.Sound)
    (hl : op.Leaves J fs fs') (hcalm : ∀ k, op.Kinds J fs k → calm k)
    (hdrop : ∀ id i, op.Kinds J fs (.drop id) → T id i →
      HoldsPost J (fs.historyBytes.drop m) id i ∨
        ∀ e ∈ queued J fs, e.id = id → e.incarnation ≠ i) :
    Watched J m S T fs' := by
  -- the call leaves the log alone, so only lifetimes without their post have to stay queued
  let Q : String → String → Prop := fun id i => T id i ∧ ¬ HoldsPost J (fs.historyBytes.drop m) id i
  have hQ : Watched J m S Q fs := ⟨h.offset, h.journal, fun id i ht => h.found id i ht.1⟩
  have hboth : (Clean J fs' ∧ Watched J m S Q fs') ∧ fs'.history = fs.history := by
    refine Op.leaves_of_changes (I := fun g => (Clean J g ∧ Watched J m S Q g) ∧
      g.history = fs.history) hs hl ⟨⟨hclean, hQ⟩, rfl⟩ ?_
    rintro g k ev ⟨⟨hg, hw⟩, hlog⟩ hk hch
    refine ⟨⟨hg.step hch, hw.change hg hch (hcalm k hk) ?_⟩,
      (history_eq hch (hcalm k hk)).trans hlog⟩
    rintro id i rfl ⟨ht, hnone⟩
    obtain ⟨e, he, hid, hi⟩ := (h.found id i ht).resolve_left hnone
    exact (hdrop id i hk ht).resolve_left hnone e he hid hi
  obtain ⟨⟨-, hw⟩, hlog⟩ := hboth
  refine ⟨hw.offset, hw.journal, fun id i ht => ?_⟩
  by_cases hpost : HoldsPost J (fs.historyBytes.drop m) id i
  · have hbytes : fs'.historyBytes = fs.historyBytes := by
      unfold QueueFs.historyBytes
      rw [hlog]
    rw [hbytes]
    exact Or.inl hpost
  · exact hw.found id i ⟨ht, hpost⟩

/-- The record of a failed attempt, while nothing is journalled. -/
theorem leaves_append (h : Watched J m S T fs) (hnone : fs.completion = none)
    {record : HistoryRecord} (hl : (Op.appendHistory record).Leaves J fs fs') :
    Watched J m S T fs' := by
  obtain ⟨p, hp, rfl⟩ := hl
  change Cut Tears p (((fun _ => Reply.done) <$> Comenq.append record : Store Reply) fs).trace at hp
  rw [trace_map, append_run] at hp
  refine throughout_appendTrace h (fun q hq => h.append hq fun c hc => ?_) p hp
  rw [hnone] at hc
  cases hc

theorem leaves_complete (h : Watched J m S T fs) (hTS : ∀ id i, T id i → S i) (hclean : Clean J fs)
    {held : StoredEntry} {tokenHash : String} {now : UInt64} {commentUrl : Option String}
    {attempt : Uuid} (hv : isValidId held.id = true) {token : String}
    (htoken : held.claimToken = some token) (hbound : Bound J token held.id held.incarnation fs)
    (hfits : (HistoryRecord.succeeded attempt held tokenHash now commentUrl).FitsLine)
    (hl : (Op.completeClaim held tokenHash now commentUrl attempt).Leaves J fs fs') :
    Watched J m S T fs' := by
  obtain ⟨p, hp, rfl⟩ := hl
  change Cut Tears p (((fun _ => Reply.done) <$>
    completeClaimWithToken J held tokenHash now commentUrl attempt : Store Reply) fs).trace at hp
  rw [trace_map, hclean.completeClaim_run hv (Or.inl (by rw [htoken]; rfl)) tokenHash now commentUrl
    attempt rfl rfl] at hp
  set c := completionRecord held tokenHash now commentUrl attempt fs.historyBytes.length with hc
  set r := HistoryRecord.succeeded attempt held tokenHash now commentUrl with hr
  have hsettles : Settles J m S c r fs.historyBytes :=
    ⟨rfl, rfl, rfl, hfits, fs.historyBytes, rfl, Or.inl (.start J _ _)⟩
  have hjournal : Watched J m S T { fs with completion := some c.toVec } := by
    refine ⟨h.offset, fun c' hc' => ⟨r, ?_⟩, h.found⟩
    obtain rfl := CompletionRecord.toVec_injective (Option.some.inj hc')
    exact hsettles
  refine throughout_cons_of h (by simp) ?_ p hp
  refine hjournal.finishes hTS rfl hsettles fun ht e he hid => ?_
  obtain ⟨x, hx, hxid, hxt⟩ := takesEntry_iff.1 ht
  rw [eq_of_mem_queued he hx (hid.trans hxid.symm)]
  exact (hbound x hx (hxt token htoken)).2

/-- Recovery and opening without a journal only clear claims and markers. -/
theorem leaves_unjournalled (h : Watched J m S T fs) (hclean : Clean J fs)
    (hnone : fs.completion = none) {op : Op} {fresh : String → Uuid}
    (hop : op = .recoverWorkerState fresh ∨ op = .reopen fresh) (hl : op.Leaves J fs fs') :
    Watched J m S T fs' := by
  have hpending : pendingCompletion J fs = none := by
    unfold pendingCompletion
    rw [hnone]
    rfl
  refine h.leaves_calm hclean ?_ hl ?_ ?_
  · rcases hop with rfl | rfl <;> trivial
  · intro k hk
    rcases hop with rfl | rfl <;> simp only [Op.Kinds, hpending, reduceCtorEq, false_and,
      exists_false, false_or] at hk
    · obtain ⟨id, rfl⟩ := hk
      trivial
    · rcases hk with ⟨id, rfl⟩ | ⟨id, rfl⟩ | rfl <;> trivial
  · intro id i hk
    rcases hop with rfl | rfl <;> simp [Op.Kinds, hpending] at hk

theorem recoverWorkerState_some {c : CompletionRecord} {r : HistoryRecord} (h : Clean J fs)
    (hj : fs.completion = some c.toVec) (hv : isValidId c.id = true) (hc : c.history = some r)
    (fresh : String → Uuid) :
    recoverWorkerState J fresh fs =
      (recoverWorkerState J fresh (finishedFs J c r fs)).after (finishTrace J c r fs) := by
  have hrec := h.reconcileCompletion_run hj hv hc
  have hnone : reconcileCompletion J (finishedFs J c r fs) = ⟨.ok (), []⟩ :=
    Clean.reconcileCompletion_none rfl
  unfold recoverWorkerState
  rw [run_bind_ok hrec, run_bind_ok hnone, Ran.after_nil, run_finishTrace]
  rfl

/-- Recovery and opening finish the journalled completion first. -/
theorem leaves_recovery (h : Watched J m S T fs) (hTS : ∀ id i, T id i → S i) (hclean : Clean J fs)
    (hjournal : ∀ c, fs.completion = some (CompletionRecord.toVec c) → ∃ token r,
      c.claimToken = some token ∧ c.history = some r ∧ Bound J token c.id r.incarnation fs)
    {op : Op} {fresh : String → Uuid} (hop : op = .recoverWorkerState fresh ∨ op = .reopen fresh)
    (hl : op.Leaves J fs fs') : Watched J m S T fs' := by
  cases hcompletion : fs.completion with
  | none => exact h.leaves_unjournalled hclean hcompletion hop hl
  | some bytes =>
    obtain ⟨c, rfl, hv, -⟩ := hclean.journal hcompletion
    obtain ⟨r, hs⟩ := h.journal c hcompletion
    obtain ⟨token, r', htoken, hr', hbound⟩ := hjournal c hcompletion
    obtain rfl := Option.some.inj (hr'.symm.trans hs.post)
    have hfinish := h.finishes hTS hcompletion hs fun ht e he hid => by
      obtain ⟨x, hx, hxid, hxt⟩ := takesEntry_iff.1 ht
      rw [eq_of_mem_queued he hx (hid.trans hxid.symm)]
      exact (hbound x hx (hxt token htoken)).2
    have hdone := hfinish.finish
    rw [run_finishTrace] at hdone
    have htrace : (op.exec J fs).trace =
        finishTrace J c r' fs ++ (op.exec J (finishedFs J c r' fs)).trace := by
      rcases hop with rfl | rfl
      · rw [Op.exec, trace_map, trace_map, recoverWorkerState_some hclean hcompletion hv hr' fresh]
        rfl
      · rw [Op.exec, trace_map, trace_map, hclean.openStore_some hcompletion hv hr' fresh]
        rfl
    obtain ⟨p, hp, rfl⟩ := hl
    rw [htrace] at hp
    rcases cut_append.1 hp with hp | ⟨q, rfl, hq⟩
    · exact hfinish p hp
    · rw [run_append, run_finishTrace]
      have hclean' : Clean J (finishedFs J c r' fs) := by
        obtain ⟨-, -, hafter, -⟩ := hclean.succeeds_reconcile.final
        unfold final at hafter
        rwa [hclean.reconcileCompletion_run hcompletion hv hr', run_finishTrace] at hafter
      exact hdone.leaves_unjournalled hclean' rfl hop ⟨q, hq, rfl⟩

end Watched

/-! ## Runs -/

/-- Nothing but the store writes the log, and every post fits in a line. -/
def Orderly (w : World) (a : Action) : Prop :=
  (∀ log, a ≠ .tamper log) ∧
    ∀ held tokenHash now commentUrl attempt, w.phase = .up (.holding held) →
      a = .complete tokenHash now commentUrl attempt →
      (HistoryRecord.succeeded attempt held tokenHash now commentUrl).FitsLine

/-- The action does not delete this lifetime from the queue, unless the log holds its post behind
the offset `m` already. -/
def Spares (J : SerdeJson) (m : Nat) (id i : String) (w : World) (a : Action) : Prop :=
  HoldsPost J (w.fs.historyBytes.drop m) id i ∨
    ∀ e ∈ queued J w.fs, e.id = id → e.incarnation = i → a ≠ .listen (.del id)

theorem World.Owned.watched_leaves {J : SerdeJson} {m : Nat} {S : String → Prop}
    {T : String → String → Prop} {w : World} (howned : w.Owned J) (hTS : ∀ id i, T id i → S i)
    (h : Watched J m S T w.fs) {a : Action} {op : Op} {fs' : QueueFs} (hc : Calls w.phase a op)
    (horderly : Orderly w a) (hspares : ∀ id i, T id i → Spares J m id i w a)
    (hl : op.Leaves J w.fs fs') : Watched J m S T fs' := by
  have hsound := howned.sound hc
  have hclean := howned.clean
  have hdrop : ∀ id i, op.Kinds J w.fs (.drop id) → T id i →
      HoldsPost J (w.fs.historyBytes.drop m) id i ∨
        ∀ e ∈ queued J w.fs, e.id = id → e.incarnation ≠ i := fun id i hk ht =>
    (hspares id i ht).imp_right fun hkept e he hid hi => hkept e he hid hi (hc.of_drop hk)
  have hjournal : ∀ c, w.fs.completion = some (CompletionRecord.toVec c) → ∃ token r,
      c.claimToken = some token ∧ c.history = some r ∧ Bound J token c.id r.incarnation w.fs := by
    intro c hj
    obtain ⟨token, r, ht, hr, ho⟩ := howned.journal hj
    exact ⟨token, r, ht, hr, ho.bound⟩
  obtain ⟨fs, phase, used⟩ := w
  cases hc with
  | listen hr =>
    refine h.leaves_calm hclean hsound hl (fun k hk => ?_) hdrop
    cases op with
    | put => obtain ⟨id, rfl⟩ := hk; trivial
    | bump | bust => obtain rfl : k = _ := hk; trivial
    | del => rcases hk with rfl | rfl <;> trivial
    | _ => cases hr
  | recover fresh => exact h.leaves_recovery hTS hclean hjournal (Or.inl rfl) hl
  | openQueue fresh => exact h.leaves_recovery hTS hclean hjournal (Or.inr rfl) hl
  | claim =>
    refine h.leaves_calm hclean hsound hl (fun k hk => ?_) hdrop
    obtain ⟨e, wait, -, rfl⟩ := hk
    trivial
  | release =>
    refine h.leaves_calm hclean hsound hl (fun k hk => ?_) hdrop
    rcases hk with rfl | rfl <;> trivial
  | recordFailure =>
    exact h.leaves_append (howned.settled (by simp) (by simp)) hl
  | complete held tokenHash now commentUrl attempt =>
    obtain ⟨hv, token, ht, ho⟩ := howned.held rfl
    exact h.leaves_complete hTS hclean hv ht ho.bound (horderly.2 _ _ _ _ _ rfl rfl) hl

theorem World.Owned.watched_step {J : SerdeJson} {m : Nat} {S : String → Prop}
    {T : String → String → Prop} {w w' : World} (howned : w.Owned J) (hTS : ∀ id i, T id i → S i)
    (h : Watched J m S T w.fs) {a : Action} (horderly : Orderly w a)
    (hspares : ∀ id i, T id i → Spares J m id i w a) (hs : Step J w a w') :
    Watched J m S T w'.fs := by
  cases hs with
  | returned hc _ _ => exact howned.watched_leaves hTS h hc horderly hspares (Op.leaves_final J _ _)
  | failed hc _ hl => exact howned.watched_leaves hTS h hc horderly hspares hl
  | killed hc _ hl => exact howned.watched_leaves hTS h hc horderly hspares hl
  | stop | die => exact h
  | @tamper log act => exact absurd act (horderly.1 log)

/-- In an orderly run the record of a journalled completion is in the log or not readable there. -/
theorem watched_of_orderly {J : SerdeJson} {w : World} (h : Run J Orderly World.start w) :
    Watched J 0 (fun _ => True) (fun _ _ => False) w.fs := by
  have hboth : w.Owned J ∧ Watched J 0 (fun _ => True) (fun _ _ => False) w.fs := by
    refine Run.invariant (I := fun w => w.Owned J ∧
      Watched J 0 (fun _ => True) (fun _ _ => False) w.fs) ?_ h ⟨.start J, ?_⟩
    · rintro w₁ a w₂ ⟨ho, hw⟩ ha hs
      exact ⟨ho.step hs, ho.watched_step (fun _ _ h => h.elim) hw ha (fun _ _ h => h.elim) hs⟩
    · exact ⟨Nat.zero_le _, (fun c hc => by cases hc), fun _ _ h => h.elim⟩
  exact hboth.2

/-- The wait begins: a journalled post of its lifetime is not in the log. -/
theorem Watched.begins {J : SerdeJson} {fs : QueueFs} {e : StoredEntry}
    (h : Watched J 0 (fun _ => True) (fun _ _ => False) fs) (he : e ∈ queued J fs)
    (hclear : ∀ r ∈ recordsIn J fs.historyBytes, r.success = true →
      r.incarnation ≠ e.incarnation) :
    Watched J fs.historyBytes.length (· = e.incarnation)
      (fun id i => id = e.id ∧ i = e.incarnation) fs := by
  refine ⟨Nat.le_refl _, fun c hc => ?_, ?_⟩
  · obtain ⟨r, hs⟩ := h.journal c hc
    obtain ⟨H, hoff, hprogress⟩ := hs.progress
    refine ⟨r, hs.post, hs.success, hs.id, hs.fits, H, hoff, hprogress.imp_right ?_⟩
    rintro ⟨hl, hmem⟩
    refine ⟨hl, fun hri => absurd hri (hclear r ?_ hs.success)⟩
    have := hmem trivial
    rwa [List.drop_zero] at this
  · rintro _ _ ⟨rfl, rfl⟩
    exact Or.inr ⟨e, he, rfl, rfl⟩

/-- A lookup for a lifetime that is gone answers with the newest of its posts behind the cursor. -/
theorem Clean.resolveAwait_holdsPost {J : SerdeJson} {fs : QueueFs} (h : Clean J fs) {id : String}
    (hv : isValidId id = true) {c : AwaitCursor}
    (hpost : HoldsPost J (fs.historyBytes.drop c.offset) id c.incarnation)
    (hgone : ∀ e ∈ queued J fs, e.id = id → e.incarnation ≠ c.incarnation)
    (cooldown now : UInt64) :
    ∃ r ∈ recordsIn J (fs.historyBytes.drop c.offset), r.success = true ∧ r.id = id ∧
      r.incarnation = c.incarnation ∧
      resolveAwait J fs id (some c) cooldown now = .ok (.posted r.commentUrl r.postedAt) := by
  obtain ⟨r, hr, hsuccess, hrid, hri⟩ := hpost
  have hmem : r ∈ completionsIn J id (some c) fs.historyBytes := by
    refine List.mem_filter.2 ⟨hr, ?_⟩
    unfold isCompletionOf
    simp [hsuccess, hrid, hri]
  obtain ⟨x, hx⟩ := Option.isSome_iff_exists.1 (List.getLast?_isSome.2 (List.ne_nil_of_mem hmem))
  obtain ⟨hxr, hxc⟩ := List.mem_filter.1 (List.mem_of_getLast? hx)
  unfold isCompletionOf at hxc
  simp only [Bool.and_eq_true, beq_iff_eq] at hxc
  refine ⟨x, hxr, hxc.1.2, hxc.1.1, hxc.2, ?_⟩
  have hs : ∀ e ∈ queued J fs, e.id = id → cursorSelects (some c) e = false :=
    fun e he hid => beq_eq_false_iff_ne.2 (Ne.symm (hgone e he hid))
  rw [h.resolveAwait_ended hv hs, resolveAwaitCompletion_eq]
  change Except.ok (Waiter.newest J fs id (some c)) = _
  unfold Waiter.newest
  rw [latestCompletion_eq, hx]

/-- **A wait that began before the post was readable learns of it.** Whatever the run does between
the pending answer and the moment when the lifetime has left the queue, completions cut off anywhere
and later recoveries included, the lookup with its cursor answers with the post of that lifetime in
the log behind the cursor. -/
theorem await_posted_after_recovery {J : SerdeJson} {w₀ w : World}
    (h₀ : Run J Orderly World.start w₀) {id : String} {c : AwaitCursor} {cooldown now eta : UInt64}
    (hpending : resolveAwait J w₀.fs id none cooldown now = .ok (.pending eta c))
    (hclear : ∀ r ∈ recordsIn J w₀.fs.historyBytes, r.success = true →
      r.incarnation ≠ c.incarnation)
    (hrun : Run J (fun w a => Orderly w a ∧ Spares J c.offset id c.incarnation w a) w₀ w)
    (hgone : ∀ e ∈ queued J w.fs, e.id = id → e.incarnation ≠ c.incarnation)
    (cooldown' now' : UInt64) :
    ∃ r ∈ recordsIn J (w.fs.historyBytes.drop c.offset), r.success = true ∧ r.id = id ∧
      r.incarnation = c.incarnation ∧
      resolveAwait J w.fs id (some c) cooldown' now' = .ok (.posted r.commentUrl r.postedAt) := by
  have howned₀ : w₀.Owned J := World.Reachable.owned (h₀.mono fun _ _ _ => trivial)
  obtain ⟨e, he, rfl, rfl⟩ := cursor_of_pending hpending
  have hend : w.Owned J ∧ Watched J w₀.fs.historyBytes.length (· = e.incarnation)
      (fun id i => id = e.id ∧ i = e.incarnation) w.fs := by
    refine Run.invariant (I := fun w => w.Owned J ∧ Watched J w₀.fs.historyBytes.length
      (· = e.incarnation) (fun id i => id = e.id ∧ i = e.incarnation) w.fs) ?_ hrun
      ⟨howned₀, (watched_of_orderly h₀).begins he hclear⟩
    rintro w₁ a w₂ ⟨ho, hw⟩ ⟨horderly, hspares⟩ hs
    refine ⟨ho.step hs, ho.watched_step (fun _ _ h => h.2) hw horderly ?_ hs⟩
    rintro _ _ ⟨rfl, rfl⟩
    exact hspares
  obtain ⟨howned, hwatched⟩ := hend
  refine howned.clean.resolveAwait_holdsPost (isValidId_of_mem he) ?_ hgone cooldown' now'
  refine (hwatched.found _ _ ⟨rfl, rfl⟩).resolve_right ?_
  rintro ⟨x, hx, hxid, hxi⟩
  exact hgone x hx hxid hxi

/-! ## A wait that begins too late -/

/-- A completion may end right after the append. -/
theorem Clean.leaves_appended {J : SerdeJson} {fs : QueueFs} (h : Clean J fs) {e : StoredEntry}
    (hv : isValidId e.id = true) (hclaim : e.claimToken.isSome = true) {tokenHash : String}
    {now : UInt64} {commentUrl : Option String} {attempt : Uuid} {c : CompletionRecord}
    {r : HistoryRecord}
    (hc : c = completionRecord e tokenHash now commentUrl attempt fs.historyBytes.length)
    (hr : r = .succeeded attempt e tokenHash now commentUrl) :
    (Op.completeClaim e tokenHash now commentUrl attempt).Leaves J fs { fs with
      completion := some c.toVec
      history := some (fs.historyBytes ++ appendedBytes r fs.historyBytes) } := by
  have hlog : logTrace J c r { fs with completion := some c.toVec } =
      appendTrace r fs.historyBytes := by
    have hnew := (Pending.start J r.attemptId fs.historyBytes).contains
    rw [hc]
    exact if_neg (by rw [Bool.not_eq_true]; exact hnew)
  refine ⟨.writeAtomic .completion c.toVec :: appendTrace r fs.historyBytes, ?_, ?_⟩
  · rw [Op.exec, trace_map, h.completeClaim_run hv (Or.inl hclaim) tokenHash now commentUrl
      attempt hc hr]
    refine .step _ ?_
    unfold finishTrace
    rw [hlog, List.append_assoc, List.append_assoc]
    exact cut_append.2 (Or.inr ⟨[], (List.append_nil _).symm, .stop _⟩)
  · rw [run_cons]
    exact (run_appendTrace r { fs with completion := some c.toVec }).symm

/-- Recovery finds the attempt in the log and only removes the entry. -/
theorem Clean.recovers_appended {J : SerdeJson} {fs : QueueFs} (h : Clean J fs)
    {c : CompletionRecord} {r : HistoryRecord} (hj : fs.completion = some c.toVec)
    (hv : isValidId c.id = true) (hr : c.history = some r)
    (hcontains : containsAttempt J fs.historyBytes r.attemptId (c.historyOffset.getD 0) = true)
    (htakes : takesEntry J fs c = true) (fresh : String → Uuid) :
    Succeeds (recoverWorkerState J fresh) fs fun _ fs' =>
      fs'.historyBytes = fs.historyBytes ∧ ∀ x ∈ queued J fs', x.id ≠ c.id := by
  have hrec : Performs J (fun _ => True) (reconcileCompletion J) fs anything :=
    performs_reconcileCompletion fun _ _ _ _ => trivial
  refine succeeds_bind (h.after hrec (h.succeeds_reconcileCompletion hj hv hr)) ?_
  rintro _ _ ⟨h₁, rfl⟩
  refine (h₁.succeeds_reclaimClaims fresh).mono ?_
  rintro _ fs' ⟨-, hfs', hmem⟩
  constructor
  · rw [hfs']
    exact congrArg (Option.getD · []) (if_pos hcontains)
  · intro x hx
    obtain ⟨y, hy, rfl⟩ := (hmem x).1 hx
    have hq : queued J (finishedFs J c r fs) = queued J (fs.remove (.entry c.id)) :=
      queued_congr (if_pos htakes)
    rw [hq] at hy
    exact (mem_queued_remove.1 hy).2

theorem Clean.resolveAwait_first {J : SerdeJson} {fs : QueueFs} (h : Clean J fs) {e : StoredEntry}
    (he : e ∈ queued J fs) (cooldown now : UInt64) :
    ∃ eta, resolveAwait J fs e.id none cooldown now =
      .ok (.pending eta ⟨fs.historyBytes.length, e.incarnation⟩) :=
  h.resolveAwait_pending he rfl cooldown now

/-- The completion of a queued claim fails right after the append, and the worker's next run
recovers: the entry is still queued in between and then gone, and the log stays as it is. -/
theorem World.Owned.half_posted {J : SerdeJson} {w : World} (howned : w.Owned J) {e : StoredEntry}
    (hheld : w.phase = .up (.holding e)) (he : e ∈ queued J w.fs) {tokenHash : String}
    {now : UInt64} {commentUrl : Option String} {attempt : Uuid} (hfresh : attempt.text ∉ w.used)
    {r : HistoryRecord} (hr : r = .succeeded attempt e tokenHash now commentUrl)
    (hfits : r.FitsLine) (fresh : String → Uuid) :
    ∃ w₁ w₂, Step J w (.complete tokenHash now commentUrl attempt) w₁ ∧
      Step J w₁ (.recover fresh) w₂ ∧ w₁.phase = .up .stopped ∧ e ∈ queued J w₁.fs ∧
      w₁.fs.historyBytes = w.fs.historyBytes ++ appendedBytes r w.fs.historyBytes ∧
      w₂.fs.historyBytes = w₁.fs.historyBytes ∧ ∀ x ∈ queued J w₂.fs, x.id ≠ e.id := by
  obtain ⟨hv, token, htoken, -⟩ := howned.held hheld
  have hcall : Calls w.phase (.complete tokenHash now commentUrl attempt)
      (.completeClaim e tokenHash now commentUrl attempt) := by
    rw [hheld]
    exact .complete _ _ _ _ _
  obtain ⟨c, hc⟩ : ∃ c, c = completionRecord e tokenHash now commentUrl attempt
      w.fs.historyBytes.length := ⟨_, rfl⟩
  have hleaves := howned.clean.leaves_appended hv (by rw [htoken]; rfl) hc hr
  have hcontains := ((Pending.start J r.attemptId w.fs.historyBytes).appended hfits).contains
  obtain ⟨fs₁, hleaves, hqueue, hjournal, hlog⟩ : ∃ fs₁ : QueueFs,
      (Op.completeClaim e tokenHash now commentUrl attempt).Leaves J w.fs fs₁ ∧
      queued J fs₁ = queued J w.fs ∧ fs₁.completion = some c.toVec ∧
      fs₁.historyBytes = w.fs.historyBytes ++ appendedBytes r w.fs.historyBytes :=
    ⟨_, hleaves, rfl, rfl, rfl⟩
  have hclean := howned.clean.leaves (howned.sound hcall) hleaves
  have hstep : Step J w (.complete tokenHash now commentUrl attempt)
      ⟨fs₁, .up .stopped, attempt.text :: w.used⟩ := by
    refine .failed hcall (fun u hu => ?_) hleaves
    rw [List.mem_singleton.1 hu]
    exact hfresh
  have he₁ : e ∈ queued J fs₁ := hqueue ▸ he
  have htakes : takesEntry J fs₁ c = true :=
    takesEntry_iff.2 ⟨e, he₁, hc ▸ rfl, fun _ ht => by rw [hc] at ht; exact ht⟩
  have hpost : c.history = some r := by
    rw [hc, hr]
    rfl
  obtain ⟨u, hok, hsame, hgone⟩ := (hclean.recovers_appended hjournal (hc ▸ hv) hpost
    (by rw [hlog, hc]; exact hcontains) htakes fresh).final
  have hdone : ((Op.recoverWorkerState fresh).exec J fs₁).outcome = .ok .done := by
    rw [Op.exec, outcome_map, hok]
    rfl
  have hfinal : final ((Op.recoverWorkerState fresh).exec J) fs₁ =
      final (recoverWorkerState J fresh) fs₁ := by
    rw [Op.exec, final_map]
  rw [← hfinal] at hsame hgone
  refine ⟨_, _, hstep, .returned (.recover fresh) (fun u hu => by cases hu) hdone, rfl,
    he₁, hlog, hsame, fun x hx => ?_⟩
  have hid : c.id = e.id := by rw [hc]; rfl
  rw [← hid]
  exact hgone x hx

/-- A client deletes a queued entry, whatever the worker does. -/
theorem step_del {J : SerdeJson} {w : World} {worker : Worker} (hup : w.phase = .up worker)
    {e : StoredEntry} (he : e ∈ queued J w.fs) :
    ∃ w', Step J w (.listen (.del e.id)) w' ∧ ∀ x ∈ queued J w'.fs, x.id ≠ e.id := by
  have hrun := del_run (find_ok_iff.2 ⟨he, rfl⟩)
  have hok : ((Op.del e.id).exec J w.fs).outcome = .ok .done := by
    rw [Op.exec, outcome_map, hrun]
    rfl
  have hfinal : final ((Op.del e.id).exec J) w.fs = (w.fs.write
      (AwaitDeletionRecord.toVec ⟨e.incarnation⟩) (.awaitDeletion e.id)).remove (.entry e.id) := by
    rw [Op.exec, final_map]
    unfold final
    rw [hrun]
    rfl
  refine ⟨_, .returned (hup ▸ .listen rfl) (fun u hu => by cases hu) hok, fun x hx => ?_⟩
  rw [hfinal] at hx
  exact (mem_queued_remove.1 hx).2

/-- An action that neither completes a claim nor touches the log from outside. -/
def Action.plain : Action → Bool
  | .complete .. | .tamper _ => false
  | _ => true

theorem orderly_of_plain {w : World} {a : Action} (h : a.plain = true) : Orderly w a := by
  cases a with
  | complete | tamper => cases h
  | _ => exact ⟨by simp, by simp⟩

/-- A worker that has just claimed the only entry of the queue. -/
def sampleAwaited : World :=
  World.start.after serdeJson (fun _ a => a.plain = true) (sampleBoot ++
    [.listen (.put sampleRequest ⟨900, 0, true⟩ 1000 (sampleUuid 1)),
      .claim 900 1000 (sampleUuid 2)])

theorem sampleAwaited_run : Run serdeJson Orderly World.start sampleAwaited :=
  (World.run_after serdeJson _ _ _).mono fun _ _ h => orderly_of_plain h

theorem sampleAwaited_eq : sampleAwaited.phase = .up (.holding sampleClaim) ∧
    (sampleUuid 3).text ∉ sampleAwaited.used ∧ sampleClaim ∈ queued serdeJson sampleAwaited.fs ∧
    sampleAwaited.fs.historyBytes = [] := by
  decide +kernel

theorem sampleAwaited_fits :
    (HistoryRecord.succeeded (sampleUuid 3) sampleClaim "hash" 1010 none).FitsLine := by
  decide +kernel

/-- The steps of a run in which a completion of the sample claim fails and is recovered. -/
theorem sampleAwaited_permits {w : World} {m : Nat} {i : String}
    (hw : w.phase = .up (.holding sampleClaim) ∨ w.phase = .up .stopped) :
    (Orderly w (.complete "hash" 1010 none (sampleUuid 3)) ∧
      Spares serdeJson m "4e881b86" i w (.complete "hash" 1010 none (sampleUuid 3))) ∧
    (Orderly w (.recover fun _ => sampleUuid 0) ∧
      Spares serdeJson m "4e881b86" i w (.recover fun _ => sampleUuid 0)) := by
  refine ⟨⟨⟨by simp, ?_⟩, by simp [Spares]⟩, orderly_of_plain rfl, by simp [Spares]⟩
  intro held tokenHash now commentUrl attempt hphase ha
  obtain ⟨rfl, rfl, rfl, rfl⟩ := Action.complete.inj ha
  rcases hw with hw | hw
  · obtain rfl : sampleClaim = held := by
      rw [hw] at hphase
      exact Worker.holding.inj (Phase.up.inj hphase)
    exact sampleAwaited_fits
  · rw [hw] at hphase
    cases hphase

/-- The completion of the sample claim fails right after the append and is recovered. -/
theorem sampleAwaited_half :
    ∃ w₀ w₁ w₂, Run serdeJson Orderly World.start w₀ ∧ w₀.phase = .up (.holding sampleClaim) ∧
      w₀.Owned serdeJson ∧ sampleClaim ∈ queued serdeJson w₀.fs ∧ w₀.fs.historyBytes = [] ∧
      Step serdeJson w₀ (.complete "hash" 1010 none (sampleUuid 3)) w₁ ∧
      Step serdeJson w₁ (.recover fun _ => sampleUuid 0) w₂ ∧ w₁.phase = .up .stopped ∧
      sampleClaim ∈ queued serdeJson w₁.fs ∧
      w₁.fs.historyBytes = w₀.fs.historyBytes ++
        appendedBytes (.succeeded (sampleUuid 3) sampleClaim "hash" 1010 none) w₀.fs.historyBytes ∧
      w₂.fs.historyBytes = w₁.fs.historyBytes ∧
      ∀ x ∈ queued serdeJson w₂.fs, x.id ≠ "4e881b86" := by
  have howned : sampleAwaited.Owned serdeJson :=
    World.Reachable.owned (sampleAwaited_run.mono fun _ _ _ => trivial)
  obtain ⟨hphase, hused, hqueued, hlog⟩ := sampleAwaited_eq
  obtain ⟨w₁, w₂, h⟩ :=
    howned.half_posted hphase hqueued hused rfl sampleAwaited_fits fun _ => sampleUuid 0
  exact ⟨_, w₁, w₂, sampleAwaited_run, hphase, howned, hqueued, hlog, h⟩

/-- A wait that begins before that completion. It learns of the post when the worker recovers, and
also when a client deletes the entry between the append and the recovery. -/
theorem await_posted_sample :
    ∃ w₀ recovered deleted c, Run serdeJson Orderly World.start w₀ ∧
      (∃ w₁, Step serdeJson w₁ (.listen (.del "4e881b86")) deleted) ∧
      ∀ w, w = recovered ∨ w = deleted →
        Run serdeJson (fun w a => Orderly w a ∧
          Spares serdeJson c.offset "4e881b86" c.incarnation w a) w₀ w ∧
        ∃ r ∈ recordsIn serdeJson (w.fs.historyBytes.drop c.offset), r.incarnation = c.incarnation ∧
          resolveAwait serdeJson w.fs "4e881b86" (some c) 900 2000 =
            .ok (.posted r.commentUrl r.postedAt) := by
  obtain ⟨w₀, w₁, w₂, hrun₀, hphase₀, howned₀, he, hlog, hstep₁, hstep₂, hphase, he₁,
      hlog₁, -, hgone⟩ :=
    sampleAwaited_half
  obtain ⟨eta, hpending⟩ := howned₀.clean.resolveAwait_first he 900 1000
  have hclear : ∀ r ∈ recordsIn serdeJson w₀.fs.historyBytes, r.success = true →
      r.incarnation ≠ sampleClaim.incarnation := by
    rw [hlog, recordsIn_nil]
    intro r hr
    cases hr
  have hrun₁ : Run serdeJson (fun w a => Orderly w a ∧ Spares serdeJson w₀.fs.historyBytes.length
      "4e881b86" sampleClaim.incarnation w a) w₀ w₁ :=
    .step .refl (sampleAwaited_permits (Or.inl hphase₀)).1 hstep₁
  obtain ⟨w₃, hstep₃, hgone₃⟩ := step_del hphase he₁
  -- the deletion comes when the record is in the log
  have hposted : HoldsPost serdeJson (w₁.fs.historyBytes.drop w₀.fs.historyBytes.length) "4e881b86"
      sampleClaim.incarnation := by
    refine ⟨.succeeded (sampleUuid 3) sampleClaim "hash" 1010 none, ?_, rfl, rfl, rfl⟩
    rw [hlog₁, recordsIn_appendedBytes sampleAwaited_fits (Nat.le_refl _)]
    exact List.mem_append_right _ (List.mem_singleton.2 rfl)
  refine ⟨w₀, w₂, w₃, ⟨w₀.fs.historyBytes.length, sampleClaim.incarnation⟩, hrun₀, ⟨w₁, hstep₃⟩,
    fun w hw => ?_⟩
  have hrun : Run serdeJson (fun w a => Orderly w a ∧ Spares serdeJson w₀.fs.historyBytes.length
      "4e881b86" sampleClaim.incarnation w a) w₀ w ∧
      ∀ x ∈ queued serdeJson w.fs, x.id ≠ "4e881b86" := by
    rcases hw with rfl | rfl
    · exact ⟨hrun₁.step (sampleAwaited_permits (Or.inr hphase)).2 hstep₂, hgone⟩
    · exact ⟨hrun₁.step ⟨orderly_of_plain rfl, Or.inl hposted⟩ hstep₃, hgone₃⟩
  obtain ⟨r, hr, -, -, hi, hanswer⟩ := await_posted_after_recovery hrun₀ hpending hclear hrun.1
    (fun x hx hid => absurd hid (hrun.2 x hx)) 900 2000
  exact ⟨hrun.1, r, hr, hi, hanswer⟩

/-- A wait that begins between the append and the removal of the entry misses the post for good,
although nothing is deleted. -/
theorem await_missed_after_append :
    ∃ w₀ w c eta, Run serdeJson Orderly World.start w₀ ∧
      resolveAwait serdeJson w₀.fs "4e881b86" none 900 1010 = .ok (.pending eta c) ∧
      Run serdeJson (fun w a => Orderly w a ∧ ∀ id, a ≠ .listen (.del id)) w₀ w ∧
      (∀ e ∈ queued serdeJson w.fs, e.id ≠ "4e881b86") ∧
      (∃ r ∈ recordsIn serdeJson w.fs.historyBytes, r.success = true ∧ r.id = "4e881b86" ∧
        r.incarnation = c.incarnation) ∧
      resolveAwait serdeJson w.fs "4e881b86" (some c) 900 2000 = .ok .unknown := by
  obtain ⟨w₀, w₁, w₂, hrun₀, hphase₀, howned₀, -, -, hstep₁, hstep₂, hphase, he, hlog,
      hsame, hgone⟩ :=
    sampleAwaited_half
  have hrun₁ : Run serdeJson Orderly World.start w₁ :=
    hrun₀.step (@sampleAwaited_permits _ 0 "" (Or.inl hphase₀)).1.1 hstep₁
  have howned₁ := howned₀.step hstep₁
  obtain ⟨eta, hpending⟩ := howned₁.clean.resolveAwait_first he 900 1010
  refine ⟨w₁, w₂, ⟨w₁.fs.historyBytes.length, sampleClaim.incarnation⟩, eta, hrun₁, hpending,
    .step .refl ⟨orderly_of_plain rfl, by simp⟩ hstep₂, hgone,
    ⟨.succeeded (sampleUuid 3) sampleClaim "hash" 1010 none, ?_, rfl, rfl, rfl⟩, ?_⟩
  · have hall := @recordsIn_appendedBytes serdeJson _ sampleAwaited_fits w₀.fs.historyBytes 0
      (Nat.zero_le _)
    rw [List.drop_zero, List.drop_zero] at hall
    rw [hsame, hlog, hall]
    exact List.mem_append_right _ (List.mem_singleton.2 rfl)
  · -- behind the cursor there is nothing
    have hs : ∀ e ∈ queued serdeJson w₂.fs, e.id = "4e881b86" →
        cursorSelects (some ⟨w₁.fs.historyBytes.length, sampleClaim.incarnation⟩) e = false :=
      fun e he hid => absurd hid (hgone e he)
    rw [(howned₁.step hstep₂).clean.resolveAwait_ended (by decide +kernel) hs,
      resolveAwaitCompletion_eq]
    change Except.ok (Waiter.newest _ _ _ _) = _
    unfold Waiter.newest
    rw [latestCompletion_eq]
    unfold completionsIn cursorOffset
    rw [hsame, List.drop_length, recordsIn_nil]
    rfl

end Comenq
