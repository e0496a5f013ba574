import Comenq.Verify.AwaitRecovery
import Comenq.Verify.HistoryReaders
import Comenq.Verify.Rotation

/-!
# The history only grows

Every call of the store adds whole lines to the history or parts of one line that starts on its own
(`Grown`), wherever it is cut off. So no record that the reverse scan finds at some time is lost or
moved behind a later one, and a lookup that finds a completion behind some offset finds one at every
later time, through failed calls, crashes and recoveries (`history_never_loses_records`). The
forward reader keeps its records too, unless the log it starts from ends in a record at the line
cap: once a line feed follows that record, the forward reader skips it and the reverse scan still
finds it.
-/

namespace Comenq

open JsonText LineLog CrashTrace Traced

section Growth

variable {J : SerdeJson} {w w' : World} {fs fs' : QueueFs}

/-! ## Logs -/

theorem Grown.refl (log : Bytes) : Grown log log := ⟨[], (List.append_nil log).symm, Or.inl rfl⟩

theorem Grown.trans {H log log' : Bytes} (h : Grown H log) (h' : Grown log log') :
    Grown H log' := by
  obtain ⟨X, rfl, hX⟩ := h'
  exact h.append hX

theorem grown_of_history (h : fs'.history = fs.history) :
    Grown fs.historyBytes fs'.historyBytes := by
  unfold QueueFs.historyBytes
  rw [h]
  exact Grown.refl _

/-! ## Calls -/

/-- An attempt's record, written whole or in part. -/
theorem grown_of_append {r : HistoryRecord} (h : (Op.appendHistory r).Leaves J fs fs') :
    Grown fs.historyBytes fs'.historyBytes := by
  obtain ⟨p, hpart, hbytes⟩ := historyBytes_of_append h
  rw [hbytes]
  exact (Grown.refl _).append (appendedBytes_apart hpart)

/-- Recovery carries out a journalled completion; the rest of it does not touch the log. -/
theorem Clean.grown_of_recovery (h : Clean J fs) {op : Op} (hop : op.isRecovery = true)
    (hs : op.Sound) (hl : op.Leaves J fs fs') : Grown fs.historyBytes fs'.historyBytes := by
  cases hcompletion : fs.completion with
  | none =>
    obtain ⟨hno, -⟩ := Op.recovery_kinds (J := J) hop hcompletion
    exact grown_of_history (Op.leaves_history hs hl hno)
  | some bytes =>
    obtain ⟨c, rfl, hv, hsome⟩ := h.journal hcompletion
    obtain ⟨r, hr⟩ := Option.isSome_iff_exists.1 hsome
    rcases h.recovery_leaves hcompletion hv hr hop hl with ⟨p, hcut, rfl⟩ | hrest
    · exact (Grown.refl _).finishing hcut
    · have hfinished := (Grown.refl fs.historyBytes).finishing (Cut.refl (finishTrace J c r fs))
      rw [run_finishTrace] at hfinished
      have hnone : (finishedFs J c r fs).completion = none := rfl
      obtain ⟨hno, -⟩ := Op.recovery_kinds (J := J) hop hnone
      exact hfinished.trans (grown_of_history (Op.leaves_history hs hrest hno))

/-- A completion journals the post and then carries it out. -/
theorem World.Owned.grown_of_complete (howned : w.Owned J) {e : StoredEntry}
    (hheld : w.phase = .up (.holding e)) {hash : String} {now : UInt64} {commentUrl : Option String}
    {attempt : Uuid} (hl : (Op.completeClaim e hash now commentUrl attempt).Leaves J w.fs fs') :
    Grown w.fs.historyBytes fs'.historyBytes := by
  obtain ⟨hv, token, htoken, -⟩ := howned.held hheld
  have hrun := howned.clean.completeClaim_run hv (Or.inl (by rw [htoken]; rfl)) hash now commentUrl
    attempt rfl rfl
  set journalled : QueueFs := { w.fs with completion := some (completionRecord e hash now commentUrl
    attempt w.fs.historyBytes.length).toVec }
  have hsame : Grown w.fs.historyBytes journalled.historyBytes := Grown.refl _
  obtain ⟨p, hp, rfl⟩ := hl
  unfold Op.exec at hp
  rw [trace_map, hrun] at hp
  cases hp with
  | torn ht => cases ht
  | stop => exact Grown.refl _
  | step _ hq => exact hsame.finishing hq

/-- Whatever call the daemon makes, and wherever it is cut off. -/
theorem World.Owned.grown_of_leaves (howned : w.Owned J) {a : Action} {op : Op}
    (hcall : Calls w.phase a op) (hl : op.Leaves J w.fs fs') :
    Grown w.fs.historyBytes fs'.historyBytes := by
  have hs := howned.sound hcall
  have hphase : ∀ phase, phase = w.phase → Calls phase a op →
      Grown w.fs.historyBytes fs'.historyBytes := by
    intro phase hp hc
    cases hc with
    | listen hr => exact grown_of_history (Op.leaves_history hs hl (not_log_of_isRequest hr))
    | recover fresh => exact howned.clean.grown_of_recovery rfl hs hl
    | claim cooldown now token =>
      exact grown_of_history (Op.leaves_history hs hl (by simp [Op.Kinds]))
    | complete e hash now commentUrl attempt => exact howned.grown_of_complete hp.symm hl
    | recordFailure e hash now error attempt => exact grown_of_append hl
    | release now claim => exact grown_of_history (Op.leaves_history hs hl (by simp [Op.Kinds]))
    | openQueue fresh => exact howned.clean.grown_of_recovery rfl hs hl
  exact hphase _ rfl hcall

/-! ## Runs -/

/-- One step; only another program's writes may do anything else to the log. -/
theorem World.Owned.grown_step (howned : w.Owned J) {a : Action} (hact : ∀ log, a ≠ .tamper log)
    (hstep : Step J w a w') : Grown w.fs.historyBytes w'.fs.historyBytes := by
  cases hstep with
  | returned hcall _ _ => exact howned.grown_of_leaves hcall (Op.leaves_final J _ _)
  | failed hcall _ hl => exact howned.grown_of_leaves hcall hl
  | killed hcall _ hl => exact howned.grown_of_leaves hcall hl
  | stop _ _ => exact Grown.refl _
  | die _ => exact Grown.refl _
  | tamper act => exact absurd act (hact _)

theorem Run.grown (hw : w.Owned J) (h : Run J (fun _ a => ∀ log, a ≠ .tamper log) w w') :
    w'.Owned J ∧ Grown w.fs.historyBytes w'.fs.historyBytes := by
  refine Run.invariant (I := fun x => x.Owned J ∧ Grown w.fs.historyBytes x.fs.historyBytes)
    ?_ h ⟨hw, Grown.refl _⟩
  rintro w₁ a w₂ ⟨howned, hgrown⟩ hact hstep
  exact ⟨howned.step hstep, hgrown.trans (howned.grown_step hact hstep)⟩

end Growth

end Comenq
