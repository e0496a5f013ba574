import Comenq.Store.Codec
import Comenq.Verify.Ownership

/-!
# Lifetimes of comments

A comment is identified by its id and its incarnation. Along every run of the daemon it stays queued
with its data until a deletion of its id runs while it is queued or a completion that carries its
claim runs (`Spared`); an incarnation that has left the queue stays away (`Gone`); and a call only
touches the file it concerns (`Op.Concerns`), which for the worker's own calls is a file that still
carries the worker's claim.
-/

namespace Comenq

open Traced CrashTrace

/-- The same lifetime of the same comment; only its position and its claim may differ. -/
structure SameComment (e e' : StoredEntry) : Prop where
  id : e'.id = e.id
  incarnation : e'.incarnation = e.incarnation
  request : e'.request = e.request
  flutterSeconds : e'.flutterSeconds = e.flutterSeconds
  enqueuedAt : e'.enqueuedAt = e.enqueuedAt
  notBefore : e'.notBefore = e.notBefore

theorem SameComment.refl (e : StoredEntry) : SameComment e e := ⟨rfl, rfl, rfl, rfl, rfl, rfl⟩

theorem SameComment.updates {J : SerdeJson} {fs : QueueFs} {e₀ e e' : StoredEntry}
    (h : SameComment e₀ e) (hc : Clean J fs) (he : e ∈ queued J fs) (hu : e.Updates e') :
    SameComment e₀ e' where
  id := hu.id_eq.trans h.id
  incarnation := (hc.incarnation_eq he hu).trans h.incarnation
  request := (congrArg StoredEntry.request hu.core).trans h.request
  flutterSeconds := (congrArg StoredEntry.flutterSeconds hu.core).trans h.flutterSeconds
  enqueuedAt := (congrArg StoredEntry.enqueuedAt hu.core).trans h.enqueuedAt
  notBefore := (congrArg StoredEntry.notBefore hu.core).trans h.notBefore

/-- An action that may end a lifetime: a deletion of the id while the lifetime is queued, or a
completion that carries the claim of the queued lifetime. -/
def Ends (J : SerdeJson) (id incarnation : String) (w : World) (a : Action) : Prop :=
  ∃ e ∈ queued J w.fs, e.id = id ∧ e.incarnation = incarnation ∧
    (a = .listen (.del id) ∨
      ∃ held tokenHash now commentUrl attempt, w.phase = .up (.holding held) ∧
        a = .complete tokenHash now commentUrl attempt ∧ e.claimToken = held.claimToken)

section Survival

variable {J : SerdeJson} {fs : QueueFs} {x₀ : StoredEntry}

/-! ## A lifetime survives -/

/-- The comment is queued, and carries none of the claims `T`. -/
def Spared (J : SerdeJson) (T : String → Prop) (x₀ : StoredEntry) (fs : QueueFs) : Prop :=
  ∃ x ∈ queued J fs, SameComment x₀ x ∧ ∀ token, T token → x.claimToken ≠ some token

theorem Spared.step {T : String → Prop} {k : Kind} {ev : FsEvent} (h : Spared J T x₀ fs)
    (hc : Clean J fs) (hch : Change J fs k ev) (hdrop : k ≠ .drop x₀.id)
    (htake : ∀ c, k = .take c → ∃ token, c.claimToken = some token ∧ T token)
    (hclaim : ∀ id token, k = .claim id token → ¬ T token) : Spared J T x₀ (fs.step ev) := by
  obtain ⟨x, hx, hsame, hT⟩ := h
  rcases hch.keeps hx with hx' | ⟨x', hx', hu, hr⟩ | hd | ⟨c, hk, -, hcarries⟩
  · exact ⟨x, hx', hsame, hT⟩
  · refine ⟨x', hx', hsame.updates hc hx hu, fun token ht => ?_⟩
    rcases hr.claimToken with he | hn | ⟨new, hk, he⟩
    · rw [he]; exact hT token ht
    · rw [hn]; simp
    · rw [he]
      intro heq
      exact hclaim _ new hk (Option.some.inj heq ▸ ht)
  · rw [hsame.id] at hd
    exact absurd hd hdrop
  · obtain ⟨token, ht, hT'⟩ := htake c hk
    exact absurd (hcarries token ht) (hT token hT')

/-- The claim of the completion in the journal. -/
def Journalled (fs : QueueFs) (token : String) : Prop :=
  ∃ c : CompletionRecord, fs.completion = some c.toVec ∧ c.claimToken = some token

theorem Clean.completion_of_pending (h : Clean J fs) {c : CompletionRecord}
    (hp : pendingCompletion J fs = some c) : fs.completion = some c.toVec := by
  unfold pendingCompletion at hp
  obtain ⟨bytes, hb, hc⟩ := Option.bind_eq_some_iff.1 hp
  obtain ⟨c', rfl, -, -⟩ := h.journal hb
  rw [J.completion_toVec] at hc
  rw [hb, Option.some.inj hc]

/-- Entries are taken by the completion of the held claim and by the journalled completion. -/
theorem Calls.of_take {phase : Phase} {a : Action} {op : Op} {c : CompletionRecord}
    (h : Calls phase a op) (hk : op.Kinds J fs (.take c)) :
    pendingCompletion J fs = some c ∨
      ∃ held tokenHash now commentUrl attempt, phase = .up (.holding held) ∧
        a = .complete tokenHash now commentUrl attempt ∧ c.claimToken = held.claimToken := by
  cases h with
  | listen hr => cases op <;> simp [Op.isRequest, Op.Kinds] at hr hk
  | complete e tokenHash now commentUrl attempt =>
    rcases hk with hk | hk
    · cases hk
    · obtain rfl : c = _ := hk
      exact Or.inr ⟨e, tokenHash, now, commentUrl, attempt, rfl, rfl, rfl⟩
  | recover | openQueue =>
    simp only [Op.Kinds, finishing, reduceCtorEq, exists_false, or_false] at hk
    obtain ⟨c', hp, rfl⟩ := hk
    exact Or.inl hp
  | claim | recordFailure | release => simp [Op.Kinds] at hk

/-- Only a deletion drops an entry. -/
theorem Calls.of_drop {phase : Phase} {a : Action} {op : Op} {id : String}
    (h : Calls phase a op) (hk : op.Kinds J fs (.drop id)) : a = .listen (.del id) := by
  cases h with
  | listen hr =>
    cases op with
    | del name =>
      simp only [Op.Kinds, reduceCtorEq, Kind.drop.injEq, false_or] at hk
      rw [hk]
    | _ => simp [Op.isRequest, Op.Kinds] at hr hk
  | complete | recover | openQueue | claim | recordFailure | release =>
    simp [Op.Kinds, finishing] at hk

/-- A call that does not end the lifetime spares it, wherever it is cut off. -/
theorem World.Owned.spared_leaves {w : World} (howned : w.Owned J) {a : Action} {op : Op}
    {fs' : QueueFs} (hc : Calls w.phase a op) (hf : ∀ u ∈ op.draws, u ∉ w.used)
    (hl : op.Leaves J w.fs fs') (h : Spared J (Journalled w.fs) x₀ w.fs)
    (hends : ¬ Ends J x₀.id x₀.incarnation w a) : Spared J (Journalled fs') x₀ fs' := by
  have hclean := howned.clean
  have hsound := howned.sound hc
  -- the claims under completion: the journalled one, and the one this call completes
  let T : String → Prop := fun token => Journalled w.fs token ∨
    ∃ c, op.Kinds J w.fs (.take c) ∧ c.claimToken = some token
  have hjused : ∀ token, Journalled w.fs token → token ∈ w.used := by
    rintro token ⟨c, hj, ht⟩
    obtain ⟨token', r, ht', -, ho⟩ := howned.journal hj
    obtain rfl := Option.some.inj (ht'.symm.trans ht)
    exact ho.used
  have hcarried : ∀ c, op.Kinds J w.fs (.take c) → ∃ token ∈ w.used, c.claimToken = some token := by
    intro c hk
    rcases hc.of_take hk with hp | ⟨held, _, _, _, _, hphase, -, hclaim⟩
    · obtain ⟨token, r, ht, -, ho⟩ := howned.journal (hclean.completion_of_pending hp)
      exact ⟨token, ho.used, ht⟩
    · obtain ⟨-, token, ht, ho⟩ := howned.held hphase
      exact ⟨token, ho.used, hclaim.trans ht⟩
  have hstart : Spared J T x₀ w.fs := by
    obtain ⟨x, hx, hsame, hj⟩ := h
    refine ⟨x, hx, hsame, fun token ht hx' => ?_⟩
    rcases ht with ht | ⟨c, hk, ht⟩
    · exact hj token ht hx'
    · rcases hc.of_take hk with hp | ⟨held, tokenHash, now, commentUrl, attempt, hphase, ha, hclaim⟩
      · exact hj token ⟨c, hclean.completion_of_pending hp, ht⟩ hx'
      · exact hends ⟨x, hx, hsame.id, hsame.incarnation, Or.inr ⟨held, tokenHash, now, commentUrl,
          attempt, hphase, ha, hx'.trans (ht.symm.trans hclaim)⟩⟩
  have hdrop : ¬ op.Kinds J w.fs (.drop x₀.id) := by
    intro hk
    obtain ⟨x, hx, hsame, -⟩ := h
    exact hends ⟨x, hx, hsame.id, hsame.incarnation, Or.inl (hc.of_drop hk)⟩
  have hend : Spared J T x₀ fs' := by
    refine Op.leaves_invariant hclean hsound hl hstart ?_ fun g bytes hi => hi
    intro g k ev hg hi hk hch
    refine hi.step hg hch (fun hd => hdrop (hd ▸ hk)) ?_ ?_
    · rintro c rfl
      obtain ⟨token, -, ht⟩ := hcarried c hk
      exact ⟨token, ht, Or.inr ⟨c, hk, ht⟩⟩
    · rintro id token rfl ht
      have hfresh := hf token (Op.kinds_draws hk token (List.mem_singleton.2 rfl))
      rcases ht with ht | ⟨c, hkc, ht⟩
      · exact hfresh (hjused token ht)
      · obtain ⟨token', hu, ht'⟩ := hcarried c hkc
        exact hfresh (Option.some.inj (ht.symm.trans ht') ▸ hu)
  obtain ⟨x, hx, hsame, hT⟩ := hend
  refine ⟨x, hx, hsame, ?_⟩
  rintro token ⟨c, hj, ht⟩
  refine hT token ?_
  rcases Op.leaves_completion hclean hsound hl with he | ⟨-, hn⟩ | ⟨c', hk, he⟩
  · exact Or.inl ⟨c, he ▸ hj, ht⟩
  · rw [hn] at hj; cases hj
  · obtain rfl := CompletionRecord.toVec_injective (Option.some.inj (he.symm.trans hj))
    obtain ⟨e, tokenHash, now, commentUrl, attempt, -, rfl⟩ := hc.of_journal hk
    rcases hk with hk | hk
    · exact Or.inr ⟨c', Or.inr (Kind.journal.inj hk), ht⟩
    · cases hk

theorem World.Owned.spared_step {w w' : World} (howned : w.Owned J) {a : Action}
    (hs : Step J w a w') (h : Spared J (Journalled w.fs) x₀ w.fs)
    (hends : ¬ Ends J x₀.id x₀.incarnation w a) : Spared J (Journalled w'.fs) x₀ w'.fs := by
  cases hs with
  | returned hc hf _ => exact howned.spared_leaves hc hf (Op.leaves_final J _ _) h hends
  | failed hc hf hl => exact howned.spared_leaves hc hf hl h hends
  | killed hc hf hl => exact howned.spared_leaves hc hf hl h hends
  | stop | die | tamper => exact h

/-- The lifetime a `put` has just enrolled carries no claim. -/
theorem World.Owned.spared_put {w w' : World} (howned : w.Owned J) {request : CommentRequest}
    {options : PutOptions} {now : UInt64} {incarnation : Uuid}
    (hs : Step J w (.listen (.put request options now incarnation)) w') {e : StoredEntry}
    (he : e ∈ queued J w'.fs) (hi : e.incarnation = incarnation.text) :
    Spared J (Journalled w'.fs) e w'.fs := by
  have hput : ∀ op fs', Calls w.phase (.listen (.put request options now incarnation)) op →
      (∀ u ∈ op.draws, u ∉ w.used) → op.Leaves J w.fs fs' →
      ∀ x ∈ queued J fs', x.incarnation = incarnation.text → x.claimToken = none := by
    intro op fs' hc hf hl
    obtain rfl : op = .put request options now incarnation := by
      generalize w.phase = phase at hc
      cases hc
      rfl
    refine Op.leaves_invariant (I := fun g => ∀ x ∈ queued J g, x.incarnation = incarnation.text →
      x.claimToken = none) howned.clean (howned.sound hc) hl ?_ ?_ ?_
    · intro x hx hxi
      exact absurd (howned.drawn.incarnation hx) (hxi ▸ hf _ (List.mem_singleton.2 rfl))
    · intro g k ev _ hi hk hch x hx hxi
      obtain ⟨id, rfl⟩ := hk
      rcases hch.mem_queued hx with hx | ⟨-, hn⟩ | ⟨y, -, -, hr⟩
      · exact hi x hx hxi
      · exact hn
      · exact (hr : False).elim
    · exact fun g bytes hi => hi
  have hnone : e.claimToken = none := by
    cases hs with
    | returned hc hf _ => exact hput _ _ hc hf (Op.leaves_final J _ _) e he hi
    | failed hc hf hl => exact hput _ _ hc hf hl e he hi
    | killed hc hf hl => exact hput _ _ hc hf hl e he hi
    | stop act => cases act
    | die act => cases act
    | tamper act => cases act
  refine ⟨e, he, .refl e, fun token _ => ?_⟩
  rw [hnone]
  simp

/-! ## A lifetime that has ended stays ended -/

/-- The incarnation was drawn and is not queued. -/
structure Gone (J : SerdeJson) (incarnation : String) (w : World) : Prop where
  used : incarnation ∈ w.used
  absent : ∀ x ∈ queued J w.fs, x.incarnation ≠ incarnation

theorem World.Owned.gone_step {w w' : World} {incarnation : String}
    (howned : w.Owned J) {a : Action} (hs : Step J w a w') (h : Gone J incarnation w) :
    Gone J incarnation w' := by
  have hcall : ∀ op fs', Calls w.phase a op → (∀ u ∈ op.draws, u ∉ w.used) →
      op.Leaves J w.fs fs' → ∀ x ∈ queued J fs', x.incarnation ≠ incarnation := by
    intro op fs' hc hf hl
    refine Op.leaves_invariant (I := fun g => ∀ x ∈ queued J g, x.incarnation ≠ incarnation)
      howned.clean (howned.sound hc) hl h.absent ?_ ?_
    · intro g k ev hg hi hk hch x hx
      rcases hch.mem_queued hx with hx | ⟨rfl, -⟩ | ⟨e, he, hu, -⟩
      · exact hi x hx
      · -- a new lifetime is a fresh UUID
        intro hxi
        exact hf _ (Op.kinds_draws hk _ (List.mem_singleton.2 rfl)) (hxi ▸ h.used)
      · rw [hg.incarnation_eq he hu]
        exact hi e he
    · exact fun g bytes hi => hi
  cases hs with
  | returned hc hf _ =>
    exact ⟨List.mem_append_right _ h.used, hcall _ _ hc hf (Op.leaves_final J _ _)⟩
  | failed hc hf hl => exact ⟨List.mem_append_right _ h.used, hcall _ _ hc hf hl⟩
  | killed hc hf hl => exact ⟨List.mem_append_right _ h.used, hcall _ _ hc hf hl⟩
  | stop | die | tamper => exact ⟨h.used, h.absent⟩

end Survival

section Frame

variable {J : SerdeJson} {fs : QueueFs}

/-! ## The files a call touches -/

/-- The name under which a change writes or removes an entry file. -/
def Kind.Touches : Kind → String → Prop
  | .enroll id _, name | .reorder id, name | .claim id _, name | .unclaim id, name
  | .drop id, name => name = id
  | .take c, name => name = c.id
  | _, _ => False

theorem Change.lookup_eq {k : Kind} {ev : FsEvent} (h : Change J fs k ev) (name : String) :
    (fs.step ev).entries.lookup name = fs.entries.lookup name ∨ k.Touches name := by
  have hwrite : ∀ (bytes : Bytes) (id : String), name ≠ id →
      (fs.write bytes (.entry id)).entries.lookup name = fs.entries.lookup name := by
    intro bytes id hne
    change AList.lookup name (fs.entries.insert id (.file bytes)) = _
    exact AList.lookup_insert_ne hne
  have hremove : ∀ id : String, name ≠ id →
      (fs.remove (.entry id)).entries.lookup name = fs.entries.lookup name := by
    intro id hne
    change AList.lookup name (fs.entries.erase id) = _
    exact AList.lookup_erase_ne hne
  cases h with
  | @enroll e =>
    by_cases hne : name = e.id
    · exact Or.inr hne
    · exact Or.inl (hwrite _ _ hne)
  | @update _ e e' he hu hk _ =>
    by_cases hne : name = e'.id
    · right
      rw [hne, hu.id_eq]
      cases k with
      | reorder | claim | unclaim => exact hk.1
      | _ => exact (hk : False).elim
    · exact Or.inl (hwrite _ _ hne)
  | @drop e =>
    by_cases hne : name = e.id
    · exact Or.inr hne
    · exact Or.inl (hremove _ hne)
  | @take c e he hid _ =>
    by_cases hne : name = e.id
    · exact Or.inr (hne.trans hid)
    · exact Or.inl (hremove _ hne)
  | _ => exact Or.inl rfl

theorem Change.free_of_enroll {k : Kind} {ev : FsEvent} {id incarnation : String}
    (h : Change J fs k ev) (hk : k = .enroll id incarnation) : fs.entries.lookup id = none := by
  cases h with
  | enroll _ hfree =>
    obtain ⟨rfl, -⟩ := Kind.enroll.inj hk
    exact hfree
  | update _ _ hr _ =>
    rw [hk] at hr
    exact (hr : False).elim
  | _ => cases hk

theorem mem_queued_of_lookup {fs' : QueueFs} {x : StoredEntry} (hx : x ∈ queued J fs')
    (h : fs'.entries.lookup x.id = fs.entries.lookup x.id) : x ∈ queued J fs := by
  obtain ⟨hv, bytes, hl, hr⟩ := mem_queued.1 hx
  exact mem_queued.2 ⟨hv, bytes, h ▸ hl, hr⟩

/-- The entry files a call may write or remove. Only recovery touches more than one. -/
def Op.Concerns (J : SerdeJson) (fs : QueueFs) : Op → String → Prop
  | .put .., name => fs.entries.lookup name = none
  | .bump id, name | .bust id, name | .del id, name => name = id
  | .claimNextDue cooldown now _, name =>
    ∃ e wait, nextDue J cooldown now fs = .ok (some (e, wait)) ∧ name = e.id
  | .releaseClaim id token _, name =>
    name = id ∧ ∃ e ∈ queued J fs, e.id = id ∧ e.claimToken = some token
  | .completeClaim entry .., name =>
    name = entry.id ∧ ∃ e ∈ queued J fs, e.id = entry.id ∧
      ∀ token ∈ entry.claimToken, e.claimToken = some token
  | .recoverWorkerState _, _ | .reopen _, _ => True
  | .appendHistory _, _ => False

/-- Every change of a call is to a file the call concerns. -/
theorem Op.concerns_of_touches {op : Op} {g : QueueFs} {k : Kind} {ev : FsEvent} {name : String}
    (hk : op.Kinds J fs k) (hch : Change J g k ev) (ht : k.Touches name)
    (hsame : g.entries.lookup name = fs.entries.lookup name)
    (hrelease : ∀ id token time, op = .releaseClaim id token time →
      ∃ e ∈ queued J fs, e.id = id ∧ e.claimToken = some token) : op.Concerns J fs name := by
  cases op with
  | put =>
    obtain ⟨id, rfl⟩ := hk
    obtain rfl : name = id := ht
    exact hsame.symm.trans (hch.free_of_enroll rfl)
  | bump id | bust id =>
    obtain rfl : k = .reorder id := hk
    exact ht
  | del id =>
    rcases hk with rfl | rfl
    · exact ht.elim
    · exact ht
  | claimNextDue =>
    obtain ⟨e, wait, hd, rfl⟩ := hk
    exact ⟨e, wait, hd, ht⟩
  | releaseClaim id token time =>
    rcases hk with rfl | rfl
    · exact ht.elim
    · exact ⟨ht, hrelease id token time rfl⟩
  | completeClaim entry =>
    rcases hk with rfl | hk
    · exact ht.elim
    · cases k with
      | take c =>
        obtain rfl : c = _ := hk
        obtain rfl : name = entry.id := ht
        cases hch with
        | update he hu hr hs => exact (hr : False).elim
        | @take _ e he hid hclaim =>
          have hid : e.id = entry.id := hid
          exact ⟨rfl, e, mem_queued_of_lookup he (hid ▸ hsame), hid, hclaim⟩
      | _ => first | exact ht.elim | exact (hk : False).elim
  | recoverWorkerState | reopen => trivial
  | appendHistory =>
    rcases hk with rfl | rfl
    · exact ht.elim
    · exact ht.elim

/-- A call leaves alone the entry files it does not concern, wherever it is cut off. -/
theorem Op.Leaves.lookup_eq {op : Op} {fs' : QueueFs} (hl : op.Leaves J fs fs') (hc : Clean J fs)
    (hs : op.Sound) {name : String} (hn : ¬ op.Concerns J fs name) :
    fs'.entries.lookup name = fs.entries.lookup name := by
  by_cases hstale : ∀ id token time, op = .releaseClaim id token time →
      ∃ e ∈ queued J fs, e.id = id ∧ e.claimToken = some token
  · refine Op.leaves_invariant (I := fun g => g.entries.lookup name = fs.entries.lookup name)
      hc hs hl rfl ?_ ?_
    · intro g k ev hg hi hk hch
      rcases hch.lookup_eq name with he | ht
      · exact he.trans hi
      · exact absurd (Op.concerns_of_touches hk hch ht hi hstale) hn
    · exact fun g bytes hi => hi
  · -- a release of a claim that is no longer carried does nothing
    simp only [not_forall] at hstale
    obtain ⟨id, token, time, rfl, hnone⟩ := hstale
    have htrace : ((Op.releaseClaim id token time).exec J fs).trace = [] := by
      change ((_ <$> Comenq.releaseClaim J id token time : Store Reply) fs).trace = []
      rw [run_map]
      refine releaseClaim_stale (fun e hf ht => hnone ?_) time
      obtain ⟨he, hid⟩ := find_ok_iff.1 hf
      exact ⟨e, he, hid, ht⟩
    obtain ⟨p, hp, rfl⟩ := hl
    rw [htrace] at hp
    rw [cut_nil.1 hp]
    rfl

/-- The calls a worker makes for its claim leave every other lifetime alone, also one that has
taken over the id of the claimed entry. -/
theorem World.Owned.replacement {w : World} (howned : w.Owned J) {held : StoredEntry}
    (hheld : w.phase = .up (.holding held)) {a : Action} {op : Op} (hc : Calls w.phase a op)
    (hr : op.isRequest = false) {fs' : QueueFs} (hl : op.Leaves J w.fs fs') {x : StoredEntry}
    (hx : x ∈ queued J w.fs) (hi : x.incarnation ≠ held.incarnation) :
    fs'.entries.lookup x.id = w.fs.entries.lookup x.id := by
  refine hl.lookup_eq howned.clean (howned.sound hc) fun hcon => hi ?_
  obtain ⟨-, token, htoken, ho⟩ := howned.held hheld
  -- whatever still carries the claim is the lifetime it was handed out for
  have hown : ∀ e ∈ queued J w.fs, e.id = x.id → e.claimToken = some token →
      x.incarnation = held.incarnation := by
    intro e he hid ht
    obtain rfl := eq_of_mem_queued he hx hid
    exact (ho.bound e he ht).2
  rw [hheld] at hc
  cases hc with
  | listen hreq => rw [hreq] at hr; cases hr
  | recordFailure => exact (hcon : False).elim
  | complete =>
    obtain ⟨hid, e, he, hid', ht⟩ := hcon
    exact hown e he (hid'.trans hid.symm) (ht token htoken)
  | @release _ token' now ht =>
    obtain ⟨hid, e, he, hid', ht'⟩ := hcon
    obtain rfl := Option.some.inj (ht.symm.trans htoken)
    exact hown e he (hid'.trans hid.symm) ht'

end Frame

/-! ## No comment is lost, altered or brought back -/

/-- What `put` answers is queued. -/
theorem mem_of_put {J : SerdeJson} {fs : QueueFs} {request : CommentRequest}
    {options : PutOptions} {now : UInt64} {incarnation : Uuid} {e : StoredEntry} {eta : UInt64}
    (hok : (putWithEta J request options now incarnation fs).outcome = .ok (e, eta)) :
    e ∈ queued J (final (putWithEta J request options now incarnation) fs) := by
  unfold final
  rcases @put_cases J fs request options now incarnation with
    ⟨htrace, hold⟩ | ⟨id, eta', henroll, -, hrun⟩
  · rw [htrace]
    exact (hold e eta hok).1
  · rw [hrun] at hok ⊢
    obtain ⟨rfl, -⟩ := Prod.mk.inj (Outcome.ok.inj hok)
    exact (mem_queued_write henroll.valid (by have := henroll.size; omega)).2 (Or.inl rfl)

/-- **Lifetimes.** In every state of the daemon the queue can be listed and holds what a `put`
answers; a comment enrolled by a `put` stays queued with its data until an action ends its lifetime;
a lifetime that has left the queue does not come back; a call touches no other entry's file; and the
worker's calls for its claim leave alone an entry that has taken over the id. -/
theorem lifetimes_preserved {J : SerdeJson} {w : World} (hw : w.Reachable J) :
    entries J w.fs = .ok (sortEntries (queued J w.fs)) ∧
    (∀ {request options now incarnation e eta},
      (putWithEta J request options now incarnation w.fs).outcome = .ok (e, eta) →
      e ∈ queued J (final (putWithEta J request options now incarnation) w.fs)) ∧
    (∀ {request options now incarnation w₁ w₂ e},
      Step J w (.listen (.put request options now incarnation)) w₁ →
      e ∈ queued J w₁.fs → e.incarnation = incarnation.text →
      Run J (fun w a => ¬ Ends J e.id e.incarnation w a) w₁ w₂ →
      ∃ e' ∈ queued J w₂.fs, SameComment e e') ∧
    (∀ {e w₁ w₂}, e ∈ queued J w.fs → Run J (fun _ _ => True) w w₁ →
      (∀ x ∈ queued J w₁.fs, x.incarnation ≠ e.incarnation) → Run J (fun _ _ => True) w₁ w₂ →
      ∀ x ∈ queued J w₂.fs, x.incarnation ≠ e.incarnation) ∧
    (∀ {a op fs'}, Calls w.phase a op → op.Leaves J w.fs fs' →
      ∀ name, ¬ op.Concerns J w.fs name →
        fs'.entries.lookup name = w.fs.entries.lookup name) ∧
    (∀ {held a op fs' x}, w.phase = .up (.holding held) → Calls w.phase a op →
      op.isRequest = false → op.Leaves J w.fs fs' → x ∈ queued J w.fs →
      x.incarnation ≠ held.incarnation →
        fs'.entries.lookup x.id = w.fs.entries.lookup x.id) := by
  have howned := hw.owned
  refine ⟨howned.clean.entries_eq, mem_of_put, ?_, ?_, ?_, ?_⟩
  · intro request options now incarnation w₁ w₂ e hput he hi hrun
    have hstart := howned.spared_put hput he hi
    have hinv : w₂.Owned J ∧ Spared J (Journalled w₂.fs) e w₂.fs := by
      refine Run.invariant (I := fun w => w.Owned J ∧ Spared J (Journalled w.fs) e w.fs) ?_ hrun
        ⟨howned.step hput, hstart⟩
      rintro w a w' ⟨ho, hs⟩ hends hstep
      exact ⟨ho.step hstep, ho.spared_step hstep hs hends⟩
    obtain ⟨-, e', he', hsame, -⟩ := hinv
    exact ⟨e', he', hsame⟩
  · intro e w₁ w₂ he hrun habsent hrun'
    have hused : e.incarnation ∈ w₁.used := by
      refine Run.invariant (I := fun w => e.incarnation ∈ w.used) ?_ hrun
        (howned.drawn.incarnation he)
      intro w a w' hu _ hstep
      cases hstep with
      | returned | failed | killed => exact List.mem_append_right _ hu
      | stop | die | tamper => exact hu
    have hinv : w₂.Owned J ∧ Gone J e.incarnation w₂ := by
      refine Run.invariant (I := fun w => w.Owned J ∧ Gone J e.incarnation w) ?_ hrun'
        ⟨(hw.run hrun).owned, hused, habsent⟩
      rintro w a w' ⟨ho, hg⟩ _ hstep
      exact ⟨ho.step hstep, ho.gone_step hstep hg⟩
    exact hinv.2.absent
  · intro a op fs' hc hl name hn
    exact hl.lookup_eq howned.clean (howned.sound hc) hn
  · intro held a op fs' x hheld hc hr hl hx hi
    exact howned.replacement hheld hc hr hl hx hi

def sampleReady : World := World.afterStart serdeJson sampleBoot

def samplePut : Action := .listen (.put sampleRequest ⟨900, 0, true⟩ 1000 (sampleUuid 1))

def sampleStored : World := sampleReady.performed serdeJson samplePut

def sampleEntry : StoredEntry :=
  ⟨"4e881b86", (sampleUuid 1).text, 0, 0, 1000, 0, none, sampleRequest⟩

/-- Actions that end no lifetime. -/
def Action.isMild : Action → Bool
  | .listen (.del _) | .complete .. => false
  | _ => true

/-- A claim on the sample entry, a crash and a restart. -/
def sampleRestarted : World :=
  sampleStored.after serdeJson (fun _ a => a.isMild = true)
    [.claim 900 1000 (sampleUuid 2), .die, .openQueue fun _ => sampleUuid 0]

theorem lifetimes_preserved_sample :
    sampleRestarted.phase = .up .stopped ∧
      ∃ e ∈ queued serdeJson sampleRestarted.fs, SameComment sampleEntry e := by
  have hput : Step serdeJson sampleReady samplePut sampleStored :=
    World.step_performed (by decide +kernel)
  have hrun : Run serdeJson
      (fun w a => ¬ Ends serdeJson sampleEntry.id sampleEntry.incarnation w a) sampleStored
      sampleRestarted := by
    refine (World.run_after serdeJson _ _ _).mono ?_
    rintro w a hmild ⟨e, -, -, -, rfl | ⟨_, _, _, _, _, -, rfl, -⟩⟩
    · cases hmild
    · cases hmild
  refine ⟨by decide +kernel, ?_⟩
  exact (lifetimes_preserved (World.reachable_afterStart serdeJson sampleBoot)).2.2.1 hput
    (by decide +kernel) rfl hrun

end Comenq
