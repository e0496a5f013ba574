import Comenq.Verify.Ownership

/-!
# Interrupted openings

Opening a store without a journal clears the claims of its entries and the deletion markers of
queued identifiers, one file at a time. `Settling J g fs` says that `fs` is `g` after any part of
this; the next opening that runs to its end leaves what opening `g` would have left.
-/

namespace Comenq

open Traced CrashTrace

section Settling

variable {J : SerdeJson} {g fs : QueueFs}

/-! ## Opening without a journal -/

/-- `fs` is `g` after any part of the clearing of claims and markers that opening does. -/
structure Settling (J : SerdeJson) (g fs : QueueFs) : Prop where
  clean : Clean J fs
  queue : ∀ x, (∃ e ∈ queued J fs, x = e.unclaimed) ↔ ∃ e ∈ queued J g, x = e.unclaimed
  markers : ∀ id, id ∉ (queued J g).map StoredEntry.id →
    fs.awaitDeletions.lookup id = g.awaitDeletions.lookup id
  lastPost : fs.lastPost = g.lastPost
  lastAttempt : fs.lastAttempt = g.lastAttempt
  completion : fs.completion = g.completion
  history : fs.history = g.history

/-- The changes opening makes once no journal is left. -/
def settlingKinds : Kind → Prop
  | .unclaim _ | .tidy _ | .sync => True
  | _ => False

namespace Settling

theorem refl (h : Clean J g) : Settling J g g :=
  ⟨h, fun _ => Iff.rfl, fun _ _ => rfl, rfl, rfl, rfl, rfl⟩

theorem ids (h : Settling J g fs) (id : String) :
    id ∈ (queued J fs).map StoredEntry.id ↔ id ∈ (queued J g).map StoredEntry.id := by
  simp only [List.mem_map]
  constructor
  · rintro ⟨e, he, rfl⟩
    obtain ⟨e', he', hx⟩ := (h.queue e.unclaimed).1 ⟨e, he, rfl⟩
    exact ⟨e', he', (congrArg StoredEntry.id hx).symm⟩
  · rintro ⟨e, he, rfl⟩
    obtain ⟨e', he', hx⟩ := (h.queue e.unclaimed).2 ⟨e, he, rfl⟩
    exact ⟨e', he', (congrArg StoredEntry.id hx).symm⟩

/-- Clearing a claim, in a clean directory, changes nothing else of the entry. -/
theorem unclaimed_eq (h : Clean J fs) {e e' : StoredEntry} {id : String} (he : e ∈ queued J fs)
    (hu : e.Updates e') (hk : (Kind.unclaim id).Rewrites e e') : e' = e.unclaimed := by
  obtain ⟨-, hclaim, horder⟩ := hk
  have hinc := h.incarnation_eq he hu
  have hcore := hu.core
  unfold StoredEntry.core at hcore
  unfold StoredEntry.unclaimed
  cases e
  cases e'
  simp_all

theorem step {k : Kind} {ev : FsEvent} (h : Settling J g fs) (hk : settlingKinds k)
    (hc : Change J fs k ev) : Settling J g (fs.step ev) := by
  have hclean := h.clean.step hc
  cases hc with
  | @update _ e e' he hu hr hs =>
    obtain ⟨id, rfl⟩ : ∃ id, k = .unclaim id := by
      cases k <;> first | exact ⟨_, rfl⟩ | exact (hk : False).elim | exact (hr : False).elim
    obtain rfl := unclaimed_eq h.clean he hu hr
    refine ⟨hclean, fun x => ?_, h.markers, h.lastPost, h.lastAttempt, h.completion, h.history⟩
    rw [← h.queue]
    have hv : isValidId e.unclaimed.id = true := isValidId_of_mem (e := e) he
    have hmem := fun y => @mem_queued_write J fs e.unclaimed y hv hs
    constructor
    · rintro ⟨y, hy, rfl⟩
      rcases (hmem y).1 hy with rfl | ⟨hy, -⟩
      · exact ⟨e, he, rfl⟩
      · exact ⟨y, hy, rfl⟩
    · rintro ⟨y, hy, rfl⟩
      by_cases hid : y.id = e.id
      · obtain rfl := eq_of_mem_queued hy he hid
        exact ⟨y.unclaimed, (hmem _).2 (Or.inl rfl), rfl⟩
      · exact ⟨y, (hmem y).2 (Or.inr ⟨hy, hid⟩), rfl⟩
  | @tidy e he =>
    refine ⟨hclean, h.queue, fun id hid => ?_, h.lastPost, h.lastAttempt, h.completion, h.history⟩
    have hne : id ≠ e.id := by
      rintro rfl
      exact hid ((h.ids _).1 (List.mem_map.2 ⟨e, he, rfl⟩))
    change AList.lookup id (fs.awaitDeletions.erase e.id) = _
    rw [AList.lookup_erase_ne hne]
    exact h.markers id hid
  | sync d => exact ⟨hclean, h.queue, h.markers, h.lastPost, h.lastAttempt, h.completion, h.history⟩
  | _ => cases hk

/-- No part of the clearing appends to the log, so nothing of it can be torn. -/
theorem along {t : List FsEvent} (h : Settling J g fs)
    (ha : Along QueueFs.step (Permitted J settlingKinds) fs t) :
    Throughout QueueFs.step Tears (Settling J g) fs t := by
  refine ha.throughout ?_ ?_ h
  · rintro s ev hs ⟨k, hk, hc⟩
    exact hs.step hk hc
  · rintro s ev ev' hs ⟨k, hk, hc⟩ ht
    cases ht
    cases hc
    cases hk

theorem opened {fs' : QueueFs} (h : Settling J g fs) (ho : Opened J fs fs') : Opened J g fs' where
  queue := by intro x; rw [ho.queue, h.queue]
  markers := by
    intro id
    rw [ho.markers]
    simp only [h.ids]
    split
    · rfl
    · next hid => exact h.markers id hid
  lastPost := ho.lastPost.trans h.lastPost
  lastAttempt := ho.lastAttempt.trans h.lastAttempt
  completion := ho.completion.trans h.completion
  history := ho.history.trans h.history

/-- Opening that is cut off leaves a directory on the way. -/
theorem interrupted {fs' : QueueFs} {fresh : String → Uuid} (h : Settling J g fs)
    (hg : g.completion = none) (hi : Interrupted Tears (openStore J fresh) fs fs') :
    Settling J g fs' := by
  obtain ⟨p, hp, rfl⟩ := hi
  have hnone : fs.completion = none := h.completion.trans hg
  have hopen : Performs J settlingKinds (openStore J fresh) fs anything := by
    refine performs_openStore (fun c hc => ?_) (fun _ => trivial) (fun _ => trivial) trivial
    unfold pendingCompletion at hc
    rw [hnone] at hc
    cases hc
  exact h.along hopen.along p hp

end Settling

end Settling

end Comenq
