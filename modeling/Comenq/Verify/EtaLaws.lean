import Comenq.Lib.Chain
import Comenq.Store.Changes

/-!
# How estimated waits respond to time and to queue edits

`projectedSchedule` chains one posting time for each entry through the queue. A step of that chain
is monotone in the time before it and never goes back, so an edit that puts an entry behind an
earlier time cannot make it later. As the clock advances by some seconds, no posting time moves
back and none moves by more than those seconds.
-/

namespace Comenq

open Saturating Chain

/-- The waits of an ordered queue, one for each entry. -/
def etas (cooldown now : UInt64) (es : List StoredEntry) (previous : Option UInt64) :
    List UInt64 :=
  (projectedSchedule cooldown now es previous).map Prod.snd

/-- The absolute posting time a wait stands for. -/
def projectedTime (now eta : UInt64) : UInt64 := add now eta

/-- Entries that differ only in what no posting time reads, such as the order key. -/
def StoredEntry.SameTiming (e e' : StoredEntry) : Prop :=
  e'.flutterSeconds = e.flutterSeconds ∧ e'.notBefore = e.notBefore

section Times

variable {cooldown now : UInt64}

/-! ## One step of the projection -/

/-- One anchor is not later than another; no anchor is before every other. -/
def NoLater (p q : Option UInt64) : Prop := ∀ a ∈ p, ∃ b ∈ q, a ≤ b

@[simp] theorem noLater_some {a b : UInt64} : NoLater (some a) (some b) ↔ a ≤ b := by
  simp [NoLater]

theorem toNat_postAt_none (e : StoredEntry) :
    (postAt cooldown now none e).toNat = max e.notBefore.toNat now.toNat := by
  simp only [postAt, dueAfter, toNat_maxU]
  omega

theorem toNat_postAt_some (t : UInt64) (e : StoredEntry) :
    (postAt cooldown now (some t) e).toNat =
      max (max (add (add t cooldown) e.flutterSeconds).toNat e.notBefore.toNat) now.toNat := by
  simp only [postAt, dueAfter, toNat_maxU]

/-- A posting time is not before the clock. -/
theorem now_le_postAt (previous : Option UInt64) (e : StoredEntry) :
    now ≤ postAt cooldown now previous e := by
  rw [UInt64.le_iff_toNat_le, postAt, toNat_maxU]
  omega

theorem postAt_sameTiming {e e' : StoredEntry} (h : e.SameTiming e') (previous : Option UInt64) :
    postAt cooldown now previous e' = postAt cooldown now previous e := by
  unfold postAt
  cases previous with
  | none => simp [dueAfter, h.2]
  | some t => simp [dueAfter, h.1, h.2]

/-- A later anchor makes no posting time earlier. -/
theorem postAt_mono {p q : Option UInt64} (e : StoredEntry) (h : NoLater p q) :
    postAt cooldown now p e ≤ postAt cooldown now q e := by
  rw [UInt64.le_iff_toNat_le]
  cases p with
  | none =>
    rw [toNat_postAt_none]
    cases q with
    | none => rw [toNat_postAt_none]
    | some t =>
      rw [toNat_postAt_some]
      omega
  | some a =>
    obtain ⟨b, hb, hab⟩ := h a rfl
    obtain rfl : q = some b := hb
    rw [UInt64.le_iff_toNat_le] at hab
    simp only [toNat_postAt_some, toNat_add]
    omega

/-- A posting time is not before the anchor it was computed from. -/
theorem noLater_postAt (p : Option UInt64) (e : StoredEntry) :
    NoLater p (some (postAt cooldown now p e)) := by
  intro t ht
  obtain rfl : p = some t := ht
  refine ⟨_, rfl, ?_⟩
  rw [UInt64.le_iff_toNat_le, toNat_postAt_some, toNat_add, toNat_add]
  have := toNat_le_max t
  omega

theorem advances_postAt (cooldown now : UInt64) : Advances (postAt cooldown now) NoLater where
  refl p a ha := ⟨a, ha, UInt64.le_refl a⟩
  trans p q r hpq hqr a ha := by
    obtain ⟨b, hb, hab⟩ := hpq a ha
    obtain ⟨c, hc, hbc⟩ := hqr b hb
    exact ⟨c, hc, UInt64.le_trans hab hbc⟩
  mono p q e h := noLater_some.2 (postAt_mono e h)
  forward p e := noLater_postAt p e

/-! ## The waits as a chain -/

theorem etas_eq (es : List StoredEntry) (previous : Option UInt64) :
    etas cooldown now es previous =
      (chain (postAt cooldown now) es previous).map fun time => sub time now := by
  unfold etas
  induction es generalizing previous with
  | nil => rfl
  | cons e es ih => simp [projectedSchedule, chain, ih]

theorem sub_mono {a b : UInt64} (h : a ≤ b) : sub a now ≤ sub b now := by
  rw [UInt64.le_iff_toNat_le] at h ⊢
  simp only [toNat_sub]
  omega

theorem projectedTime_sub {time : UInt64} (h : now ≤ time) :
    projectedTime now (sub time now) = time := by
  apply UInt64.toNat_inj.1
  rw [UInt64.le_iff_toNat_le] at h
  have := toNat_le_max time
  simp only [projectedTime, toNat_add, toNat_sub]
  omega

/-- The wait of the entry that stands behind `as`. -/
theorem getElem?_etas_append (as : List StoredEntry) (e : StoredEntry) (bs : List StoredEntry)
    (previous : Option UInt64) :
    (etas cooldown now (as ++ e :: bs) previous)[as.length]? =
      some (sub (postAt cooldown now (before (postAt cooldown now) as previous) e) now) := by
  rw [etas_eq, chain_append, List.getElem?_map, List.getElem?_append_right (by simp)]
  simp [chain]

theorem forall₂_etas {ts us : List UInt64}
    (h : List.Forall₂ (fun t u => NoLater (some t) (some u)) ts us) :
    List.Forall₂ (· ≤ ·) (ts.map fun t => sub t now) (us.map fun u => sub u now) := by
  rw [List.forall₂_map_left_iff, List.forall₂_map_right_iff]
  exact h.imp fun t u htu => sub_mono (noLater_some.1 htu)

/-! ## Queue edits -/

theorem etas_append (es : List StoredEntry) (e : StoredEntry) (previous : Option UInt64) :
    ∃ eta, etas cooldown now (es ++ [e]) previous = etas cooldown now es previous ++ [eta] := by
  refine ⟨sub (postAt cooldown now (before (postAt cooldown now) es previous) e) now, ?_⟩
  rw [etas_eq, etas_eq, chain_append, List.map_append]
  rfl

theorem etas_remove (as : List StoredEntry) (e : StoredEntry) (bs : List StoredEntry)
    (previous : Option UInt64) :
    List.Forall₂ (· ≤ ·) (etas cooldown now (as ++ bs) previous)
      ((etas cooldown now (as ++ e :: bs) previous).eraseIdx as.length) := by
  rw [etas_eq, etas_eq, List.eraseIdx_map]
  exact forall₂_etas ((advances_postAt cooldown now).chain_remove as e bs previous)

theorem etas_front (as : List StoredEntry) {e e' : StoredEntry} (bs : List StoredEntry)
    (h : e.SameTiming e') (previous : Option UInt64) :
    ∃ old new, (etas cooldown now (as ++ e :: bs) previous)[as.length]? = some old ∧
      (etas cooldown now (e' :: (as ++ bs)) previous)[0]? = some new ∧ new ≤ old := by
  refine ⟨_, _, getElem?_etas_append as e bs previous, getElem?_etas_append [] e' (as ++ bs) _, ?_⟩
  rw [postAt_sameTiming h]
  exact sub_mono (postAt_mono e ((advances_postAt cooldown now).le_before as previous))

theorem etas_back (as : List StoredEntry) {e e' : StoredEntry} (bs : List StoredEntry)
    (h : e.SameTiming e') (previous : Option UInt64) :
    ∃ old new, (etas cooldown now (as ++ e :: bs) previous)[as.length]? = some old ∧
      (etas cooldown now (as ++ bs ++ [e']) previous)[(as ++ bs).length]? = some new ∧
        old ≤ new := by
  refine ⟨_, _, getElem?_etas_append as e bs previous, getElem?_etas_append (as ++ bs) e' [] _, ?_⟩
  rw [postAt_sameTiming h, before_append]
  exact sub_mono (postAt_mono e ((advances_postAt cooldown now).le_before bs _))

/-! ## Order and lower bounds -/

theorem pairwise_etas (es : List StoredEntry) (previous : Option UInt64) :
    (etas cooldown now es previous).Pairwise (· ≤ ·) := by
  rw [etas_eq, List.pairwise_map]
  exact ((advances_postAt cooldown now).pairwise es previous).imp
    fun h => sub_mono (noLater_some.1 h)

/-- The time an entry's cooldown runs from: the posting time of the entry before it, or the
previous activity for the head. -/
def anchorAt (cooldown now : UInt64) (es : List StoredEntry) (previous : Option UInt64) :
    Nat → Option UInt64
  | 0 => previous
  | i + 1 => ((etas cooldown now es previous)[i]?).map (projectedTime now)

/-- Each posting time comes from its entry and its anchor. -/
theorem projectedTime_etas {es : List StoredEntry} {previous : Option UInt64} {i : Nat}
    {e : StoredEntry} (he : es[i]? = some e) :
    ∃ eta, (etas cooldown now es previous)[i]? = some eta ∧
      projectedTime now eta = postAt cooldown now (anchorAt cooldown now es previous i) e := by
  suffices h : (chain (postAt cooldown now) es previous)[i]? =
      some (postAt cooldown now (anchorAt cooldown now es previous i) e) by
    refine ⟨_, by rw [etas_eq, List.getElem?_map, h]; rfl, ?_⟩
    exact projectedTime_sub (now_le_postAt _ e)
  induction i generalizing e with
  | zero =>
    cases es with
    | nil => simp at he
    | cons head es =>
      obtain rfl : head = e := by simpa using he
      rfl
  | succ i ih =>
    obtain ⟨hi, -⟩ := List.getElem?_eq_some_iff.1 he
    have hprior := ih (List.getElem?_eq_getElem (Nat.lt_of_succ_lt hi))
    rw [getElem?_chain_succ he hprior]
    have hanchor : anchorAt cooldown now es previous (i + 1) =
        some (postAt cooldown now (anchorAt cooldown now es previous i) es[i]) := by
      rw [anchorAt, etas_eq, List.getElem?_map, hprior]
      simp [projectedTime_sub (now_le_postAt _ _)]
    rw [hanchor]

theorem etas_floor {es : List StoredEntry} {previous : Option UInt64} {i : Nat}
    {e : StoredEntry} (he : es[i]? = some e) :
    ∃ eta, (etas cooldown now es previous)[i]? = some eta ∧
      e.notBefore ≤ projectedTime now eta ∧
      ∀ t ∈ anchorAt cooldown now es previous i,
        add (add t cooldown) e.flutterSeconds ≤ projectedTime now eta := by
  obtain ⟨eta, heta, htime⟩ := @projectedTime_etas cooldown now es previous i e he
  refine ⟨eta, heta, ?_, fun t ht => ?_⟩
  · rw [htime, UInt64.le_iff_toNat_le, postAt, toNat_maxU, toNat_maxU]
    omega
  · have hanchor : anchorAt cooldown now es previous i = some t := ht
    rw [htime, hanchor, UInt64.le_iff_toNat_le, toNat_postAt_some]
    omega

/-! ## The clock -/

/-- Anchors at two clock readings: the later one does not move back, and moves at most as far as
the clock did. -/
def Delayed (now now' : UInt64) : Option UInt64 → Option UInt64 → Prop
  | none, none => True
  | some t', some t => t ≤ t' ∧ t'.toNat + now.toNat ≤ t.toNat + now'.toNat
  | _, _ => False

theorem delayed_postAt {now' : UInt64} (hnow : now ≤ now') (p' p : Option UInt64)
    (e : StoredEntry) (h : Delayed now now' p' p) :
    Delayed now now' (some (postAt cooldown now' p' e)) (some (postAt cooldown now p e)) := by
  rw [UInt64.le_iff_toNat_le] at hnow
  simp only [Delayed, UInt64.le_iff_toNat_le]
  match p', p, h with
  | none, none, _ =>
    simp only [toNat_postAt_none]
    omega
  | some t', some t, ⟨hle, hshift⟩ =>
    rw [UInt64.le_iff_toNat_le] at hle
    simp only [toNat_postAt_some, toNat_add]
    omega

theorem etas_clock {now' : UInt64} (hnow : now ≤ now') (es : List StoredEntry)
    (previous : Option UInt64) :
    List.Forall₂ (fun eta' eta => eta' ≤ eta ∧ projectedTime now eta ≤ projectedTime now' eta')
      (etas cooldown now' es previous) (etas cooldown now es previous) := by
  have hstart : Delayed now now' previous previous := by
    cases previous with
    | none => trivial
    | some t =>
      rw [UInt64.le_iff_toNat_le] at hnow
      exact ⟨UInt64.le_refl t, by omega⟩
  rw [etas_eq, etas_eq, List.forall₂_map_left_iff, List.forall₂_map_right_iff]
  apply (chain_rel (delayed_postAt hnow) es hstart).imp
  rintro t' t ⟨hle, hshift⟩
  rw [UInt64.le_iff_toNat_le] at hnow hle
  simp only [UInt64.le_iff_toNat_le, projectedTime, toNat_add, toNat_sub]
  omega

end Times

/-- The waits respond monotonically to appending, removing and moving entries and to the clock;
they are in order, and no posting time comes before its floor or inside a cooldown. -/
theorem eta_laws (cooldown now : UInt64) (previous : Option UInt64) :
    (∀ es, (projectedSchedule cooldown now es previous).map Prod.fst = es) ∧
    (∀ es e, ∃ eta,
      etas cooldown now (es ++ [e]) previous = etas cooldown now es previous ++ [eta]) ∧
    (∀ as e bs, List.Forall₂ (· ≤ ·) (etas cooldown now (as ++ bs) previous)
      ((etas cooldown now (as ++ e :: bs) previous).eraseIdx as.length)) ∧
    (∀ as e e' bs, e.SameTiming e' → ∃ old new,
      (etas cooldown now (as ++ e :: bs) previous)[as.length]? = some old ∧
      (etas cooldown now (e' :: (as ++ bs)) previous)[0]? = some new ∧ new ≤ old) ∧
    (∀ as e e' bs, e.SameTiming e' →
      List.Forall₂ (· ≤ ·) (etas cooldown now (as ++ bs ++ [e']) previous).dropLast
        ((etas cooldown now (as ++ e :: bs) previous).eraseIdx as.length) ∧
      ∃ old new, (etas cooldown now (as ++ e :: bs) previous)[as.length]? = some old ∧
        (etas cooldown now (as ++ bs ++ [e']) previous)[(as ++ bs).length]? = some new ∧
        old ≤ new) ∧
    (∀ es, (etas cooldown now es previous).Pairwise (· ≤ ·)) ∧
    (∀ es i e, es[i]? = some e → ∃ eta, (etas cooldown now es previous)[i]? = some eta ∧
      e.notBefore ≤ projectedTime now eta ∧
      ∀ t ∈ anchorAt cooldown now es previous i,
        add (add t cooldown) e.flutterSeconds ≤ projectedTime now eta) ∧
    ∀ now', now ≤ now' → ∀ es, List.Forall₂
      (fun eta' eta => eta' ≤ eta ∧ projectedTime now eta ≤ projectedTime now' eta')
      (etas cooldown now' es previous) (etas cooldown now es previous) := by
  refine ⟨fun es => map_fst_projectedSchedule .., fun es e => etas_append es e previous,
    fun as e bs => etas_remove as e bs previous, fun as e e' bs h => etas_front as bs h previous,
    fun as e e' bs h => ⟨?_, etas_back as bs h previous⟩, fun es => pairwise_etas es previous,
    fun es i e he => etas_floor he, fun now' hnow es => etas_clock hnow es previous⟩
  obtain ⟨eta, heta⟩ := @etas_append cooldown now (as ++ bs) e' previous
  rw [heta, List.dropLast_concat]
  exact etas_remove as e bs previous

end Comenq
