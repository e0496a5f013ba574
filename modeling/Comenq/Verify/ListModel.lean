import Comenq.Lib.KeyOrder
import Comenq.Store.Codec
import Comenq.Verify.Ownership

/-!
# The store as a plain list

The abstract queue is a list of identifiers with their claims, and `Op.onList` says what each call
does to it. The store keeps positions only as order keys: the head's key less one, the tail's key
plus one. As long as fewer than 2^63 calls have been made the keys are pairwise distinct and far
from the bounds of `Int64` (`KeyOrder.Ranked`), and `entries` lists the entries in the order of the
abstract list, whatever order the directory lists its files in.
-/

namespace Comenq

open Traced CrashTrace KeyOrder

/-! ## The list -/

structure Item where
  id : String
  claim : Option String
deriving DecidableEq

def StoredEntry.item (e : StoredEntry) : Item := ⟨e.id, e.claimToken⟩

@[simp] theorem StoredEntry.id_item (e : StoredEntry) : e.item.id = e.id := rfl

/-- Move an item to the front. -/
def toFront (id : String) (items : List Item) : List Item :=
  items.filter (fun i => i.id = id) ++ items.filter (fun i => i.id ≠ id)

/-- Move an item to the back. -/
def toBack (id : String) (items : List Item) : List Item :=
  items.filter (fun i => i.id ≠ id) ++ items.filter (fun i => i.id = id)

/-- What a call with this outcome does to the list. -/
def Op.onList : Op → Outcome StoreError Reply → List Item → List Item
  | .put .., .ok (.stored e _), items =>
    if e.id ∈ items.map Item.id then items else items ++ [⟨e.id, none⟩]
  | .bump id, _, items => toFront id items
  | .bust id, _, items => toBack id items
  | .del id, _, items => items.filter fun i => i.id ≠ id
  | .claimNextDue _ _ token, .ok (.due (some (e, wait))), items =>
    if wait = 0 then
      items.map fun i => if i.id = e.id then { i with claim := some token.text } else i
    else items
  | .releaseClaim id token _, _, items =>
    items.map fun i => if i.id = id ∧ i.claim = some token then { i with claim := none } else i
  | .completeClaim entry .., _, items =>
    items.filter fun i => ¬ (i.id = entry.id ∧ ∀ token ∈ entry.claimToken, i.claim = some token)
  | .recoverWorkerState _, _, items | .reopen _, _, items =>
    items.map fun i => { i with claim := none }
  | _, _, items => items

/-- The same files, listed in another order. -/
structure Relisted (fs fs' : QueueFs) : Prop where
  entries : fs'.entries.entries.Perm fs.entries.entries
  awaitDeletions : fs'.awaitDeletions.entries.Perm fs.awaitDeletions.entries
  rest : fs' = { fs with entries := fs'.entries, awaitDeletions := fs'.awaitDeletions }

/-- `n` calls from an empty directory, with what they do to the list; the directory may list its
files in a new order at any time. -/
inductive ListRun (J : SerdeJson) : Nat → QueueFs → List Item → Prop
  | start : ListRun J 0 QueueFs.empty []
  | call {n : Nat} {fs : QueueFs} {items : List Item} {op : Op} : ListRun J n fs items → op.Sound →
      ListRun J (n + 1) (final (op.exec J) fs) (op.onList (op.exec J fs).outcome items)
  | relist {n : Nat} {fs fs' : QueueFs} {items : List Item} : ListRun J n fs items →
      Relisted fs fs' → ListRun J n fs' items

/-! ## The refinement -/

/-- The integer behind an order key. -/
def StoredEntry.rank (e : StoredEntry) : ℤ := e.order.toInt

/-- The directory holds the list: `n` calls were made, so the order keys are within `n` of zero. -/
structure Refines (J : SerdeJson) (n : Nat) (fs : QueueFs) (items : List Item) : Prop where
  clean : Clean J fs
  settled : fs.completion = none
  ranked : Ranked StoredEntry.rank n (sortEntries (queued J fs))
  items : (sortEntries (queued J fs)).map StoredEntry.item = items

section Refinement

variable {J : SerdeJson} {n : Nat} {fs fs' : QueueFs} {items : List Item}

theorem key_le_of_rank_lt {a b : StoredEntry} (h : a.rank < b.rank) : a.key ≤ b.key :=
  (Prod.Lex.toLex_lt_toLex.2 (Or.inl h)).le

/-- A queue in the order of distinct keys is how the store sorts it. -/
theorem sortEntries_of_ranked {L : List StoredEntry} (hr : Ranked StoredEntry.rank n L)
    (hm : ∀ x, x ∈ L ↔ x ∈ queued J fs') : sortEntries (queued J fs') = L :=
  sortEntries_eq (nodup_queued J fs')
    (hr.perm_of_mem (List.Nodup.of_map _ (nodup_queued J fs')) hm)
    (hr.sorted.imp key_le_of_rank_lt)

theorem refines_of {L : List StoredEntry} (hc : Clean J fs') (hs : fs'.completion = none)
    (hr : Ranked StoredEntry.rank n L) (hm : ∀ x, x ∈ L ↔ x ∈ queued J fs')
    (hi : L.map StoredEntry.item = items) : Refines J n fs' items := by
  have hL := sortEntries_of_ranked hr hm
  exact ⟨hc, hs, hL ▸ hr, hL ▸ hi⟩

namespace Refines

theorem start (J : SerdeJson) : Refines J 0 QueueFs.empty [] :=
  ⟨Clean.empty J, rfl, Ranked.nil _ _, rfl⟩

theorem mono {m : Nat} (h : Refines J n fs items) (hm : n ≤ m) : Refines J m fs items :=
  ⟨h.clean, h.settled, h.ranked.mono hm, h.items⟩

/-- A call that changes neither the entries nor the journal. -/
theorem congr (h : Refines J n fs items) (hc : Clean J fs') (he : fs'.entries = fs.entries)
    (hj : fs'.completion = fs.completion) : Refines J n fs' items := by
  have hq := queued_congr (J := J) he
  exact ⟨hc, hj.trans h.settled, hq ▸ h.ranked, hq ▸ h.items⟩

theorem mem_items (h : Refines J n fs items) {i : Item} :
    i ∈ items ↔ ∃ e ∈ queued J fs, e.item = i := by
  rw [← h.items, List.mem_map]
  simp only [mem_sortEntries]

theorem mem_ids (h : Refines J n fs items) {id : String} :
    id ∈ items.map Item.id ↔ ∃ e ∈ queued J fs, e.id = id := by
  rw [← h.items, List.map_map, List.mem_map]
  simp only [mem_sortEntries]
  rfl

theorem nodup_sorted (J : SerdeJson) (fs : QueueFs) :
    ((sortEntries (queued J fs)).map StoredEntry.id).Nodup :=
  ((sortEntries_perm _).map StoredEntry.id).nodup_iff.2 (nodup_queued J fs)

/-- The list has one item for a queued entry. -/
theorem filter_id_eq (h : Refines J n fs items) {e : StoredEntry} (he : e ∈ queued J fs) :
    items.filter (fun i => i.id = e.id) = [e.item] := by
  have hone : ∀ x ∈ sortEntries (queued J fs), decide (x.id = e.id) = (x == e) := by
    intro x hx
    rw [Bool.eq_iff_iff, decide_eq_true_iff, beq_iff_eq]
    exact ⟨fun hid => eq_of_mem_queued (mem_sortEntries.1 hx) he hid, fun hxe => hxe ▸ rfl⟩
  rw [← h.items, List.filter_map]
  change ((sortEntries (queued J fs)).filter fun x => decide (x.id = e.id)).map _ = _
  rw [List.filter_congr hone, List.filter_beq,
    List.count_eq_one_of_mem (List.Nodup.of_map _ (nodup_sorted J fs)) (mem_sortEntries.2 he)]
  rfl

theorem filter_id_eq_nil (h : Refines J n fs items) {id : String}
    (hid : ∀ e ∈ queued J fs, e.id ≠ id) : items.filter (fun i => i.id = id) = [] := by
  refine List.filter_eq_nil_iff.2 fun i hi => ?_
  obtain ⟨e, he, rfl⟩ := h.mem_items.1 hi
  exact decide_eq_true_iff.not.2 (hid e he)

theorem filter_id_ne_self (h : Refines J n fs items) {id : String}
    (hid : ∀ e ∈ queued J fs, e.id ≠ id) : items.filter (fun i => i.id ≠ id) = items := by
  refine List.filter_eq_self.2 fun i hi => ?_
  obtain ⟨e, he, rfl⟩ := h.mem_items.1 hi
  exact decide_eq_true (hid e he)

theorem toFront_eq (h : Refines J n fs items) {e : StoredEntry} (he : e ∈ queued J fs) :
    toFront e.id items = e.item :: items.filter fun i => i.id ≠ e.id := by
  unfold toFront
  rw [h.filter_id_eq he]
  rfl

theorem toBack_eq (h : Refines J n fs items) {e : StoredEntry} (he : e ∈ queued J fs) :
    toBack e.id items = (items.filter fun i => i.id ≠ e.id) ++ [e.item] := by
  unfold toBack
  rw [h.filter_id_eq he]

theorem toFront_absent (h : Refines J n fs items) {id : String}
    (hid : ∀ e ∈ queued J fs, e.id ≠ id) : toFront id items = items := by
  unfold toFront
  rw [h.filter_id_eq_nil hid, h.filter_id_ne_self hid]
  rfl

theorem toBack_absent (h : Refines J n fs items) {id : String}
    (hid : ∀ e ∈ queued J fs, e.id ≠ id) : toBack id items = items := by
  unfold toBack
  rw [h.filter_id_eq_nil hid, h.filter_id_ne_self hid, List.append_nil]

/-- Removing an entry filters the list. -/
theorem remove (h : Refines J n fs items) (id : String) (hc : Clean J fs')
    (hj : fs'.completion = none) (he : fs'.entries = (fs.remove (.entry id)).entries) :
    Refines J n fs' (items.filter fun i => i.id ≠ id) := by
  refine refines_of hc hj (h.ranked.sublist (List.filter_sublist (p := fun e => e.id ≠ id))) ?_ ?_
  · intro x
    rw [queued_congr he, mem_queued_remove, List.mem_filter, mem_sortEntries]
    simp
  · rw [← h.items, List.filter_map]
    rfl

/-- Rewriting an entry without changing its order key. -/
theorem rewrite (h : Refines J n fs items) {e e' : StoredEntry} (he : e ∈ queued J fs)
    (hu : e.Updates e') (ho : e'.order = e.order) (hc : Clean J fs') (hj : fs'.completion = none)
    (hentries : fs'.entries = (fs.write e'.toVecPretty (.entry e'.id)).entries) :
    Refines J n fs' (items.map fun i => if i.id = e.id then e'.item else i) := by
  have hone : ∀ x ∈ sortEntries (queued J fs), x.id = e.id → x = e := fun x hx hid =>
    eq_of_mem_queued (mem_sortEntries.1 hx) he hid
  refine refines_of (L := (sortEntries (queued J fs)).map fun x => if x.id = e.id then e' else x)
    hc hj (h.ranked.map ?_) ?_ ?_
  · intro x hx
    split
    · next hid =>
      rw [hone x hx hid]
      exact congrArg Int64.toInt ho
    · rfl
  · intro x
    rw [queued_congr hentries, h.clean.accounted.mem_write_update he hu, List.mem_map]
    constructor
    · rintro ⟨y, hy, rfl⟩
      split
      · exact Or.inl rfl
      · next hne => exact Or.inr ⟨mem_sortEntries.1 hy, hne⟩
    · rintro (rfl | ⟨hx, hne⟩)
      · exact ⟨e, mem_sortEntries.2 he, if_pos rfl⟩
      · exact ⟨x, mem_sortEntries.2 hx, if_neg hne⟩
  · rw [← h.items, List.map_map, List.map_map]
    refine List.map_congr_left fun x _ => ?_
    simp only [Function.comp_apply]
    split
    · next hid => rw [if_pos (show x.item.id = e.id from hid)]
    · next hid => rw [if_neg (show ¬ x.item.id = e.id from hid)]

/-- The other entries keep their places. -/
theorem filter_items (h : Refines J n fs items) (id : String) :
    ((sortEntries (queued J fs)).filter fun x => x.id ≠ id).map StoredEntry.item =
      items.filter fun i => i.id ≠ id := by
  rw [← h.items, List.filter_map]
  rfl

theorem ranked_others (h : Refines J n fs items) (id : String) :
    Ranked StoredEntry.rank (n + 1) ((sortEntries (queued J fs)).filter fun x => x.id ≠ id) :=
  (h.ranked.sublist List.filter_sublist).mono (Nat.le_succ n)

/-- Rewriting an entry with an order key before all others. -/
theorem place_first (h : Refines J n fs items) {e e' : StoredEntry} (he : e ∈ queued J fs)
    (hu : e.Updates e') (hitem : e'.item = e.item)
    (hrank : ∀ x ∈ sortEntries (queued J fs), x.id ≠ e.id → e'.rank < x.rank)
    (hb : -((n + 1 : Nat) : ℤ) ≤ e'.rank ∧ e'.rank ≤ (n + 1 : Nat))
    (hc : Clean J fs') (hj : fs'.completion = none)
    (hentries : fs'.entries = (fs.write e'.toVecPretty (.entry e'.id)).entries) :
    Refines J (n + 1) fs' (toFront e.id items) := by
  refine refines_of (L := e' :: (sortEntries (queued J fs)).filter fun x => x.id ≠ e.id) hc hj
    ((h.ranked_others e.id).cons ?_ hb) ?_ ?_
  · intro x hx
    obtain ⟨hx, hne⟩ := List.mem_filter.1 hx
    exact hrank x hx (of_decide_eq_true hne)
  · intro x
    rw [queued_congr hentries, h.clean.accounted.mem_write_update he hu, List.mem_cons,
      List.mem_filter, mem_sortEntries]
    simp
  · rw [h.toFront_eq he, List.map_cons, h.filter_items, hitem]

/-- Rewriting an entry with an order key behind all others. -/
theorem place_last (h : Refines J n fs items) {e e' : StoredEntry} (he : e ∈ queued J fs)
    (hu : e.Updates e') (hitem : e'.item = e.item)
    (hrank : ∀ x ∈ sortEntries (queued J fs), x.id ≠ e.id → x.rank < e'.rank)
    (hb : -((n + 1 : Nat) : ℤ) ≤ e'.rank ∧ e'.rank ≤ (n + 1 : Nat))
    (hc : Clean J fs') (hj : fs'.completion = none)
    (hentries : fs'.entries = (fs.write e'.toVecPretty (.entry e'.id)).entries) :
    Refines J (n + 1) fs' (toBack e.id items) := by
  refine refines_of (L := ((sortEntries (queued J fs)).filter fun x => x.id ≠ e.id) ++ [e']) hc hj
    ((h.ranked_others e.id).snoc ?_ hb) ?_ ?_
  · intro x hx
    obtain ⟨hx, hne⟩ := List.mem_filter.1 hx
    exact hrank x hx (of_decide_eq_true hne)
  · intro x
    rw [queued_congr hentries, h.clean.accounted.mem_write_update he hu, List.mem_append,
      List.mem_singleton, List.mem_filter, mem_sortEntries, or_comm]
    simp
  · rw [h.toBack_eq he, List.map_append, h.filter_items, List.map_singleton, hitem]

/-- Writing a new entry with an order key behind all others. -/
theorem add_last (h : Refines J n fs items) {e : StoredEntry} (hv : isValidId e.id = true)
    (hs : e.toVecPretty.length ≤ maxEntryBytes) (hnew : ∀ x ∈ queued J fs, x.id ≠ e.id)
    (hrank : ∀ x ∈ sortEntries (queued J fs), x.rank < e.rank)
    (hb : -((n + 1 : Nat) : ℤ) ≤ e.rank ∧ e.rank ≤ (n + 1 : Nat))
    (hc : Clean J fs') (hj : fs'.completion = none)
    (hentries : fs'.entries = (fs.write e.toVecPretty (.entry e.id)).entries) :
    Refines J (n + 1) fs' (items ++ [e.item]) := by
  refine refines_of (L := sortEntries (queued J fs) ++ [e]) hc hj
    ((h.ranked.mono (Nat.le_succ n)).snoc hrank hb) ?_ ?_
  · intro x
    rw [queued_congr hentries, mem_queued_write hv hs, List.mem_append, List.mem_singleton,
      mem_sortEntries, or_comm]
    exact or_congr_right ⟨fun hx => ⟨hx, hnew x hx⟩, fun hx => hx.1⟩
  · rw [List.map_append, h.items, List.map_singleton]

end Refines

/-! ## Order keys -/

section Keys

variable {L : List StoredEntry} {e : StoredEntry}

theorem rank_headOrder (hr : Ranked StoredEntry.rank n L) (hn : n + 1 < 2 ^ 63) (he : e ∈ L)
    (hone : ∀ x ∈ L, x.id = e.id → x = e) :
    (∀ x ∈ L, x.id ≠ e.id → (headOrder e L).toInt < x.rank) ∧
      -((n + 1 : Nat) : ℤ) ≤ (headOrder e L).toInt ∧ (headOrder e L).toInt ≤ (n + 1 : Nat) := by
  cases hz : L.head? with
  | none => rw [List.head?_eq_none_iff.1 hz] at he; cases he
  | some z =>
    have hzL : z ∈ L := List.mem_of_mem_head? hz
    have hzb : -(n : ℤ) ≤ z.order.toInt ∧ z.order.toInt ≤ n := hr.bound z hzL
    have hfirst : ∀ x ∈ L, x = z ∨ z.order.toInt < x.rank := fun x hx => hr.first_le hz hx
    unfold headOrder
    rw [hz]
    simp only
    split
    · next hid =>
      obtain rfl := hone z hzL hid
      refine ⟨fun x hx hne => ?_, by omega, by omega⟩
      rcases hfirst x hx with rfl | hlt
      · exact absurd rfl hne
      · exact hlt
    · have hone : (1 : Int64).toInt = 1 := by decide
      rw [Saturating.toInt_subI, hone]
      refine ⟨fun x hx _ => ?_, by omega, by omega⟩
      rcases hfirst x hx with rfl | hlt
      · unfold StoredEntry.rank
        omega
      · omega

/-- The key behind the last one, as `put` and `bust` compute it. -/
theorem rank_behind (hr : Ranked StoredEntry.rank n L) (hn : n + 1 < 2 ^ 63) {z : StoredEntry}
    (hz : L.getLast? = some z) :
    (∀ x ∈ L, x.rank < (Saturating.addI z.order 1).toInt) ∧
      -((n + 1 : Nat) : ℤ) ≤ (Saturating.addI z.order 1).toInt ∧
      (Saturating.addI z.order 1).toInt ≤ (n + 1 : Nat) := by
  have hzb : -(n : ℤ) ≤ z.order.toInt ∧ z.order.toInt ≤ n :=
    hr.bound z (List.mem_of_getLast? hz)
  have hone : (1 : Int64).toInt = 1 := by decide
  rw [Saturating.toInt_addI, hone]
  refine ⟨fun x hx => ?_, by omega, by omega⟩
  have hlast : x = z ∨ x.rank < z.order.toInt := hr.le_last hz hx
  rcases hlast with rfl | hlt
  · unfold StoredEntry.rank
    omega
  · omega

theorem rank_tailOrder (hr : Ranked StoredEntry.rank n L) (hn : n + 1 < 2 ^ 63) (he : e ∈ L)
    (hone : ∀ x ∈ L, x.id = e.id → x = e) :
    (∀ x ∈ L, x.id ≠ e.id → x.rank < (tailOrder e L).toInt) ∧
      -((n + 1 : Nat) : ℤ) ≤ (tailOrder e L).toInt ∧ (tailOrder e L).toInt ≤ (n + 1 : Nat) := by
  cases hz : L.getLast? with
  | none => rw [List.getLast?_eq_none_iff.1 hz] at he; cases he
  | some z =>
    have hzL : z ∈ L := List.mem_of_getLast? hz
    unfold tailOrder
    rw [hz]
    simp only
    split
    · next hid =>
      obtain rfl := hone z hzL hid
      have hb : -(n : ℤ) ≤ z.order.toInt ∧ z.order.toInt ≤ n := hr.bound z hzL
      refine ⟨fun x hx hne => ?_, by omega, by omega⟩
      rcases hr.le_last hz hx with rfl | hlt
      · exact absurd rfl hne
      · exact hlt
    · obtain ⟨hlt, hb⟩ := rank_behind hr hn hz
      exact ⟨fun x hx _ => hlt x hx, hb⟩

theorem rank_newEntry (hr : Ranked StoredEntry.rank n L) (hn : n + 1 < 2 ^ 63)
    (request : CommentRequest) (options : PutOptions) (now : UInt64) (incarnation : Uuid)
    (id : String) :
    (∀ x ∈ L, x.rank < (newEntry request options now incarnation id L).rank) ∧
      -((n + 1 : Nat) : ℤ) ≤ (newEntry request options now incarnation id L).rank ∧
      (newEntry request options now incarnation id L).rank ≤ (n + 1 : Nat) := by
  unfold StoredEntry.rank newEntry
  cases hz : L.getLast? with
  | none =>
    have hzero : (0 : Int64).toInt = 0 := by decide
    rw [List.getLast?_eq_none_iff.1 hz]
    refine ⟨fun x hx => (by cases hx), ?_, ?_⟩ <;> simp only [hzero] <;> omega
  | some z => exact rank_behind hr hn hz

end Keys

/-! ## One call -/

theorem ne_of_find_error {id : String} {err : StoreError} (hf : find J fs id = .error err) :
    ∀ e ∈ queued J fs, e.id ≠ id := by
  rintro e he rfl
  rw [find_of_mem he] at hf
  cases hf

namespace Refines

/-- What every call but a completion leaves as it is. -/
theorem quiet (h : Refines J n fs items) (op : Op) (hs : op.Sound) (hq : op.Quiet J fs) :
    Clean J (final (op.exec J) fs) ∧ (final (op.exec J) fs).completion = none :=
  have hl := op.leaves_final J fs
  ⟨h.clean.leaves hs hl, (hq.completion_eq h.clean hs hl).trans h.settled⟩

/-- A call without events changes nothing. -/
theorem idle (h : Refines J n fs items) {op : Op} (ht : (op.exec J fs).trace = []) :
    Refines J (n + 1) (final (op.exec J) fs) items := by
  unfold final
  rw [ht]
  exact h.mono (Nat.le_succ n)

theorem mem_unique (_ : Refines J n fs items) {e : StoredEntry} (he : e ∈ queued J fs) :
    ∀ x ∈ sortEntries (queued J fs), x.id = e.id → x = e :=
  fun _ hx hid => eq_of_mem_queued (mem_sortEntries.1 hx) he hid

theorem bump (h : Refines J n fs items) (hn : n + 1 < 2 ^ 63) (id : String) :
    Refines J (n + 1) (final ((Op.bump id).exec J) fs) (toFront id items) := by
  have hq : (Op.bump id).Quiet J fs := quiet_of_isRequest rfl
  obtain ⟨hc, hj⟩ := h.quiet (.bump id) trivial hq
  have hfinal : final ((Op.bump id).exec J) fs = final (Comenq.bump J id) fs := final_map _ _ _
  cases hf : find J fs id with
  | error err =>
    rw [h.toFront_absent (ne_of_find_error hf)]
    refine h.idle ((trace_map _ _ _).trans ?_)
    unfold Comenq.bump
    rw [h.clean.accounted.covered.reorder_error hf]
  | ok e =>
    obtain ⟨he, rfl⟩ := find_ok_iff.1 hf
    obtain ⟨hrank, hb⟩ := rank_headOrder h.ranked hn (mem_sortEntries.2 he) (h.mem_unique he)
    refine h.place_first he (e.updates_order (headOrder e (sortEntries (queued J fs)))) rfl hrank hb
      hc hj ?_
    rw [hfinal]
    unfold final Comenq.bump
    rw [h.clean.accounted.covered.reorder_run hf]
    rfl

theorem bust (h : Refines J n fs items) (hn : n + 1 < 2 ^ 63) (id : String) :
    Refines J (n + 1) (final ((Op.bust id).exec J) fs) (toBack id items) := by
  have hq : (Op.bust id).Quiet J fs := quiet_of_isRequest rfl
  obtain ⟨hc, hj⟩ := h.quiet (.bust id) trivial hq
  have hfinal : final ((Op.bust id).exec J) fs = final (Comenq.bust J id) fs := final_map _ _ _
  cases hf : find J fs id with
  | error err =>
    rw [h.toBack_absent (ne_of_find_error hf)]
    refine h.idle ((trace_map _ _ _).trans ?_)
    unfold Comenq.bust
    rw [h.clean.accounted.covered.reorder_error hf]
  | ok e =>
    obtain ⟨he, rfl⟩ := find_ok_iff.1 hf
    obtain ⟨hrank, hb⟩ := rank_tailOrder h.ranked hn (mem_sortEntries.2 he) (h.mem_unique he)
    refine h.place_last he (e.updates_order (tailOrder e (sortEntries (queued J fs)))) rfl hrank hb
      hc hj ?_
    rw [hfinal]
    unfold final Comenq.bust
    rw [h.clean.accounted.covered.reorder_run hf]
    rfl

theorem del (h : Refines J n fs items) (id : String) :
    Refines J (n + 1) (final ((Op.del id).exec J) fs) (items.filter fun i => i.id ≠ id) := by
  have hq : (Op.del id).Quiet J fs := quiet_of_isRequest rfl
  obtain ⟨hc, hj⟩ := h.quiet (.del id) trivial hq
  have hfinal : final ((Op.del id).exec J) fs = final (Comenq.del J id) fs := final_map _ _ _
  cases hf : find J fs id with
  | error err =>
    rw [h.filter_id_ne_self (ne_of_find_error hf)]
    refine h.idle ((trace_map _ _ _).trans ?_)
    rw [del_error hf]
  | ok e =>
    refine (h.mono (Nat.le_succ n)).remove id hc hj ?_
    rw [hfinal]
    unfold final
    rw [del_run hf]
    rfl

theorem put (h : Refines J n fs items) (hn : n + 1 < 2 ^ 63) (request : CommentRequest)
    (options : PutOptions) (now : UInt64) (incarnation : Uuid) {op : Op}
    (hop : op = .put request options now incarnation) :
    Refines J (n + 1) (final (op.exec J) fs) (op.onList (op.exec J fs).outcome items) := by
  have hexec : op.exec J =
      (fun p => .stored p.1 p.2) <$> putWithEta J request options now incarnation := by
    rw [hop]
    rfl
  have hq : op.Quiet J fs := quiet_of_isRequest (by rw [hop]; rfl)
  obtain ⟨hc, hj⟩ := h.quiet op (by rw [hop]; trivial) hq
  rw [hexec] at hc hj
  rcases @put_cases J fs request options now incarnation with
    ⟨htrace, hmem⟩ | ⟨id, eta, hen, -, hrun⟩
  · -- rejected, or queued already
    have hlist : op.onList (op.exec J fs).outcome items = items := by
      rw [hexec, outcome_map, hop]
      cases ho : (putWithEta J request options now incarnation fs).outcome with
      | ok p => exact if_pos (h.mem_ids.2 ⟨p.1, (hmem p.1 p.2 ho).1, rfl⟩)
      | error err => rfl
      | diverges => rfl
    rw [hlist]
    refine h.idle ?_
    rw [hexec, trace_map, htrace]
  · have hnew : ∀ x ∈ queued J fs, x.id ≠ id := by
      intro x hx hid
      obtain ⟨-, bytes, hl, -⟩ := mem_queued.1 hx
      rw [hid] at hl
      exact Option.some_ne_none _ (hl.symm.trans hen.free)
    have hlist : op.onList (op.exec J fs).outcome items = items ++ [⟨id, none⟩] := by
      rw [hexec, outcome_map, hrun, hop]
      refine if_neg fun hid => ?_
      obtain ⟨x, hx, hxid⟩ := h.mem_ids.1 hid
      exact hnew x hx hxid
    obtain ⟨hrank, hb⟩ := rank_newEntry h.ranked hn request options now incarnation id
    have hs := hen.size
    rw [hlist, hexec]
    refine h.add_last (e := newEntry request options now incarnation id (sortEntries (queued J fs)))
      hen.valid (by omega) hnew hrank hb hc hj ?_
    rw [final_map]
    unfold final
    rw [hrun]
    rfl

theorem claimNextDue (h : Refines J n fs items) (cooldown now : UInt64) (token : Uuid) {op : Op}
    (hop : op = .claimNextDue cooldown now token) :
    Refines J (n + 1) (final (op.exec J) fs) (op.onList (op.exec J fs).outcome items) := by
  have hexec : op.exec J = .due <$> Comenq.claimNextDue J cooldown now token := by rw [hop]; rfl
  have hq : op.Quiet J fs := by rw [hop]; simp [Op.Quiet, Op.Kinds]
  obtain ⟨hc, hj⟩ := h.quiet op (by rw [hop]; trivial) hq
  rw [hexec] at hc hj
  rcases h.clean.accounted.covered.claimNextDue_cases cooldown now token with
    ⟨err, -, hrun⟩ | ⟨due, -, hw, hrun⟩ | ⟨e, hd, hrun⟩
  · have hlist : op.onList (op.exec J fs).outcome items = items := by
      rw [hexec, outcome_map, hrun, hop]
      rfl
    rw [hlist]
    refine h.idle ?_
    rw [hexec, trace_map, hrun]
  · have hlist : op.onList (op.exec J fs).outcome items = items := by
      rw [hexec, outcome_map, hrun, hop]
      cases due with
      | none => rfl
      | some p => exact if_neg (UInt64.pos_iff_ne_zero.1 (hw p.1 p.2 rfl))
    rw [hlist]
    refine h.idle ?_
    rw [hexec, trace_map, hrun]
  · have hlist : op.onList (op.exec J fs).outcome items =
        items.map fun i => if i.id = e.id then { i with claim := some token.text } else i := by
      rw [hexec, outcome_map, hrun, hop]
      simp [Op.onList, Outcome.map]
    have hitems : (items.map fun i => if i.id = e.id then
          { i with claim := some token.text } else i) =
        items.map fun i => if i.id = e.id then
          ({ e with claimToken := some token.text } : StoredEntry).item else i := by
      refine List.map_congr_left fun i _ => ?_
      split
      · next hid =>
        rw [hid]
        rfl
      · rfl
    rw [hlist, hitems, hexec]
    refine (h.mono (Nat.le_succ n)).rewrite (mem_of_nextDue hd) (e.updates_claim token) rfl hc hj ?_
    rw [final_map]
    unfold final
    rw [hrun]
    rfl

theorem releaseClaim (h : Refines J n fs items) (id token : String) (attemptedAt : UInt64) :
    Refines J (n + 1) (final ((Op.releaseClaim id token attemptedAt).exec J) fs)
      (items.map fun i => if i.id = id ∧ i.claim = some token then
        { i with claim := none } else i) := by
  by_cases hheld : ∃ e, find J fs id = .ok e ∧ e.claimToken = some token
  · obtain ⟨e, hf, ht⟩ := hheld
    obtain ⟨he, rfl⟩ := find_ok_iff.1 hf
    have hq : (Op.releaseClaim e.id token attemptedAt).Quiet J fs := by simp [Op.Quiet, Op.Kinds]
    obtain ⟨hc, hj⟩ := h.quiet (.releaseClaim e.id token attemptedAt) trivial hq
    obtain ⟨previous, hp⟩ := h.clean.lastAttempt_ok
    have hitems : (items.map fun i => if i.id = e.id ∧ i.claim = some token then
          { i with claim := none } else i) =
        items.map fun i => if i.id = e.id then
          ({ e with claimToken := none } : StoredEntry).item else i := by
      refine List.map_congr_left fun i hi => ?_
      obtain ⟨x, hx, rfl⟩ := h.mem_items.1 hi
      by_cases hid : x.id = e.id
      · obtain rfl := eq_of_mem_queued hx he hid
        rw [if_pos ⟨rfl, ht⟩, if_pos x.id_item]
        rfl
      · have hid' : x.item.id ≠ e.id := hid
        rw [if_neg fun hand => hid' hand.1, if_neg hid']
    rw [hitems]
    refine (h.mono (Nat.le_succ n)).rewrite he e.updates_release rfl hc hj ?_
    rw [Op.exec, final_map]
    unfold final
    rw [h.clean.accounted.covered.releaseClaim_run hf ht hp]
    rfl
  · -- nobody holds this claim
    have hitems : (items.map fun i => if i.id = id ∧ i.claim = some token then
        { i with claim := none } else i) = items := by
      refine (List.map_congr_left fun i hi => ?_).trans (List.map_id items)
      obtain ⟨x, hx, rfl⟩ := h.mem_items.1 hi
      refine if_neg fun hand => hheld ⟨x, ?_, hand.2⟩
      exact find_ok_iff.2 ⟨hx, hand.1⟩
    rw [hitems]
    refine h.idle ((trace_map _ _ _).trans ?_)
    exact releaseClaim_stale (fun e hf ht => hheld ⟨e, hf, ht⟩) attemptedAt

theorem completeClaim (h : Refines J n fs items) {entry : StoredEntry}
    (hv : isValidId entry.id = true) (tokenHash : String) (now : UInt64)
    (commentUrl : Option String) (attempt : Uuid) :
    Refines J (n + 1) (final ((Op.completeClaim entry tokenHash now commentUrl attempt).exec J) fs)
      (items.filter fun i =>
        ¬ (i.id = entry.id ∧ ∀ token ∈ entry.claimToken, i.claim = some token)) := by
  set c := completionRecord entry tokenHash now commentUrl attempt fs.historyBytes.length with hc
  have hsound : (Op.completeClaim entry tokenHash now commentUrl attempt).Sound := hv
  have hclean := h.clean.leaves hsound (Op.leaves_final J _ fs)
  have hrun : final ((Op.completeClaim entry tokenHash now commentUrl attempt).exec J) fs =
      final (completeClaimWithToken J entry tokenHash now commentUrl attempt) fs := final_map _ _ _
  by_cases htake : takesEntry J fs c = true
  · obtain ⟨e, he, hid, ht⟩ := takesEntry_iff.1 htake
    have hfilter : (items.filter fun i =>
        ¬ (i.id = entry.id ∧ ∀ token ∈ entry.claimToken, i.claim = some token)) =
        items.filter fun i => i.id ≠ entry.id := by
      refine List.filter_congr fun i hi => decide_eq_decide.2 (not_congr ?_)
      obtain ⟨x, hx, rfl⟩ := h.mem_items.1 hi
      refine ⟨fun hand => hand.1, fun hxid => ⟨hxid, ?_⟩⟩
      obtain rfl := eq_of_mem_queued hx he (hxid.trans hid.symm)
      exact ht
    obtain ⟨-, -, hfs⟩ := (h.clean.succeeds_completeClaim hv (Or.inr ⟨e, find_ok_iff.2 ⟨he, hid⟩⟩)
      tokenHash now commentUrl attempt).final
    rw [hfilter]
    refine (h.mono (Nat.le_succ n)).remove entry.id hclean (by rw [hrun, hfs]; rfl) ?_
    rw [hrun, hfs]
    exact if_pos htake
  · have hfilter : (items.filter fun i =>
        ¬ (i.id = entry.id ∧ ∀ token ∈ entry.claimToken, i.claim = some token)) = items := by
      refine List.filter_eq_self.2 fun i hi => decide_eq_true fun hand => htake ?_
      obtain ⟨x, hx, rfl⟩ := h.mem_items.1 hi
      exact takesEntry_iff.2 ⟨x, hx, hand⟩
    rw [hfilter]
    by_cases hclaim : entry.claimToken.isSome = true ∨ ∃ e, find J fs entry.id = .ok e
    · obtain ⟨-, -, hfs⟩ := (h.clean.succeeds_completeClaim hv hclaim tokenHash now commentUrl
        attempt).final
      refine (h.congr hclean ?_ ?_).mono (Nat.le_succ n)
      · rw [hrun, hfs]
        exact if_neg htake
      · rw [hrun, hfs, h.settled]
        rfl
    · -- a completion that names no claim of an entry that is not queued
      rw [not_or] at hclaim
      refine h.idle ((trace_map _ _ _).trans ?_)
      cases hf : find J fs entry.id with
      | ok e => exact absurd ⟨e, hf⟩ hclaim.2
      | error err => rw [Clean.completeClaim_error (by simpa using hclaim.1) hf]

/-- Clearing all claims. -/
theorem unclaim (h : Refines J n fs items) (hc : Clean J fs') (hj : fs'.completion = none)
    (hm : ∀ x, x ∈ queued J fs' ↔ ∃ e ∈ queued J fs, x = e.unclaimed) :
    Refines J n fs' (items.map fun i => { i with claim := none }) := by
  refine refines_of (L := (sortEntries (queued J fs)).map StoredEntry.unclaimed) hc hj
    (h.ranked.map fun _ _ => rfl) ?_ ?_
  · intro x
    rw [hm, List.mem_map]
    simp only [mem_sortEntries, eq_comm]
  · rw [← h.items, List.map_map, List.map_map]
    rfl

theorem recover (h : Refines J n fs items) (fresh : String → Uuid) :
    Refines J (n + 1) (final ((Op.recoverWorkerState fresh).exec J) fs)
      (items.map fun i => { i with claim := none }) := by
  have hs : Succeeds (recoverWorkerState J fresh) fs fun _ fs' =>
      Clean J fs' ∧ fs' = { fs with entries := fs'.entries } ∧
        ∀ x, x ∈ queued J fs' ↔ ∃ e ∈ queued J fs, x = e.unclaimed := by
    refine succeeds_bind (Q := fun _ fs₁ => fs₁ = fs)
      ⟨(), [], Clean.reconcileCompletion_none h.settled, rfl⟩ ?_
    rintro _ _ rfl
    exact h.clean.succeeds_reclaimClaims fresh
  obtain ⟨-, -, hclean, hrest, hm⟩ := hs.final
  rw [Op.exec, final_map]
  refine (h.mono (Nat.le_succ n)).unclaim hclean ?_ hm
  rw [hrest]
  exact h.settled

theorem reopen (h : Refines J n fs items) (fresh : String → Uuid) :
    Refines J (n + 1) (final ((Op.reopen fresh).exec J) fs)
      (items.map fun i => { i with claim := none }) := by
  obtain ⟨-, -, hclean, hopened⟩ := (h.clean.succeeds_openStore_none h.settled fresh).final
  rw [Op.exec, final_map]
  exact (h.mono (Nat.le_succ n)).unclaim hclean (hopened.completion.trans h.settled) hopened.queue

theorem appendHistory (h : Refines J n fs items) (record : HistoryRecord) :
    Refines J (n + 1) (final ((Op.appendHistory record).exec J) fs) items := by
  have hfinal : final ((Op.appendHistory record).exec J) fs =
      { fs with history := some (fs.historyBytes ++ appendedBytes record fs.historyBytes) } := by
    rw [Op.exec, final_map]
    exact final_append record fs
  have hclean := h.clean.history (some (fs.historyBytes ++ appendedBytes record fs.historyBytes))
  rw [hfinal]
  exact (h.congr hclean rfl rfl).mono (Nat.le_succ n)

/-- Every call does to the list what `onList` says. -/
theorem call (h : Refines J n fs items) (hn : n + 1 < 2 ^ 63) {op : Op} (hs : op.Sound) :
    Refines J (n + 1) (final (op.exec J) fs) (op.onList (op.exec J fs).outcome items) := by
  cases op with
  | put request options now incarnation => exact h.put hn request options now incarnation rfl
  | bump id => exact h.bump hn id
  | bust id => exact h.bust hn id
  | del id => exact h.del id
  | claimNextDue cooldown now token => exact h.claimNextDue cooldown now token rfl
  | releaseClaim id token attemptedAt => exact h.releaseClaim id token attemptedAt
  | completeClaim entry tokenHash now commentUrl attempt =>
    exact h.completeClaim hs tokenHash now commentUrl attempt
  | recoverWorkerState fresh => exact h.recover fresh
  | reopen fresh => exact h.reopen fresh
  | appendHistory record => exact h.appendHistory record

end Refines

/-! ## The order of the listing -/

namespace Relisted

theorem lookup_entries (h : Relisted fs fs') (id : String) :
    fs'.entries.lookup id = fs.entries.lookup id :=
  AList.perm_lookup h.entries

theorem queued_perm (h : Relisted fs fs') : (queued J fs').Perm (queued J fs) :=
  h.entries.filterMap _

theorem mem_queued_iff (h : Relisted fs fs') {e : StoredEntry} :
    e ∈ queued J fs' ↔ e ∈ queued J fs :=
  h.queued_perm.mem_iff

theorem sizes_perm (h : Relisted fs fs') :
    (fileSizes fs'.entries.entries).Perm (fileSizes fs.entries.entries) :=
  h.entries.filterMap _

theorem accounted (h : Relisted fs fs') (ha : Accounted J fs) : Accounted J fs' where
  count := by
    have hl : fileCount fs' = fileCount fs := h.sizes_perm.length_eq
    rw [hl]
    exact ha.count
  budget := by
    have hu : usedBytes fs' = usedBytes fs := h.sizes_perm.sum_eq
    have hr : reservedBytes J fs' = reservedBytes J fs := (h.queued_perm.map entryHeadroom).sum_eq
    unfold accountedBytes
    rw [hu, hr]
    exact ha.budget
  native := by
    intro e bytes he hl
    rw [h.lookup_entries] at hl
    exact ha.native (h.mem_queued_iff.1 he) hl
  sized := fun he => ha.sized (h.mem_queued_iff.1 he)
  reach := fun he => ha.reach (h.mem_queued_iff.1 he)

theorem clean (h : Relisted fs fs') (hc : Clean J fs) : Clean J fs' where
  accounted := h.accounted hc.accounted
  readable := by
    intro id node hl
    rw [h.lookup_entries] at hl
    obtain ⟨e, he, hid⟩ := hc.readable hl
    exact ⟨e, h.mem_queued_iff.2 he, hid⟩
  lifetime := fun he => hc.lifetime (h.mem_queued_iff.1 he)
  markers := by
    intro id bytes hl
    rw [AList.perm_lookup h.awaitDeletions] at hl
    exact hc.markers hl
  lastPost := by rw [h.rest]; exact hc.lastPost
  lastAttempt := by rw [h.rest]; exact hc.lastAttempt
  journal := by rw [h.rest]; exact hc.journal

theorem refines (h : Relisted fs fs') (hr : Refines J n fs items) : Refines J n fs' items := by
  refine refines_of (h.clean hr.clean) (by rw [h.rest]; exact hr.settled) hr.ranked ?_ hr.items
  intro x
  rw [mem_sortEntries, h.mem_queued_iff]

end Relisted

theorem ListRun.refines (h : ListRun J n fs items) (hn : n < 2 ^ 63) : Refines J n fs items := by
  induction h with
  | start => exact Refines.start J
  | call _ hs ih => exact (ih (by omega)).call hn hs
  | relist _ hl ih => exact hl.refines (ih hn)

/-- The first call can only enroll an entry with order key zero. -/
theorem Refines.first (h : Refines J 0 fs []) {op : Op} (hs : op.Sound) :
    Refines J 0 (final (op.exec J) fs) (op.onList (op.exec J fs).outcome []) := by
  have hnil : queued J fs = [] := by
    have hsorted := List.map_eq_nil_iff.1 h.items
    exact List.perm_nil.1 (hsorted ▸ (sortEntries_perm (queued J fs)).symm)
  have hcall := h.call (by decide) hs
  have hempty : op.onList (op.exec J fs).outcome [] = [] →
      ∀ x ∈ queued J (final (op.exec J) fs), x.rank = 0 := by
    intro hitems x hx
    rw [hitems] at hcall
    have hsorted := List.map_eq_nil_iff.1 hcall.items
    rw [← mem_sortEntries, hsorted] at hx
    cases hx
  have hrank : ∀ x ∈ queued J (final (op.exec J) fs), x.rank = 0 := by
    cases op with
    | put request options now incarnation =>
      intro x hx
      rw [Op.exec, final_map] at hx
      rcases @put_cases J fs request options now incarnation with
        ⟨htrace, -⟩ | ⟨id, eta, hen, -, hrun⟩
      · unfold final at hx
        rw [htrace, run_nil, hnil] at hx
        cases hx
      · have hsize := hen.size
        unfold final at hx
        rw [hrun] at hx
        rcases (mem_queued_write hen.valid (by omega)).1 hx with rfl | ⟨hx, -⟩
        · rw [hnil]
          rfl
        · rw [hnil] at hx
          cases hx
    | claimNextDue cooldown now token =>
      apply hempty
      unfold Op.onList
      split
      · next hop _ => cases hop
      all_goals first | rfl | exact ite_self []
    | _ => exact hempty rfl
  refine ⟨hcall.clean, hcall.settled, ⟨hcall.ranked.sorted, fun x hx => ?_⟩, hcall.items⟩
  rw [hrank x (mem_sortEntries.1 hx)]
  exact ⟨le_refl 0, le_refl 0⟩

/-- Order keys stay within the number of calls after the first. -/
theorem ListRun.refines_pred (h : ListRun J n fs items) (hn : n ≤ 2 ^ 63) :
    Refines J (n - 1) fs items ∧ (n = 0 → items = []) := by
  induction h with
  | start => exact ⟨Refines.start J, fun _ => rfl⟩
  | @call n fs items op _ hs ih =>
    obtain ⟨hr, hnil⟩ := ih (by omega)
    refine ⟨?_, fun h => by omega⟩
    cases n with
    | zero =>
      rw [hnil rfl] at hr ⊢
      exact hr.first hs
    | succ n => exact hr.call (by omega) hs
  | relist _ hl ih => exact ⟨hl.refines (ih hn).1, (ih hn).2⟩

end Refinement

/-- The store refines the list: after fewer than 2^63 calls, with any clock values and in whatever
order the directory lists its files, `entries` returns the items of the list in their order. -/
theorem entries_refine_list {J : SerdeJson} {n : Nat} {fs : QueueFs} {items : List Item}
    (h : ListRun J n fs items) (hn : n < 2 ^ 63) :
    ∃ es, entries J fs = .ok es ∧ es.map StoredEntry.id = items.map Item.id ∧
      es.map StoredEntry.claimToken = items.map Item.claim := by
  have hr := h.refines hn
  refine ⟨_, hr.clean.entries_eq, ?_, ?_⟩
  · rw [← hr.items, List.map_map]
    rfl
  · rw [← hr.items, List.map_map]
    rfl

/-- The directory and the list after some calls. -/
def listAfter (J : SerdeJson) (start : QueueFs × List Item) (ops : List Op) : QueueFs × List Item :=
  ops.foldl (fun s op => (final (op.exec J) s.1, op.onList (op.exec J s.1).outcome s.2)) start

theorem ListRun.calls {J : SerdeJson} {n : Nat} {fs : QueueFs} {items : List Item} {ops : List Op}
    (h : ListRun J n fs items) (hs : ∀ op ∈ ops, op.Sound) :
    ListRun J (n + ops.length) (listAfter J (fs, items) ops).1 (listAfter J (fs, items) ops).2 := by
  induction ops generalizing n fs items with
  | nil => exact h
  | cons op ops ih =>
    have hrest := ih (h.call (hs op List.mem_cons_self)) fun op' ho =>
      hs op' (List.mem_cons_of_mem op ho)
    rw [List.length_cons, Nat.add_comm ops.length 1, ← Nat.add_assoc]
    exact hrest

def sampleListOps : List Op :=
  [.put sampleRequest ⟨900, 0, true⟩ 1000 (sampleUuid 1),
    .put { sampleRequest with body := "pong" } ⟨900, 5, true⟩ 400 (sampleUuid 2),
    .bust "4e881b86", .claimNextDue 900 1000 (sampleUuid 3)]

theorem entries_refine_list_sample :
    ∃ es, entries serdeJson (listAfter serdeJson (QueueFs.empty, []) sampleListOps).1 = .ok es ∧
      es.map StoredEntry.id = ["36631734", "4e881b86"] ∧
      es.map StoredEntry.claimToken = [some (sampleUuid 3).text, none] := by
  have hsound : ∀ op ∈ sampleListOps, op.Sound := by
    intro op hop
    fin_cases hop <;> trivial
  have hrun := (ListRun.start (J := serdeJson)).calls hsound
  have hitems : (listAfter serdeJson (QueueFs.empty, []) sampleListOps).2 =
      [⟨"36631734", some (sampleUuid 3).text⟩, ⟨"4e881b86", none⟩] := by decide +kernel
  rw [hitems] at hrun
  exact entries_refine_list hrun (by decide)

end Comenq
