import Mathlib.Data.List.AList

/-!
# Directories

A directory maps names to contents and lists them in some order. Mathlib's `AList` is used as it
is; here are the listing after a write and after a removal, and the values read from a directory by
a reader that only accepts a value under its own name (`NameReader`).
-/

namespace Directory

variable {κ α β : Type*} [DecidableEq κ]

/-- A directory: names with their contents, in listing order. -/
abbrev Dir (κ α : Type*) := AList fun _ : κ => α

/-! ## Listings -/

theorem kerase_eq_filter {l : List (Σ _ : κ, α)} (h : l.NodupKeys) (a : κ) :
    l.kerase a = l.filter fun p => p.1 ≠ a := by
  induction l with
  | nil => rfl
  | cons p l ih =>
    obtain ⟨hp, hl⟩ := List.nodupKeys_cons.1 h
    by_cases hpa : a = p.1
    · rw [List.kerase_cons_eq hpa, List.filter_cons_of_neg (by simp [hpa])]
      refine (List.filter_eq_self.2 fun q hq => ?_).symm
      simp only [ne_eq, decide_eq_true_eq]
      rintro rfl
      exact hp (hpa ▸ List.mem_keys_of_mem hq)
    · rw [List.kerase_cons_ne hpa, List.filter_cons_of_pos (by simp [Ne.symm hpa]), ih hl]

theorem entries_erase (d : Dir κ α) (a : κ) :
    (d.erase a).entries = d.entries.filter fun p => p.1 ≠ a :=
  kerase_eq_filter d.nodupKeys a

theorem entries_insert (d : Dir κ α) (a : κ) (v : α) :
    (d.insert a v).entries = ⟨a, v⟩ :: d.entries.filter fun p => p.1 ≠ a := by
  rw [AList.entries_insert, kerase_eq_filter d.nodupKeys a]

theorem filter_of_lookup_none {d : Dir κ α} {a : κ} (h : d.lookup a = none) :
    (d.entries.filter fun p => p.1 ≠ a) = d.entries := by
  refine List.filter_eq_self.2 fun p hp => ?_
  simp only [ne_eq, decide_eq_true_eq]
  rintro rfl
  exact AList.lookup_eq_none.1 h (List.mem_keys_of_mem hp)

/-- A present name can be listed first. -/
theorem entries_perm {d : Dir κ α} {a : κ} {v : α} (h : d.lookup a = some v) :
    d.entries.Perm (⟨a, v⟩ :: d.entries.filter fun p => p.1 ≠ a) := by
  obtain ⟨w, l₁, l₂, ha, hl, hk⟩ := List.exists_of_kerase (AList.mem_keys.1 (AList.lookup_isSome.1
    (by rw [h]; rfl)))
  have hw : w = v := by
    have hm : (⟨a, w⟩ : Σ _ : κ, α) ∈ d.entries := by rw [hl]; simp
    have := AList.mem_lookup_iff.2 hm
    rw [h] at this
    exact (Option.some.inj this).symm
  rw [← kerase_eq_filter d.nodupKeys a, hk, hl, hw]
  exact List.perm_middle

/-! ## Reading values under their own name -/

/-- A reader of single items that only accepts a value stored under its own name. -/
structure NameReader (κ α β : Type*) where
  item : (Σ _ : κ, α) → Option β
  name : β → κ
  name_eq : ∀ {p x}, item p = some x → name x = p.1

namespace NameReader

variable (r : NameReader κ α β)

/-- The values a directory holds, in listing order. -/
def values (d : Dir κ α) : List β := d.entries.filterMap r.item

variable {r}

theorem filterMap_filter (l : List (Σ _ : κ, α)) (a : κ) :
    (l.filter fun p => p.1 ≠ a).filterMap r.item =
      (l.filterMap r.item).filter fun x => r.name x ≠ a := by
  induction l with
  | nil => rfl
  | cons p l ih =>
    cases hx : r.item p with
    | none =>
      rw [List.filterMap_cons_none hx, ← ih]
      by_cases hp : p.1 = a
      · rw [List.filter_cons_of_neg (by simp [hp])]
      · rw [List.filter_cons_of_pos (by simp [hp]), List.filterMap_cons_none hx]
    | some x =>
      have hn : r.name x = p.1 := r.name_eq hx
      rw [List.filterMap_cons_some hx]
      by_cases hp : p.1 = a
      · rw [List.filter_cons_of_neg (by simp [hp]), List.filter_cons_of_neg (by simp [hn, hp]), ih]
      · rw [List.filter_cons_of_pos (by simp [hp]), List.filter_cons_of_pos (by simp [hn, hp]),
          List.filterMap_cons_some hx, ih]

theorem values_erase (d : Dir κ α) (a : κ) :
    r.values (d.erase a) = (r.values d).filter fun x => r.name x ≠ a := by
  unfold values
  rw [entries_erase, filterMap_filter]

/-- Writing a readable value replaces the value of that name. -/
theorem values_insert (d : Dir κ α) {a : κ} {v : α} {x : β} (h : r.item ⟨a, v⟩ = some x) :
    r.values (d.insert a v) = x :: (r.values d).filter fun y => r.name y ≠ a := by
  unfold values
  rw [entries_insert, List.filterMap_cons_some h, filterMap_filter]

theorem mem_values {d : Dir κ α} {x : β} :
    x ∈ r.values d ↔ ∃ v, d.lookup (r.name x) = some v ∧ r.item ⟨r.name x, v⟩ = some x := by
  unfold values
  rw [List.mem_filterMap]
  constructor
  · rintro ⟨⟨a, v⟩, hm, hx⟩
    obtain rfl : r.name x = a := r.name_eq hx
    exact ⟨v, AList.mem_lookup_iff.2 hm, hx⟩
  · rintro ⟨v, hl, hx⟩
    exact ⟨_, AList.mem_lookup_iff.1 hl, hx⟩

/-- A name holds at most one value. -/
theorem eq_of_name_eq {d : Dir κ α} {x y : β} (hx : x ∈ r.values d) (hy : y ∈ r.values d)
    (h : r.name x = r.name y) : x = y := by
  obtain ⟨v, hv, hvx⟩ := mem_values.1 hx
  obtain ⟨w, hw, hwy⟩ := mem_values.1 hy
  rw [h, hw] at hv
  obtain rfl := Option.some.inj hv
  rw [h, hwy] at hvx
  exact (Option.some.inj hvx).symm

omit [DecidableEq κ] in
theorem nodup_names (d : Dir κ α) : ((r.values d).map r.name).Nodup := by
  unfold values
  obtain ⟨l, hl⟩ := d
  simp only
  induction l with
  | nil => exact List.nodup_nil
  | cons p l ih =>
    obtain ⟨hp, hl⟩ := List.nodupKeys_cons.1 hl
    cases hx : r.item p with
    | none => rw [List.filterMap_cons_none hx]; exact ih hl
    | some x =>
      rw [List.filterMap_cons_some hx, List.map_cons, List.nodup_cons]
      refine ⟨fun hm => hp ?_, ih hl⟩
      obtain ⟨y, hy, hxy⟩ := List.mem_map.1 hm
      obtain ⟨q, hq, hqy⟩ := List.mem_filterMap.1 hy
      rw [← r.name_eq hx, ← hxy, r.name_eq hqy]
      exact List.mem_keys_of_mem hq

end NameReader

end Directory
