import Mathlib.Data.List.Basic

/-!
# Splitting a text

`splitOnce` cuts a text at the first occurrence of a character. The parts are the only ones that
make up the text with the first of them free of the character (`splitOnce_eq_some_iff`).
-/

namespace Text

/-- The text before the first occurrence of `c` and the text behind it. -/
def splitOnce (c : Char) : List Char → Option (List Char × List Char)
  | [] => none
  | x :: xs =>
    if x = c then some ([], xs)
    else (splitOnce c xs).map fun parts => (x :: parts.1, parts.2)

theorem splitOnce_append {c : Char} {before : List Char} (h : c ∉ before) (after : List Char) :
    splitOnce c (before ++ c :: after) = some (before, after) := by
  induction before with
  | nil => exact if_pos rfl
  | cons x before ih =>
    rw [List.mem_cons, not_or] at h
    change (if x = c then _ else (splitOnce c (before ++ c :: after)).map _) = _
    rw [if_neg (Ne.symm h.1), ih h.2]
    rfl

/-- A text is split at the first occurrence. -/
theorem splitOnce_eq_some {c : Char} {cs before after : List Char}
    (h : splitOnce c cs = some (before, after)) : cs = before ++ c :: after ∧ c ∉ before := by
  induction cs generalizing before with
  | nil => cases h
  | cons x cs ih =>
    unfold splitOnce at h
    split at h
    · next hx =>
      obtain ⟨rfl, rfl⟩ := Prod.mk.inj (Option.some.inj h)
      exact ⟨by rw [hx]; rfl, List.not_mem_nil⟩
    · next hx =>
      obtain ⟨parts, hparts, heq⟩ := Option.map_eq_some_iff.1 h
      obtain ⟨rfl, rfl⟩ := Prod.mk.inj heq
      obtain ⟨hcs, hnot⟩ := ih hparts
      refine ⟨by rw [hcs]; rfl, ?_⟩
      rw [List.mem_cons, not_or]
      exact ⟨Ne.symm hx, hnot⟩

theorem splitOnce_eq_some_iff {c : Char} {cs before after : List Char} :
    splitOnce c cs = some (before, after) ↔ cs = before ++ c :: after ∧ c ∉ before := by
  refine ⟨splitOnce_eq_some, ?_⟩
  rintro ⟨rfl, hbefore⟩
  exact splitOnce_append hbefore after

theorem splitOnce_eq_none_iff {c : Char} {cs : List Char} : splitOnce c cs = none ↔ c ∉ cs := by
  constructor
  · intro h hmem
    obtain ⟨before, after, rfl, hbefore⟩ := List.eq_append_cons_of_mem hmem
    rw [splitOnce_append hbefore] at h
    cases h
  · intro h
    cases hsplit : splitOnce c cs with
    | none => rfl
    | some parts =>
      obtain ⟨rfl, -⟩ := splitOnce_eq_some hsplit
      exact absurd (List.mem_append_right _ List.mem_cons_self) h

end Text
