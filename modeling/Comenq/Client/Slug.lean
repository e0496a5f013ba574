import Comenq.Lib.Text
import Comenq.Store.Types
import Mathlib.Data.List.DropRight

/-!
# Repository slugs

The model of `RepoSlug` in the client's `lib.rs`: how the `owner/repo` argument of `put` is read and
shown. The fields of a slug are private, so every slug is one that `from_str` returned; what it
accepts is exactly the trimmed texts of well-formed slugs (`repo_slug_parsed_iff`), and showing a
slug and reading it again gives it back.
-/

namespace Comenq

open Text

/-- A GitHub repository slug in `owner/repo` format. -/
structure RepoSlug where
  owner : String
  repo : String
deriving DecidableEq, Repr

inductive RepoSlugParseError
  | missingSlash
  | emptyOwner
  | emptyRepo
  | extraSlashes
deriving DecidableEq, Repr

/-- All of the errors read the same. -/
def RepoSlugParseError.message (_ : RepoSlugParseError) : String :=
  "invalid repository format, use 'owner/repo'"

def RepoSlug.fromStr (s : String) : Except RepoSlugParseError RepoSlug :=
  match splitOnce '/' (trim s.toList) with
  | none => .error .missingSlash
  | some (owner, repo) =>
    if owner.isEmpty then .error .emptyOwner
    else if repo.isEmpty then .error .emptyRepo
    else if '/' ∈ repo then .error .extraSlashes
    else .ok ⟨String.ofList owner, String.ofList repo⟩

def RepoSlug.display (slug : RepoSlug) : String :=
  String.ofList (slug.owner.toList ++ '/' :: slug.repo.toList)

/-! ## Trimming -/

theorem trim_eq (cs : List Char) : trim cs = (cs.dropWhile isWhitespace).rdropWhile isWhitespace :=
  rfl

/-- Trimmed text starts and ends with other characters, so that trimming again changes nothing. -/
theorem trim_trim (cs : List Char) : trim (trim cs) = trim cs := by
  rw [trim_eq (trim cs), trim_eq cs]
  set inner := (cs.dropWhile isWhitespace).rdropWhile isWhitespace with hinner
  have hfront : inner.dropWhile isWhitespace = inner := by
    cases hi : inner with
    | nil => rfl
    | cons c rest =>
      -- the first character that is kept is the first one of the text without its leading blanks
      obtain ⟨dropped, hd⟩ := List.rdropWhile_prefix isWhitespace (cs.dropWhile isWhitespace)
      rw [← hinner, hi] at hd
      have hhead : (cs.dropWhile isWhitespace).head? = some c := by
        rw [← hd]
        rfl
      have hc : isWhitespace c = false := by
        have := List.head?_dropWhile_not isWhitespace cs
        rw [hhead] at this
        simpa using this
      exact List.dropWhile_cons_of_neg (by simp [hc])
  rw [hfront, hinner, List.rdropWhile_idempotent]

/-! ## What is accepted -/

namespace RepoSlug

/-- Both parts are there and have no slash. -/
structure WellFormed (slug : RepoSlug) : Prop where
  owner_ne : slug.owner.toList ≠ []
  repo_ne : slug.repo.toList ≠ []
  owner_slash : '/' ∉ slug.owner.toList
  repo_slash : '/' ∉ slug.repo.toList

theorem toList_display (slug : RepoSlug) :
    slug.display.toList = slug.owner.toList ++ '/' :: slug.repo.toList := by
  unfold display
  rw [String.toList_ofList]

theorem fromStr_ok {s : String} {slug : RepoSlug} (h : fromStr s = .ok slug) :
    slug.WellFormed ∧ trim s.toList = slug.display.toList := by
  unfold fromStr at h
  split at h
  · cases h
  · next owner repo hsplit =>
    obtain ⟨htrim, hslash⟩ := splitOnce_eq_some hsplit
    split at h
    · cases h
    split at h
    · cases h
    split at h
    · cases h
    next ho hr hx =>
    cases h
    rw [toList_display]
    refine ⟨⟨?_, ?_, ?_, ?_⟩, ?_⟩ <;> simp only [String.toList_ofList]
    · exact fun hnil => ho (by rw [hnil]; rfl)
    · exact fun hnil => hr (by rw [hnil]; rfl)
    · exact hslash
    · exact hx
    · exact htrim

theorem fromStr_of_trim {s : String} {slug : RepoSlug} (h : slug.WellFormed)
    (ht : trim s.toList = slug.display.toList) : fromStr s = .ok slug := by
  unfold fromStr
  rw [ht, toList_display, splitOnce_append h.owner_slash]
  dsimp only
  rw [if_neg (by simpa using h.owner_ne), if_neg (by simpa using h.repo_ne), if_neg h.repo_slash,
    String.ofList_toList, String.ofList_toList]

end RepoSlug

/-- The argument of `put` is accepted exactly if it is, up to blanks around it, the text of a slug
with an owner and a repository that have no slash; the slug is the one of that text, and its own
text is read as the same slug. -/
theorem repo_slug_parsed_iff (s : String) (slug : RepoSlug) :
    (RepoSlug.fromStr s = .ok slug ↔ slug.WellFormed ∧ trim s.toList = slug.display.toList) ∧
    (RepoSlug.fromStr s = .ok slug → RepoSlug.fromStr slug.display = .ok slug) := by
  refine ⟨⟨RepoSlug.fromStr_ok, fun h => RepoSlug.fromStr_of_trim h.1 h.2⟩, ?_⟩
  intro h
  obtain ⟨hwell, htrim⟩ := RepoSlug.fromStr_ok h
  apply RepoSlug.fromStr_of_trim hwell
  rw [← htrim, trim_trim]

example : RepoSlug.fromStr " octocat/hello-world\n" = .ok ⟨"octocat", "hello-world"⟩ := by
  decide +kernel

end Comenq
