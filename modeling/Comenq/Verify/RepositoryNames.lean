import Comenq.Client.Output
import Comenq.Client.Slug

/-!
# Names of repositories

The model of `validate_request` in `queue.rs`, the check made before a request is queued, and what
it is for: the owner and the repository of a queued comment can alter neither a path nor a line of
output (`accepted_names_harmless`). They are printed as they are, they are no relative path, and the
client reads the slug that `list` prints back as the same repository.
-/

namespace Comenq

open JsonText

/-- The ASCII letters and digits, dot, underscore and hyphen. -/
def isComponentByte (byte : UInt8) : Bool :=
  (48 ≤ byte.toNat && byte.toNat ≤ 57) || (65 ≤ byte.toNat && byte.toNat ≤ 90) ||
    (97 ≤ byte.toNat && byte.toNat ≤ 122) || byte.toNat == 46 || byte.toNat == 95 ||
    byte.toNat == 45

/-- Whether a GitHub owner or repository name is safe at this boundary. -/
def isSafeRepositoryComponent (component : String) : Bool :=
  component != "" && component != "." && component != ".." && (utf8 component).all isComponentByte

/-- Reject repository components that could alter paths, URLs, or terminal output; the error says
which one it is. -/
def validateRequest (request : CommentRequest) : Except String Unit :=
  if !isSafeRepositoryComponent request.owner then .error "owner"
  else if !isSafeRepositoryComponent request.repo then .error "name"
  else .ok ()

/-! ## Characters of a safe component -/

/-- The code points of the accepted bytes. -/
def isComponentChar (c : Char) : Prop :=
  (48 ≤ c.toNat ∧ c.toNat ≤ 57) ∨ (65 ≤ c.toNat ∧ c.toNat ≤ 90) ∨ (97 ≤ c.toNat ∧ c.toNat ≤ 122) ∨
    c.toNat = 46 ∨ c.toNat = 95 ∨ c.toNat = 45

/-- The first byte of a longer encoding has its high bit set, so a character is accepted only if it
is encoded as itself. -/
theorem isComponentChar_of_bytes {c : Char}
    (h : ∀ byte ∈ String.utf8EncodeChar c, isComponentByte byte = true) : isComponentChar c := by
  have hbyte : ∀ n, isComponentByte (UInt8.ofNat n) = true → n % 256 < 128 ∧
      (n < 128 → (48 ≤ n ∧ n ≤ 57) ∨ (65 ≤ n ∧ n ≤ 90) ∨ (97 ≤ n ∧ n ≤ 122) ∨
        n = 46 ∨ n = 95 ∨ n = 45) := by
    intro n hn
    unfold isComponentByte at hn
    rw [UInt8.toNat_ofNat'] at hn
    simp only [Bool.or_eq_true, Bool.and_eq_true, decide_eq_true_eq, beq_iff_eq] at hn
    omega
  unfold String.utf8EncodeChar at h
  simp only at h
  split at h
  · next hle => exact (hbyte _ (h _ List.mem_cons_self)).2 (Nat.lt_succ_of_le hle)
  · split at h
    · have hfirst := (hbyte _ (h _ List.mem_cons_self)).1
      omega
    · split at h
      · have hfirst := (hbyte _ (h _ List.mem_cons_self)).1
        omega
      · have hfirst := (hbyte _ (h _ List.mem_cons_self)).1
        omega

theorem isComponentChar_of_safe {component : String}
    (h : isSafeRepositoryComponent component = true) {c : Char} (hc : c ∈ component.toList) :
    isComponentChar c := by
  unfold isSafeRepositoryComponent at h
  rw [Bool.and_eq_true, List.all_eq_true] at h
  exact isComponentChar_of_bytes fun byte hbyte => h.2 byte (List.mem_flatMap.2 ⟨c, hc, hbyte⟩)

namespace isComponentChar

variable {c : Char} (h : isComponentChar c)
include h

theorem isUnsafe_eq : isUnsafe c = false := by
  unfold isComponentChar at h
  unfold isUnsafe
  simp only [Bool.or_eq_false_iff, Bool.and_eq_false_iff, decide_eq_false_iff_not]
  omega

theorem isWhitespace_eq : isWhitespace c = false := by
  unfold isComponentChar at h
  unfold isWhitespace
  simp only [Bool.or_eq_false_iff, Bool.and_eq_false_iff, decide_eq_false_iff_not,
    beq_eq_false_iff_ne]
  omega

theorem ne_slash : c ≠ '/' := by
  rintro rfl
  revert h
  unfold isComponentChar
  decide

end isComponentChar

/-! ## Texts -/

theorem terminalSafe_eq_self {value : String} (h : SafeText value) :
    terminalSafe value = value := by
  have hchars : (value.toList.flatMap fun c => if isUnsafe c then escapeDefault c else [c]) =
      value.toList.flatMap fun c => [c] := by
    apply List.flatMap_congr
    intro c hc
    rw [h c hc, if_neg Bool.false_ne_true]
  unfold terminalSafe
  rw [hchars, List.flatMap_singleton', String.ofList_toList]

/-- Text without blanks is not trimmed. -/
theorem trim_eq_self {cs : List Char} (h : ∀ c ∈ cs, isWhitespace c = false) : trim cs = cs := by
  have hfront : cs.dropWhile isWhitespace = cs := by
    cases cs with
    | nil => rfl
    | cons c rest => exact List.dropWhile_cons_of_neg (by simp [h c List.mem_cons_self])
  rw [trim_eq, hfront, List.rdropWhile_eq_self_iff]
  intro hne
  simp [h _ (List.getLast_mem hne)]

/-! ## Accepted requests -/

theorem safe_of_validateRequest {request : CommentRequest} (h : validateRequest request = .ok ()) :
    isSafeRepositoryComponent request.owner = true ∧
    isSafeRepositoryComponent request.repo = true := by
  unfold validateRequest at h
  split at h
  · cases h
  split at h
  · cases h
  next howner hrepo => exact ⟨by simpa using howner, by simpa using hrepo⟩

/-- Whatever request the daemon queues: its owner and its repository are neither empty nor a
relative path, have no slash, and are printed as they are, so a listed comment shows its slug; and
the client reads that slug as the same repository. -/
theorem accepted_names_harmless {request : CommentRequest} (h : validateRequest request = .ok ()) :
    (∀ name ∈ [request.owner, request.repo], name ≠ "" ∧ name ≠ "." ∧ name ≠ ".." ∧
      '/' ∉ name.toList ∧ terminalSafe name = name) ∧
    renderTarget request.owner request.repo request.prNumber =
      RepoSlug.display ⟨request.owner, request.repo⟩ ++ "#" ++ decimalText request.prNumber.toNat ∧
    RepoSlug.fromStr (RepoSlug.display ⟨request.owner, request.repo⟩) =
      .ok ⟨request.owner, request.repo⟩ := by
  obtain ⟨howner, hrepo⟩ := safe_of_validateRequest h
  have hname : ∀ name, isSafeRepositoryComponent name = true → name ≠ "" ∧ name ≠ "." ∧
      name ≠ ".." ∧ '/' ∉ name.toList ∧ terminalSafe name = name := by
    intro name hsafe
    have hchars : ∀ c ∈ name.toList, isComponentChar c :=
      fun c hc => isComponentChar_of_safe hsafe hc
    unfold isSafeRepositoryComponent at hsafe
    simp only [Bool.and_eq_true, bne_iff_ne] at hsafe
    obtain ⟨⟨⟨hempty, hdot⟩, hparent⟩, -⟩ := hsafe
    refine ⟨hempty, hdot, hparent, fun hslash => (hchars _ hslash).ne_slash rfl, ?_⟩
    exact terminalSafe_eq_self fun c hc => (hchars c hc).isUnsafe_eq
  obtain ⟨hoempty, -, -, hoslash, hoprinted⟩ := hname _ howner
  obtain ⟨hrempty, -, -, hrslash, hrprinted⟩ := hname _ hrepo
  refine ⟨?_, ?_, ?_⟩
  · intro name hmem
    simp only [List.mem_cons, List.not_mem_nil, or_false] at hmem
    rcases hmem with rfl | rfl
    · exact hname _ howner
    · exact hname _ hrepo
  · have hslug : RepoSlug.display ⟨request.owner, request.repo⟩ =
        request.owner ++ "/" ++ request.repo := by
      apply String.toList_inj.1
      simp [RepoSlug.toList_display]
    unfold renderTarget
    rw [hoprinted, hrprinted, hslug]
  · apply RepoSlug.fromStr_of_trim ⟨?_, ?_, hoslash, hrslash⟩
    · apply trim_eq_self
      intro c hc
      rw [RepoSlug.toList_display, List.mem_append, List.mem_cons] at hc
      rcases hc with hc | rfl | hc
      · exact (isComponentChar_of_safe howner hc).isWhitespace_eq
      · decide
      · exact (isComponentChar_of_safe hrepo hc).isWhitespace_eq
    · exact fun hnil => hoempty (String.toList_eq_nil_iff.1 hnil)
    · exact fun hnil => hrempty (String.toList_eq_nil_iff.1 hnil)

theorem accepted_names_harmless_sample :
    validateRequest ⟨"octocat", "hello-world", 7, "ping"⟩ = .ok () ∧
    RepoSlug.fromStr (RepoSlug.display ⟨"octocat", "hello-world"⟩) =
    .ok ⟨"octocat", "hello-world"⟩ := by
  have haccepted : validateRequest ⟨"octocat", "hello-world", 7, "ping"⟩ = .ok () := by
    decide +kernel
  exact ⟨haccepted, (accepted_names_harmless haccepted).2.2⟩

end Comenq
