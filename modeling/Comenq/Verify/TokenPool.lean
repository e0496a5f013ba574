import Comenq.Client.Slug
import Comenq.Daemon.Tokens
import Mathlib.Data.List.Forall2

/-!
# The token pool

`resolve_pool` accepts a list of token files exactly if each path expands, each file can be read and
holds a token, and no two of them hold the same one; the pool then has the files' tokens in the
configured order (`token_pool_resolved_iff`). Otherwise the error is that of the first file at
fault. It names the file, and for a repeated token the earlier file as well, except that a path that
does not expand is named by its placeholder: there is no file yet.

`Expands` and `FileReads` say what the two steps for a file give, apart from how they go about it.
The loop carries the pool and the paths of the tokens seen (`resolveFiles_append`), so a file is
judged by the files before it.
-/

namespace Comenq

open JsonText Text

/-! ## Paths -/

/-- What a configured path stands for. Only a placeholder at its very start is looked at. -/
inductive Expands (h : Host) : Bytes → Except TokenPathError Bytes → Prop
  | plain {path : Bytes} (start : ∀ rest, path ≠ utf8 ("$\x7b" ++ rest)) : Expands h path (.ok path)
  | malformed {rest : String} (unclosed : '\x7d' ∉ rest.toList) :
      Expands h (utf8 ("$\x7b" ++ rest)) (.error (.malformed ("$\x7b" ++ rest)))
  | unset {name tail : String} (closed : '\x7d' ∉ name.toList) (missing : h.var name = none) :
      Expands h (utf8 ("$\x7b" ++ (name ++ "\x7d" ++ tail))) (.error (.unset name))
  | set {name tail value : String} (closed : '\x7d' ∉ name.toList)
      (found : h.var name = some value) :
      Expands h (utf8 ("$\x7b" ++ (name ++ "\x7d" ++ tail))) (.ok (utf8 (value ++ tail)))

theorem decodeUtf8_utf8 (s : String) : decodeUtf8 (utf8 s) = some s.toList := decodeUtf8_flatMap _

theorem utf8_ofList (cs : List Char) :
    utf8 (String.ofList cs) = cs.flatMap String.utf8EncodeChar := by
  unfold utf8
  rw [String.toList_ofList]

theorem expandTokenPath_placeholder (h : Host) (rest : String) :
    expandTokenPath h (utf8 ("$\x7b" ++ rest)) =
      (splitOnce '\x7d' rest.toList).elim (.error (.malformed ("$\x7b" ++ rest))) fun parts =>
        (h.var (String.ofList parts.1)).elim (.error (.unset (String.ofList parts.1))) fun value =>
          .ok (utf8 (value ++ String.ofList parts.2)) := by
  have htext : ("$\x7b" ++ rest).toList = '$' :: '\x7b' :: rest.toList := by simp
  have hwhole : String.ofList ('$' :: '\x7b' :: rest.toList) = "$\x7b" ++ rest := by
    rw [← htext, String.ofList_toList]
  unfold expandTokenPath
  rw [decodeUtf8_utf8, htext]
  simp only [hwhole]
  cases splitOnce '\x7d' rest.toList with
  | none => rfl
  | some parts =>
    obtain ⟨name, tail⟩ := parts
    simp only [Option.elim_some]
    cases h.var (String.ofList name) <;> rfl

/-- The first closing brace ends the name. -/
theorem splitOnce_placeholder {name tail : String} (closed : '\x7d' ∉ name.toList) :
    splitOnce '\x7d' (name ++ "\x7d" ++ tail).toList = some (name.toList, tail.toList) := by
  have htext : (name ++ "\x7d" ++ tail).toList = name.toList ++ '\x7d' :: tail.toList := by simp
  rw [htext, splitOnce_append closed]

theorem Expands.eq {h : Host} {path : Bytes} {result : Except TokenPathError Bytes}
    (he : Expands h path result) : expandTokenPath h path = result := by
  cases he with
  | plain start =>
    unfold expandTokenPath
    cases hd : decodeUtf8 path with
    | none => rfl
    | some text =>
      dsimp only
      split
      · next rest =>
        refine absurd ?_ (start (String.ofList rest))
        rw [decodeUtf8_eq_some_iff.1 hd]
        unfold utf8
        simp
      · rfl
  | malformed unclosed =>
    rw [expandTokenPath_placeholder, splitOnce_eq_none_iff.2 unclosed]
    rfl
  | unset closed missing =>
    rw [expandTokenPath_placeholder, splitOnce_placeholder closed]
    simp [missing]
  | set closed found =>
    rw [expandTokenPath_placeholder, splitOnce_placeholder closed]
    simp [found]

theorem exists_expands (h : Host) (path : Bytes) : ∃ result, Expands h path result := by
  by_cases hstart : ∃ rest, path = utf8 ("$\x7b" ++ rest)
  · obtain ⟨rest, rfl⟩ := hstart
    cases hsplit : splitOnce '\x7d' rest.toList with
    | none => exact ⟨_, .malformed (splitOnce_eq_none_iff.1 hsplit)⟩
    | some parts =>
      obtain ⟨name, tail⟩ := parts
      obtain ⟨hrest, hname⟩ := splitOnce_eq_some_iff.1 hsplit
      have hclosed : '\x7d' ∉ (String.ofList name).toList := by rwa [String.toList_ofList]
      obtain rfl : rest = String.ofList name ++ "\x7d" ++ String.ofList tail := by
        rw [← String.toList_inj, hrest]
        simp
      cases hvar : h.var (String.ofList name) with
      | none => exact ⟨_, .unset hclosed hvar⟩
      | some value => exact ⟨_, .set hclosed hvar⟩
  · exact ⟨_, .plain fun rest heq => hstart ⟨rest, heq⟩⟩

theorem expands_iff {h : Host} {path : Bytes} {result : Except TokenPathError Bytes} :
    Expands h path result ↔ expandTokenPath h path = result := by
  refine ⟨Expands.eq, ?_⟩
  rintro rfl
  obtain ⟨result, he⟩ := exists_expands h path
  rwa [he.eq]

/-! ## Files -/

/-- What reading a file gives. A file over the limit is refused as such only if the limit does not
cut a character. -/
inductive FileReads (h : Host) (path : Bytes) : Except TokenFileReadError String → Prop
  | failed {err : IoError} (unread : h.read path = .error err) : FileReads h path (.error (.io err))
  | undecodable {bytes : Bytes} (found : h.read path = .ok bytes)
      (invalid : ∀ text, bytes.take (maxGithubTokenFileBytes + 1) ≠ utf8 text) :
      FileReads h path (.error (.io invalidUtf8))
  | tooLarge {bytes : Bytes} {text : String} (found : h.read path = .ok bytes)
      (size : maxGithubTokenFileBytes < bytes.length)
      (valid : bytes.take (maxGithubTokenFileBytes + 1) = utf8 text) :
      FileReads h path (.error .tooLarge)
  | contents {contents : String} (found : h.read path = .ok (utf8 contents))
      (size : (utf8 contents).length ≤ maxGithubTokenFileBytes) : FileReads h path (.ok contents)

theorem FileReads.eq {h : Host} {path : Bytes} {result : Except TokenFileReadError String}
    (hr : FileReads h path result) : readTokenFile h path = result := by
  unfold readTokenFile
  cases hr with
  | failed unread => rw [unread]
  | @undecodable bytes found invalid =>
    have hnone : decodeUtf8 (bytes.take (maxGithubTokenFileBytes + 1)) = none := by
      rw [Option.eq_none_iff_forall_ne_some]
      intro text htext
      exact invalid (String.ofList text) (by rw [utf8_ofList, decodeUtf8_eq_some_iff.1 htext])
    rw [found]
    simp only [hnone]
  | @tooLarge bytes text found size valid =>
    have hlength : (utf8 text).length > maxGithubTokenFileBytes := by
      rw [← valid, List.length_take, Nat.min_eq_left size]
      exact Nat.lt_succ_self _
    rw [found]
    simp only [valid, decodeUtf8_utf8, if_pos hlength]
  | @contents contents found size =>
    have htake := List.take_of_length_le (Nat.le_succ_of_le size)
    rw [found]
    simp only [htake, decodeUtf8_utf8, if_neg (Nat.not_lt.2 size), String.ofList_toList]

theorem exists_fileReads (h : Host) (path : Bytes) : ∃ result, FileReads h path result := by
  cases hread : h.read path with
  | error err => exact ⟨_, .failed hread⟩
  | ok bytes =>
    by_cases hvalid : ∃ text, bytes.take (maxGithubTokenFileBytes + 1) = utf8 text
    · obtain ⟨text, htext⟩ := hvalid
      rcases Nat.lt_or_ge maxGithubTokenFileBytes bytes.length with hsize | hsize
      · exact ⟨_, .tooLarge hread hsize htext⟩
      · rw [List.take_of_length_le (Nat.le_succ_of_le hsize)] at htext
        subst htext
        exact ⟨_, .contents hread hsize⟩
    · exact ⟨_, .undecodable hread fun text htext => hvalid ⟨text, htext⟩⟩

theorem fileReads_iff {h : Host} {path : Bytes} {result : Except TokenFileReadError String} :
    FileReads h path result ↔ readTokenFile h path = result := by
  refine ⟨FileReads.eq, ?_⟩
  rintro rfl
  obtain ⟨result, hr⟩ := exists_fileReads h path
  rwa [hr.eq]

/-- A configured path stands for a file, whose contents without the blanks around them are the
token. -/
def Holds (h : Host) (configured file : Bytes) (token : String) : Prop :=
  Expands h configured (.ok file) ∧
    ∃ contents, FileReads h file (.ok contents) ∧ token = String.ofList (trim contents.toList)

theorem Holds.unique {h : Host} {configured file file' : Bytes} {token token' : String}
    (hh : Holds h configured file token) (hh' : Holds h configured file' token') :
    file = file' ∧ token = token' := by
  obtain ⟨hexpands, contents, hreads, rfl⟩ := hh
  obtain ⟨hexpands', contents', hreads', rfl⟩ := hh'
  rw [expands_iff] at hexpands hexpands'
  obtain rfl := Except.ok.inj (hexpands.symm.trans hexpands')
  rw [fileReads_iff] at hreads hreads'
  obtain rfl := Except.ok.inj (hreads.symm.trans hreads')
  exact ⟨rfl, rfl⟩

/-! ## Pools -/

/-- The member of the pool for a configured file. -/
def Named (h : Host) (configured : Bytes) (named : NamedToken) : Prop :=
  named.name = tokenName configured ∧ named.token ≠ "" ∧ ∃ file, Holds h configured file named.token

/-- The pool of files that can all be used. -/
structure PoolOf (h : Host) (files : List Bytes) (pool : List NamedToken) : Prop where
  named : List.Forall₂ (Named h) files pool
  distinct : (pool.map NamedToken.token).Nodup

/-- Why `configured` is rejected after the files `before` it. -/
inductive Rejected (h : Host) (before : List Bytes) (configured : Bytes) : IoError → Prop
  | path {err : TokenPathError} (expands : Expands h configured (.error err)) :
      Rejected h before configured (tokenPathIoError err)
  | file {file : Bytes} {err : TokenFileReadError} (expands : Expands h configured (.ok file))
      (reads : FileReads h file (.error err)) :
      Rejected h before configured (tokenFileIoError h file err)
  | empty {file : Bytes} (holds : Holds h configured file "") :
      Rejected h before configured (emptyTokenError h file)
  | repeated {earlier previous file : Bytes} {token : String} (filled : token ≠ "")
      (mem : earlier ∈ before) (held : Holds h earlier previous token)
      (holds : Holds h configured file token) :
      Rejected h before configured (sameTokenError h previous file)

namespace PoolOf

variable {h : Host} {files before after : List Bytes} {configured : Bytes}
  {pool pool' : List NamedToken}

theorem nil : PoolOf h [] [] := ⟨.nil, List.nodup_nil⟩

/-- One more file with a new token. -/
theorem concat (hp : PoolOf h before pool) {file : Bytes} {token : String}
    (hholds : Holds h configured file token) (hfilled : token ≠ "")
    (hnew : token ∉ pool.map NamedToken.token) :
    PoolOf h (before ++ [configured]) (pool ++ [⟨tokenName configured, token⟩]) where
  named := List.rel_append hp.named (.cons ⟨rfl, hfilled, file, hholds⟩ .nil)
  distinct := by
    rw [List.map_append, List.nodup_append]
    refine ⟨hp.distinct, List.nodup_singleton _, ?_⟩
    intro t hmem t' hmem' heq
    obtain rfl := List.mem_singleton.1 hmem'
    exact hnew (heq ▸ hmem)

/-- A pool without its last file, whose token is new to the others. -/
theorem of_concat (hp : PoolOf h (before ++ [configured]) pool) :
    ∃ front named, pool = front ++ [named] ∧ PoolOf h before front ∧ Named h configured named ∧
      named.token ∉ front.map NamedToken.token := by
  have hlast := List.forall₂_drop before.length hp.named
  rw [List.drop_left] at hlast
  obtain ⟨named, none, hnamed, hnil, hdrop⟩ := List.forall₂_cons_left_iff.1 hlast
  obtain rfl := List.forall₂_nil_left_iff.1 hnil
  have hsplit : pool = pool.take before.length ++ [named] := by
    rw [← hdrop, List.take_append_drop]
  have hfront := List.forall₂_take before.length hp.named
  rw [List.take_left] at hfront
  have hdistinct := hp.distinct
  rw [hsplit, List.map_append, List.nodup_append] at hdistinct
  exact ⟨_, named, hsplit, ⟨hfront, hdistinct.1⟩, hnamed,
    fun hmem => hdistinct.2.2 _ hmem _ (List.mem_singleton_self _) rfl⟩

/-- The tokens of the pool are those of its files. -/
theorem mem_tokens_iff (hp : PoolOf h files pool) {token : String} :
    token ∈ pool.map NamedToken.token ↔
      ∃ configured ∈ files, ∃ file, Holds h configured file token := by
  obtain ⟨hnamed, -⟩ := hp
  induction hnamed with
  | nil => simp
  | cons hfirst _ ih =>
    obtain ⟨-, -, file, hholds⟩ := hfirst
    rw [List.map_cons, List.mem_cons, ih, List.exists_mem_cons_iff]
    refine or_congr_left ⟨?_, ?_⟩
    · rintro rfl
      exact ⟨file, hholds⟩
    · rintro ⟨file', hholds'⟩
      exact (hholds'.unique hholds).2

end PoolOf

/-! ## The loop -/

/-- The paths by token, once the files `before` are read. -/
def Seen (h : Host) (before : List Bytes) (seen : List (String × Bytes)) : Prop :=
  ∀ token path, seen.lookup token = some path ↔ ∃ configured ∈ before, Holds h configured path token

section Loop

variable {h : Host} {before files : List Bytes} {configured file : Bytes} {token : String}
  {seen : List (String × Bytes)} {pool : List NamedToken}

theorem Seen.lookup_none (hs : Seen h before seen) (hp : PoolOf h before pool)
    (hnew : token ∉ pool.map NamedToken.token) : seen.lookup token = none := by
  rw [Option.eq_none_iff_forall_ne_some]
  intro path hpath
  obtain ⟨earlier, hmem, hholds⟩ := (hs token path).1 hpath
  exact hnew (hp.mem_tokens_iff.2 ⟨earlier, hmem, path, hholds⟩)

theorem Seen.concat (hs : Seen h before seen) (hholds : Holds h configured file token)
    (hnone : seen.lookup token = none) :
    Seen h (before ++ [configured]) ((token, file) :: seen) := by
  intro token' path
  simp only [List.mem_append, List.mem_singleton, or_and_right, exists_or, exists_eq_left]
  rw [← hs token' path]
  by_cases heq : token' = token
  · subst heq
    rw [List.lookup_cons_self, hnone, Option.some.injEq]
    constructor
    · rintro rfl
      exact Or.inr hholds
    · rintro (hsome | hholds')
      · cases hsome
      · exact (hholds.unique hholds').1
  · rw [List.lookup_cons, beq_false_of_ne heq]
    refine ⟨Or.inl, Or.rec id fun hholds' => ?_⟩
    exact absurd (hholds.unique hholds').2.symm heq

/-- The loop goes on behind a file with a new token. -/
theorem resolveFiles_cons (hholds : Holds h configured file token) (hfilled : token ≠ "")
    (hnone : seen.lookup token = none) :
    resolveFiles h (configured :: files) seen pool =
      resolveFiles h files ((token, file) :: seen) (pool ++ [⟨tokenName configured, token⟩]) := by
  obtain ⟨hexpands, contents, hreads, rfl⟩ := hholds
  rw [resolveFiles, expands_iff.1 hexpands]
  simp only [fileReads_iff.1 hreads, if_neg hfilled, hnone]

/-- It stops at a file that is rejected. -/
theorem resolveFiles_rejected (hs : Seen h before seen) {err : IoError}
    (hrejected : Rejected h before configured err) :
    resolveFiles h (configured :: files) seen pool = .error err := by
  rw [resolveFiles]
  cases hrejected with
  | path expands => rw [expands_iff.1 expands]
  | file expands reads =>
    rw [expands_iff.1 expands]
    simp only [fileReads_iff.1 reads]
  | empty holds =>
    obtain ⟨expands, contents, reads, hblank⟩ := holds
    rw [expands_iff.1 expands]
    simp only [fileReads_iff.1 reads, if_pos hblank.symm]
  | repeated filled mem held holds =>
    have hprevious := (hs _ _).2 ⟨_, mem, held⟩
    obtain ⟨expands, contents, reads, rfl⟩ := holds
    rw [expands_iff.1 expands]
    simp only [fileReads_iff.1 reads, if_neg filled, hprevious]

/-- Behind files that can all be used, the loop has their pool and their paths. -/
theorem resolveFiles_append (hp : PoolOf h before pool) (files : List Bytes) :
    ∃ seen, Seen h before seen ∧
      resolveFiles h (before ++ files) [] [] = resolveFiles h files seen pool := by
  induction before using List.reverseRecOn generalizing pool files with
  | nil =>
    obtain rfl := List.forall₂_nil_left_iff.1 hp.named
    exact ⟨[], fun token path => by simp, rfl⟩
  | append_singleton before configured ih =>
    obtain ⟨front, named, rfl, hfront, ⟨hname, hfilled, file, hholds⟩, hnew⟩ := hp.of_concat
    obtain ⟨seen, hs, hresolve⟩ := ih hfront (configured :: files)
    have hnone := hs.lookup_none hfront hnew
    refine ⟨_, hs.concat hholds hnone, ?_⟩
    rw [List.append_assoc, List.singleton_append, hresolve, resolveFiles_cons hholds hfilled hnone,
      ← hname]

/-- Every file behind such files is rejected or has a new token. -/
theorem PoolOf.next (hp : PoolOf h before pool) (configured : Bytes) :
    (∃ err, Rejected h before configured err) ∨
      ∃ all, PoolOf h (before ++ [configured]) all := by
  obtain ⟨expanded, hexpands⟩ := exists_expands h configured
  cases expanded with
  | error err => exact Or.inl ⟨_, .path hexpands⟩
  | ok file =>
    obtain ⟨result, hreads⟩ := exists_fileReads h file
    cases result with
    | error err => exact Or.inl ⟨_, .file hexpands hreads⟩
    | ok contents =>
      have hholds : Holds h configured file (String.ofList (trim contents.toList)) :=
        ⟨hexpands, contents, hreads, rfl⟩
      by_cases hblank : String.ofList (trim contents.toList) = ""
      · exact Or.inl ⟨_, .empty (hblank ▸ hholds)⟩
      · by_cases hmem : String.ofList (trim contents.toList) ∈ pool.map NamedToken.token
        · obtain ⟨earlier, hearlier, previous, hheld⟩ := hp.mem_tokens_iff.1 hmem
          exact Or.inl ⟨_, .repeated hblank hearlier hheld hholds⟩
        · exact Or.inr ⟨_, hp.concat hholds hblank hmem⟩

end Loop

/-- Some file is rejected, and the files before it can all be used. -/
def Fails (h : Host) (files : List Bytes) (err : IoError) : Prop :=
  ∃ before configured after, files = before ++ configured :: after ∧
    (∃ pool, PoolOf h before pool) ∧ Rejected h before configured err

theorem poolOf_or_fails (h : Host) (files : List Bytes) :
    (∃ pool, PoolOf h files pool) ∨ ∃ err, Fails h files err := by
  induction files using List.reverseRecOn with
  | nil => exact Or.inl ⟨[], .nil⟩
  | append_singleton files configured ih =>
    rcases ih with ⟨pool, hp⟩ | ⟨err, before, c, after, rfl, hfails⟩
    · rcases hp.next configured with ⟨err, hrejected⟩ | hall
      · exact Or.inr ⟨err, files, configured, [], rfl, ⟨pool, hp⟩, hrejected⟩
      · exact Or.inl hall
    · exact Or.inr ⟨err, before, c, after ++ [configured], by simp, hfails⟩

theorem resolveFiles_of_poolOf {h : Host} {files : List Bytes} {pool : List NamedToken}
    (hp : PoolOf h files pool) : resolveFiles h files [] [] = .ok pool := by
  obtain ⟨seen, -, hresolve⟩ := resolveFiles_append hp []
  rw [List.append_nil] at hresolve
  rw [hresolve, resolveFiles]

theorem resolveFiles_of_fails {h : Host} {files : List Bytes} {err : IoError}
    (hf : Fails h files err) : resolveFiles h files [] [] = .error err := by
  obtain ⟨before, configured, after, rfl, ⟨pool, hp⟩, hrejected⟩ := hf
  obtain ⟨seen, hs, hresolve⟩ := resolveFiles_append hp (configured :: after)
  rw [hresolve, resolveFiles_rejected hs hrejected]

/-- The loop accepts exactly the files that can all be used, and its error is that of the first one
that cannot. -/
theorem resolveFiles_iff (h : Host) (files : List Bytes) :
    (∀ pool, resolveFiles h files [] [] = .ok pool ↔ PoolOf h files pool) ∧
    ∀ err, resolveFiles h files [] [] = .error err ↔ Fails h files err := by
  refine ⟨fun pool => ⟨fun hok => ?_, resolveFiles_of_poolOf⟩,
    fun err => ⟨fun herror => ?_, resolveFiles_of_fails⟩⟩
  · rcases poolOf_or_fails h files with ⟨all, hp⟩ | ⟨err, hf⟩
    · rw [resolveFiles_of_poolOf hp] at hok
      exact Except.ok.inj hok ▸ hp
    · rw [resolveFiles_of_fails hf] at hok
      cases hok
  · rcases poolOf_or_fails h files with ⟨all, hp⟩ | ⟨err', hf⟩
    · rw [resolveFiles_of_poolOf hp] at herror
      cases herror
    · rw [resolveFiles_of_fails hf] at herror
      exact Except.error.inj herror ▸ hf

theorem fails_nil (h : Host) (err : IoError) : ¬ Fails h [] err := by
  rintro ⟨before, configured, after, hnil, -⟩
  cases before <;> cases hnil

theorem resolvePool_cons (h : Host) (first : Bytes) (rest : List Bytes) (inline : String) :
    resolvePool h (first :: rest) inline = resolveFiles h (first :: rest) [] [] := rfl

/-- The daemon can start with the pool: it has a token, none of them is blank, and their clients
have different hashes if the hash tells the tokens apart. -/
structure Usable (pool : List NamedToken) : Prop where
  nonempty : pool ≠ []
  filled : ∀ named ∈ pool, trim named.token.toList ≠ []
  hashes : ∀ tokenHash, Set.InjOn tokenHash {t | t ∈ pool.map NamedToken.token} →
    ((pool.map (TokenClient.new tokenHash)).map TokenClient.hash).Nodup

theorem hashes_nodup {pool : List NamedToken} (hdistinct : (pool.map NamedToken.token).Nodup)
    (tokenHash : String → String) (hinj : Set.InjOn tokenHash {t | t ∈ pool.map NamedToken.token}) :
    ((pool.map (TokenClient.new tokenHash)).map TokenClient.hash).Nodup := by
  have hmap : (pool.map (TokenClient.new tokenHash)).map TokenClient.hash =
      (pool.map NamedToken.token).map tokenHash := by
    rw [List.map_map, List.map_map]
    rfl
  rw [hmap]
  exact (List.nodup_map_iff_inj_on hdistinct).2 hinj

theorem usable_inline {inline : String} :
    Usable [⟨"default", inline⟩] ↔ trim inline.toList ≠ [] := by
  refine ⟨fun hu => hu.filled _ (List.mem_singleton_self _),
    fun hfilled => ⟨List.cons_ne_nil _ _, ?_, ?_⟩⟩
  · intro named hmem
    obtain rfl := List.mem_singleton.1 hmem
    exact hfilled
  · exact hashes_nodup (List.nodup_singleton _)

theorem PoolOf.usable {h : Host} {files : List Bytes} {pool : List NamedToken}
    (hp : PoolOf h files pool) (hne : files ≠ []) : Usable pool := by
  refine ⟨?_, ?_, hashes_nodup hp.distinct⟩
  · rintro rfl
    exact hne (List.forall₂_nil_right_iff.1 hp.named)
  · obtain ⟨hnamed, -⟩ := hp
    clear hne
    induction hnamed with
    | nil => exact List.forall_mem_nil _
    | cons hfirst _ ih =>
      obtain ⟨-, hfilled, file, -, contents, -, htoken⟩ := hfirst
      refine List.forall_mem_cons.2 ⟨fun hblank => hfilled ?_, ih⟩
      rw [htoken, String.toList_ofList, trim_trim] at hblank
      rw [htoken, hblank, String.ofList_nil]

/-- Without files the pool is the inline token. Otherwise it has the tokens of the files in their
order, each with its file's name, and is accepted exactly if every path expands, every file can be
read and holds a token, and no two hold the same one; the error is that of the first file at fault,
behind files that can be used. The daemon takes an accepted pool unless there are no files and the
inline token is blank. So it starts with a token, none of them blank, and its clients have different
hashes if the hash tells the tokens apart. -/
theorem token_pool_resolved_iff (h : Host) (files : List Bytes) (inline : String) :
    (∀ pool, resolvePool h files inline = .ok pool ↔
      files = [] ∧ pool = [⟨"default", inline⟩] ∨ files ≠ [] ∧ PoolOf h files pool) ∧
    (∀ err, resolvePool h files inline = .error err ↔ Fails h files err) ∧
    ∀ pool, githubTokens h files inline = .ok pool ↔
      resolvePool h files inline = .ok pool ∧ Usable pool := by
  cases files with
  | nil =>
    have hresolve : resolvePool h [] inline = .ok [⟨"default", inline⟩] := rfl
    rw [hresolve]
    refine ⟨fun pool => ?_, fun err => iff_of_false nofun (fails_nil h err), fun pool => ?_⟩
    · simp [eq_comm]
    · unfold githubTokens
      by_cases hblank : trim inline.toList = []
      · refine iff_of_false (by simp [hblank]) ?_
        rintro ⟨hpool, husable⟩
        obtain rfl := Except.ok.inj hpool
        exact usable_inline.1 husable hblank
      · rw [if_neg (by simp [hblank]), hresolve, iff_self_and]
        intro hpool
        obtain rfl := Except.ok.inj hpool
        exact usable_inline.2 hblank
  | cons first rest =>
    obtain ⟨hok, herror⟩ := resolveFiles_iff h (first :: rest)
    have hne : first :: rest ≠ [] := List.cons_ne_nil _ _
    have hdaemon : githubTokens h (first :: rest) inline = resolvePool h (first :: rest) inline :=
      rfl
    rw [hdaemon, resolvePool_cons]
    refine ⟨fun pool => ?_, herror, fun pool => ⟨fun hpool => ⟨hpool, ?_⟩, And.left⟩⟩
    · rw [hok]
      simp
    · exact ((hok pool).1 hpool).usable hne

/-- A host with two token files, one of them in a directory that a variable names. -/
def sampleHost : Host where
  var name := if name = "SECRETS" then some "/run" else none
  read path :=
    if path = utf8 ("/run" ++ "/first") then .ok (utf8 " ghp_one\n")
    else if path = utf8 "/etc/second" then .ok (utf8 "ghp_two")
    else .error ⟨.notFound, "No such file or directory (os error 2)"⟩
  lossy _ := ""

def samplePlaceholder : Bytes := utf8 ("$\x7b" ++ ("SECRETS" ++ "\x7d" ++ "/first"))
def samplePlain : Bytes := utf8 "/etc/second"
def sampleNope : Bytes := utf8 ("$\x7b" ++ ("NOPE" ++ "\x7d" ++ "/first"))

theorem token_pool_resolved_iff_files :
    resolvePool sampleHost [samplePlaceholder, samplePlain] "" =
      .ok [⟨"first", "ghp_one"⟩, ⟨"second", "ghp_two"⟩] ∧
    PoolOf sampleHost [samplePlaceholder, samplePlain]
      [⟨"first", "ghp_one"⟩, ⟨"second", "ghp_two"⟩] ∧
    Fails sampleHost [samplePlaceholder, sampleNope]
      ⟨.notFound, "environment variable 'NOPE' is not set"⟩ := by
  have hpool : resolvePool sampleHost [samplePlaceholder, samplePlain] "" =
      .ok [⟨"first", "ghp_one"⟩, ⟨"second", "ghp_two"⟩] := by decide +kernel
  have herror : resolvePool sampleHost [samplePlaceholder, sampleNope] "" =
      .error ⟨.notFound, "environment variable 'NOPE' is not set"⟩ := by decide +kernel
  obtain ⟨haccepts, -, -⟩ := token_pool_resolved_iff sampleHost [samplePlaceholder, samplePlain] ""
  obtain ⟨-, hfails, -⟩ := token_pool_resolved_iff sampleHost [samplePlaceholder, sampleNope] ""
  obtain ⟨hnil, -⟩ | ⟨-, hp⟩ := (haccepts _).1 hpool
  · cases hnil
  · exact ⟨hpool, hp, (hfails _).1 herror⟩

end Comenq
