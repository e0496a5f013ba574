import Comenq.Lib.Text
import Comenq.Store.Types
import Comenq.Lib.JsonText

/-!
# Token files

The model of `config/tokens.rs`, of the token files of `config/single_token.rs` and of
`github_tokens` in `config/token_resolution.rs`: how the daemon gets its pool of tokens at startup.
Paths are bytes, as they are on Unix. A `Host` stands for what the daemon finds there, and it does
not change while the pool is read.
-/

namespace Comenq

open JsonText Text

/-! ## Errors -/

/-- The kinds that are named here, and the others, which are only passed on. -/
inductive ErrorKind
  | notFound
  | invalidInput
  | invalidData
  | other (code : Nat)
deriving DecidableEq, Repr

/-- An error that stops the daemon, with the text it is shown with. -/
structure IoError where
  kind : ErrorKind
  message : String
deriving DecidableEq, Repr

/-- Failure while reading a bounded token file. -/
inductive TokenFileReadError
  | io (error : IoError)
  | tooLarge
deriving DecidableEq, Repr

/-- Failure while expanding a leading environment-variable path. -/
inductive TokenPathError
  | malformed (text : String)
  | unset (name : String)
deriving DecidableEq, Repr

/-- The error of `read_to_string` for bytes that are not UTF-8. -/
def invalidUtf8 : IoError := ⟨.invalidData, "stream did not contain valid UTF-8"⟩

/-! ## Files -/

/-- What the daemon finds: the environment variables whose values are UTF-8, what opening and
reading a file gives, and how a path is shown that is not UTF-8. -/
structure Host where
  var : String → Option String
  read : Bytes → Except IoError Bytes
  lossy : Bytes → String

def Host.display (h : Host) (path : Bytes) : String :=
  match decodeUtf8 path with
  | some text => String.ofList text
  | none => h.lossy path

/-- Largest credential file accepted at daemon startup, in bytes. -/
def maxGithubTokenFileBytes : Nat := 64 * 1024

/-- Read one UTF-8 token file while limiting the amount of input retained. -/
def readTokenFile (h : Host) (path : Bytes) : Except TokenFileReadError String :=
  match h.read path with
  | .error err => .error (.io err)
  | .ok bytes =>
    -- one byte more than the limit is read, so a character may be cut there
    let contents := bytes.take (maxGithubTokenFileBytes + 1)
    match decodeUtf8 contents with
    | none => .error (.io invalidUtf8)
    | some text =>
      if contents.length > maxGithubTokenFileBytes then .error .tooLarge
      else .ok (String.ofList text)

/-- Expand a leading placeholder for an environment variable in a token-file path. -/
def expandTokenPath (h : Host) (path : Bytes) : Except TokenPathError Bytes :=
  match decodeUtf8 path with
  | none => .ok path
  | some text =>
    match text with
    | '$' :: '\x7b' :: rest =>
      match splitOnce '\x7d' rest with
      | none => .error (.malformed (String.ofList text))
      | some (name, tail) =>
        match h.var (String.ofList name) with
        | none => .error (.unset (String.ofList name))
        | some value => .ok (utf8 (value ++ String.ofList tail))
    | _ => .ok path

/-- The last component of a path, unless it is the root or the parent directory. -/
def fileName (path : Bytes) : Option Bytes :=
  let slash : UInt8 := 47
  let dot : UInt8 := 46
  match ((path.splitOn slash).filter fun part => part ≠ [] ∧ part ≠ [dot]).getLast? with
  | some part => if part = [dot, dot] then none else some part
  | none => none

/-! ## The pool -/

/-- A GitHub token paired with the name of the file it was read from. -/
structure NamedToken where
  name : String
  token : String
deriving DecidableEq, Repr

/-- Add token-file path context while preserving read error kinds. -/
def tokenFileIoError (h : Host) (path : Bytes) : TokenFileReadError → IoError
  | .io err => ⟨err.kind, "token file " ++ h.display path ++ ": " ++ err.message⟩
  | .tooLarge => ⟨.invalidData, "token file " ++ h.display path ++ " exceeds " ++
      toString maxGithubTokenFileBytes ++ " bytes"⟩

/-- Map token-file path expansion failures to useful I/O errors. -/
def tokenPathIoError : TokenPathError → IoError
  | .malformed text => ⟨.invalidInput, "unterminated environment placeholder in '" ++ text ++ "'"⟩
  | .unset name => ⟨.notFound, "environment variable '" ++ name ++ "' is not set"⟩

def emptyTokenError (h : Host) (file : Bytes) : IoError :=
  ⟨.invalidData, "token file " ++ h.display file ++ " is empty"⟩

def sameTokenError (h : Host) (previous file : Bytes) : IoError :=
  ⟨.invalidInput,
    "token files " ++ h.display previous ++ " and " ++ h.display file ++ " contain the same token"⟩

/-- The name of a token, after the file as it is configured. -/
def tokenName (configured : Bytes) : String :=
  match (fileName configured).bind decodeUtf8 with
  | some name => String.ofList name
  | none => "token"

/-- The loop over the files, with the paths of the tokens seen so far. -/
def resolveFiles (h : Host) : List Bytes → List (String × Bytes) → List NamedToken →
    Except IoError (List NamedToken)
  | [], _, tokens => .ok tokens
  | configured :: files, pathsByToken, tokens =>
    match expandTokenPath h configured with
    | .error err => .error (tokenPathIoError err)
    | .ok file =>
      match readTokenFile h file with
      | .error err => .error (tokenFileIoError h file err)
      | .ok contents =>
        let token := String.ofList (trim contents.toList)
        if token = "" then .error (emptyTokenError h file)
        else
          match pathsByToken.lookup token with
          | some previous => .error (sameTokenError h previous file)
          | none =>
            resolveFiles h files ((token, file) :: pathsByToken)
              (tokens ++ [⟨tokenName configured, token⟩])

/-- Resolve the rotation pool from `files`, falling back to `inline`. -/
def resolvePool (h : Host) (files : List Bytes) (inline : String) :
    Except IoError (List NamedToken) :=
  if files.isEmpty then .ok [⟨"default", inline⟩] else resolveFiles h files [] []

/-- Resolve the ordered rotation pool, falling back to the single token. -/
def githubTokens (h : Host) (files : List Bytes) (inline : String) :
    Except IoError (List NamedToken) :=
  if files.isEmpty && (trim inline.toList).isEmpty then
    .error ⟨.invalidInput, "GitHub token is empty"⟩
  else resolvePool h files inline

end Comenq
