import Comenq.Daemon.TokenFiles
import Comenq.Store.HistoryPages
import Comenq.Store.System

/-!
# Token rotation

The model of the selection in `worker/tokens.rs` and of the part of `run_worker` between a claim and
the record of its post. The daemon keeps no rotation state: before a post the worker reads the
newest record of the history and takes the token behind the one it names.

A `Poster` is the daemon with the token chosen for the post under way. Lines that do not parse may
appear in the log at any time (`Noise`).
-/

namespace Comenq

open JsonText LineLog

/-! ## The pool -/

/-- A token's name and hash; the client authenticated with it is left out. -/
structure TokenClient where
  name : String
  hash : String
deriving DecidableEq, Repr

def TokenClient.new (tokenHash : String → String) (named : NamedToken) : TokenClient :=
  ⟨named.name, tokenHash named.token⟩

/-! ## Selection -/

/-- Index of the next token after the one represented by `lastHash`. -/
def nextTokenIndex (tokenHashes : List String) (lastHash : Option String) : Nat :=
  if tokenHashes.length = 0 then 0
  else
    match lastHash.bind fun hash => tokenHashes.findIdx? (· == hash) with
    | some index => (index + 1) % tokenHashes.length
    | none => 0

section Selection

variable (J : SerdeJson)

/-- Hash of the token used by the most recent posting attempt, if present. -/
def lastTokenHash (history : Option Bytes) (fill : Nat → Nat) :
    Except StoreError (Option String) := do
  let page ← readPage J history fill none (some 1) 1
  pure (page.records.getLast?.map fun item => item.record.tokenHash)

/-- The token of the next post; a history that cannot be read selects the first. -/
def chooseToken (tokenHashes : List String) (history : Option Bytes) (fill : Nat → Nat) : Nat :=
  nextTokenIndex tokenHashes
    (match lastTokenHash J history fill with
      | .ok lastHash => lastHash
      | .error _ => none)

/-! ## Posting -/

/-- The bytes are lines of their own, and none of them parses as a record. -/
structure Noise (log bytes : Bytes) : Prop where
  apart : Closed nl log ∨ bytes.head? = some nl
  malformed : ∀ line ∈ lines nl bytes, J.record line = none

/-- The daemon and the token chosen for the post under way. -/
structure Poster where
  world : World
  chosen : Option Nat

inductive PosterAction
  | choose (fill : Nat → Nat)
  | posted (now : UInt64) (commentUrl : Option String) (attempt : Uuid)
  | failed (now : UInt64) (error : String) (attempt : Uuid)
  | noise (bytes : Bytes)
  | other (a : Action)

/-- The actions that record no attempt and leave the history to the store. -/
def Action.isOther : Action → Bool
  | .complete .. | .recordFailure .. | .tamper _ => false
  | _ => true

/-- A worker that lets go of its claim has no post under way. -/
def Phase.keeps : Phase → Option Nat → Option Nat
  | .up (.holding _), chosen => chosen
  | _, _ => none

/-- What the daemon may do next. A post is recorded with the hash of the token it used. -/
inductive Poster.Step (tokenHashes : List String) (p : Poster) : PosterAction → Poster → Prop
  | choose {e : StoredEntry} {fill : Nat → Nat} (held : p.world.phase = .up (.holding e)) :
      Poster.Step tokenHashes p (.choose fill)
        { p with chosen := some (chooseToken J tokenHashes p.world.fs.history fill) }
  | posted {index : Nat} {hash : String} {now : UInt64} {commentUrl : Option String}
      {attempt : Uuid} {w : World} (chosen : p.chosen = some index)
      (client : tokenHashes[index]? = some hash)
      (step : Comenq.Step J p.world (.complete hash now commentUrl attempt) w) :
      Poster.Step tokenHashes p (.posted now commentUrl attempt) ⟨w, none⟩
  | failed {index : Nat} {hash : String} {now : UInt64} {error : String}
      {attempt : Uuid} {w : World} (chosen : p.chosen = some index)
      (client : tokenHashes[index]? = some hash)
      (step : Comenq.Step J p.world (.recordFailure hash now error attempt) w) :
      Poster.Step tokenHashes p (.failed now error attempt) ⟨w, none⟩
  | noise {bytes : Bytes} (lines : Noise J p.world.fs.historyBytes bytes) :
      Poster.Step tokenHashes p (.noise bytes)
        { p with world := { p.world with
          fs := { p.world.fs with history := some (p.world.fs.historyBytes ++ bytes) } } }
  | other {a : Action} {w : World} (act : a.isOther = true) (step : Comenq.Step J p.world a w) :
      Poster.Step tokenHashes p (.other a) ⟨w, w.phase.keeps p.chosen⟩

/-- The record of the post under way that an action makes. -/
def Poster.record (tokenHashes : List String) (p : Poster) (a : PosterAction) :
    Option HistoryRecord :=
  match p.world.phase, p.chosen.bind fun index => tokenHashes[index]?, a with
  | .up (.holding e), some hash, .posted now commentUrl attempt =>
    some (.succeeded attempt e hash now commentUrl)
  | .up (.holding e), some hash, .failed now error attempt =>
    some (.failed attempt e hash now error)
  | _, _, _ => none

/-- The token of the posting attempt an action ends. -/
def Poster.attempted (p : Poster) : PosterAction → List Nat
  | .posted .. | .failed .. => p.chosen.toList
  | _ => []

/-- Runs in which every step is as `P` says, with the tokens of the attempts made. -/
inductive Poster.Run (tokenHashes : List String) (P : Poster → PosterAction → Poster → Prop)
    (p : Poster) : List Nat → Poster → Prop
  | refl : Poster.Run tokenHashes P p [] p
  | step {p₁ p₂ : Poster} {a : PosterAction} {attempts : List Nat} :
      Poster.Run tokenHashes P p attempts p₁ → P p₁ a p₂ → Poster.Step J tokenHashes p₁ a p₂ →
      Poster.Run tokenHashes P p (attempts ++ p₁.attempted a) p₂

/-- The record is the newest of the log, or journalled and logged before the worker goes on. -/
def Written (r : HistoryRecord) (fs : QueueFs) : Prop :=
  (∃ c, pendingCompletion J fs = some c ∧ c.history = some r) ∨
    (historyRecords J fs.historyBytes).getLast? = some r

end Selection

end Comenq
