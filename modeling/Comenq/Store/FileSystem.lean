import Comenq.Lib.Traced
import Comenq.Lib.Directory
import Comenq.Store.Codec

/-!
# The queue directory and store operations

`QueueFs` is what the store keeps on disk: the entry files, the await-deletion markers, the two
time markers, the completion journal and the history log. A directory lists its files in the order
of its association list; nothing in the store depends on that order.

A store operation (`Store α`) is a program that reads the directory and performs file-system events
(`FsEvent`). The state after the operation is the replayed trace, and a process that dies in the
middle leaves the state after a cut of the trace.

`write_atomic` stages a temporary sibling, syncs it and renames it over the target. The sibling is
never read (`.tmp` is neither an entry file nor a marker name), so the event is the rename.
-/

namespace Comenq

open Traced

/-- What a name in the entries directory refers to. -/
inductive Node
  | file (bytes : Bytes)
  | other
deriving DecidableEq, Repr

/-- A directory: file names with what they hold, in listing order. -/
abbrev Dir (α : Type) := Directory.Dir String α

/-- The durable state of a queue. Entry files are keyed by their stem, `<stem>.json`. -/
@[ext] structure QueueFs where
  entries : Dir Node
  awaitDeletions : Dir Bytes
  lastPost : Option Bytes
  lastAttempt : Option Bytes
  completion : Option Bytes
  history : Option Bytes

inductive QueueDir
  | root
  | entries
  | awaitDeletions
deriving DecidableEq, Repr

/-- The files the store replaces and removes as a whole. -/
inductive QueueFile
  | entry (id : String)
  | awaitDeletion (id : String)
  | lastPost
  | lastAttempt
  | completion
deriving DecidableEq, Repr

def QueueFile.parent : QueueFile → QueueDir
  | entry _ => .entries
  | awaitDeletion _ => .awaitDeletions
  | lastPost | lastAttempt | completion => .root

inductive FsEvent
  | writeAtomic (f : QueueFile) (bytes : Bytes)
  | removeFile (f : QueueFile)
  /-- Open the history log for appending, creating it when missing. -/
  | openHistory
  | appendHistory (bytes : Bytes)
  | syncHistory
  | syncDir (d : QueueDir)
deriving DecidableEq, Repr

namespace QueueFs

/-- A queue directory nothing has been written to. -/
def empty : QueueFs := ⟨∅, ∅, none, none, none, none⟩

def write (fs : QueueFs) (bytes : Bytes) : QueueFile → QueueFs
  | .entry id => { fs with entries := fs.entries.insert id (.file bytes) }
  | .awaitDeletion id => { fs with awaitDeletions := fs.awaitDeletions.insert id bytes }
  | .lastPost => { fs with lastPost := some bytes }
  | .lastAttempt => { fs with lastAttempt := some bytes }
  | .completion => { fs with completion := some bytes }

def remove (fs : QueueFs) : QueueFile → QueueFs
  | .entry id => { fs with entries := fs.entries.erase id }
  | .awaitDeletion id => { fs with awaitDeletions := fs.awaitDeletions.erase id }
  | .lastPost => { fs with lastPost := none }
  | .lastAttempt => { fs with lastAttempt := none }
  | .completion => { fs with completion := none }

def step (fs : QueueFs) : FsEvent → QueueFs
  | .writeAtomic f bytes => fs.write bytes f
  | .removeFile f => fs.remove f
  | .openHistory => { fs with history := some (fs.history.getD []) }
  | .appendHistory bytes => { fs with history := some (fs.history.getD [] ++ bytes) }
  | .syncHistory => fs
  | .syncDir _ => fs

/-- The state after a trace of events. -/
abbrev run (fs : QueueFs) (t : List FsEvent) : QueueFs := CrashTrace.run step fs t

/-- The contents of the history log, empty when it does not exist. -/
def historyBytes (fs : QueueFs) : Bytes := fs.history.getD []

end QueueFs

/-- Only an append can be cut off part way; every other event happens or does not. -/
inductive Tears : FsEvent → FsEvent → Prop
  | append {bytes torn : Bytes} (h : torn <+: bytes) :
      Tears (.appendHistory bytes) (.appendHistory torn)

/-! ## Store operations -/

/-- An operation on the queue directory. -/
abbrev Store (α : Type) : Type := Prog QueueFs.step StoreError α

end Comenq
