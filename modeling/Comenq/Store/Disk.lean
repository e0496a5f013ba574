import Comenq.Lib.WriteBack
import Comenq.Store.FileSystem

/-!
# The queue on a disk that can lose power

The contents of a file are synced before the file gets its name, but creating, replacing or removing
a name is durable only after a sync of the directory it is in. A `QueueDisk` keeps each of the three
directories behind its own write-back cache. An event of a store operation is a short sequence of
disk events (`FsEvent.disk`): `write_atomic` syncs the parent directory, renames the staged sibling
and syncs the parent again, while `remove_file` is the bare removal.

After a power failure each directory is in one of its surviving states and the history log holds
whatever bytes it then holds (`Lost`).
-/

namespace Comenq

open CrashTrace WriteBack

inductive DiskEvent
  | rename (f : QueueFile) (bytes : Bytes)
  | remove (f : QueueFile)
  | openLog
  | append (bytes : Bytes)
  | syncLog
  | syncDir (d : QueueDir)
deriving DecidableEq, Repr

def FsEvent.disk : FsEvent → List DiskEvent
  | .writeAtomic f bytes => [.syncDir f.parent, .rename f bytes, .syncDir f.parent]
  | .removeFile f => [.remove f]
  | .openHistory => [.openLog]
  | .appendHistory bytes => [.append bytes]
  | .syncHistory => [.syncLog]
  | .syncDir d => [.syncDir d]

/-- The disk events of a trace. -/
def diskTrace (t : List FsEvent) : List DiskEvent := t.flatMap FsEvent.disk

/-- Only an append can be cut off part way. -/
inductive DiskTears : DiskEvent → DiskEvent → Prop
  | append {bytes torn : Bytes} (h : torn <+: bytes) : DiskTears (.append bytes) (.append torn)

/-! ## Directories -/

/-- The files in the root of the queue directory, the log apart. -/
@[ext] structure RootDir where
  lastPost : Option Bytes
  lastAttempt : Option Bytes
  completion : Option Bytes

def stepEntries (s : Dir Node) : DiskEvent → Dir Node
  | .rename (.entry id) bytes => s.insert id (.file bytes)
  | .remove (.entry id) => s.erase id
  | _ => s

def stepMarkers (s : Dir Bytes) : DiskEvent → Dir Bytes
  | .rename (.awaitDeletion id) bytes => s.insert id bytes
  | .remove (.awaitDeletion id) => s.erase id
  | _ => s

def stepRoot (s : RootDir) : DiskEvent → RootDir
  | .rename .lastPost bytes => { s with lastPost := some bytes }
  | .rename .lastAttempt bytes => { s with lastAttempt := some bytes }
  | .rename .completion bytes => { s with completion := some bytes }
  | .remove .lastPost => { s with lastPost := none }
  | .remove .lastAttempt => { s with lastAttempt := none }
  | .remove .completion => { s with completion := none }
  | _ => s

def QueueFs.rootDir (fs : QueueFs) : RootDir := ⟨fs.lastPost, fs.lastAttempt, fs.completion⟩

/-- The directory with other files in its root. -/
def QueueFs.withRoot (fs : QueueFs) (r : RootDir) : QueueFs :=
  { fs with lastPost := r.lastPost, lastAttempt := r.lastAttempt, completion := r.completion }

/-- A change of a name in one of the directories. -/
def QueueFs.change (fs : QueueFs) (ev : DiskEvent) : QueueDir → QueueFs
  | .entries => { fs with entries := stepEntries fs.entries ev }
  | .awaitDeletions => { fs with awaitDeletions := stepMarkers fs.awaitDeletions ev }
  | .root => fs.withRoot (stepRoot fs.rootDir ev)

theorem QueueFs.write_eq_change (fs : QueueFs) (bytes : Bytes) (f : QueueFile) :
    fs.write bytes f = fs.change (.rename f bytes) f.parent := by
  cases f <;> rfl

theorem QueueFs.remove_eq_change (fs : QueueFs) (f : QueueFile) :
    fs.remove f = fs.change (.remove f) f.parent := by
  cases f <;> rfl

/-- A queue directory, with what of it is durable. -/
structure QueueDisk where
  entries : Cached (Dir Node) DiskEvent
  awaitDeletions : Cached (Dir Bytes) DiskEvent
  root : Cached RootDir DiskEvent
  history : Option Bytes

namespace QueueDisk

/-- A queue directory that is entirely durable. -/
def settled (fs : QueueFs) : QueueDisk :=
  ⟨.settled fs.entries, .settled fs.awaitDeletions, .settled fs.rootDir, fs.history⟩

/-- The directory programs see. -/
def current (d : QueueDisk) : QueueFs where
  entries := d.entries.current stepEntries
  awaitDeletions := d.awaitDeletions.current stepMarkers
  lastPost := (d.root.current stepRoot).lastPost
  lastAttempt := (d.root.current stepRoot).lastAttempt
  completion := (d.root.current stepRoot).completion
  history := d.history

/-- A change of a name in a directory. -/
def change (d : QueueDisk) (ev : DiskEvent) : QueueDir → QueueDisk
  | .entries => { d with entries := d.entries.perform ev }
  | .awaitDeletions => { d with awaitDeletions := d.awaitDeletions.perform ev }
  | .root => { d with root := d.root.perform ev }

def sync (d : QueueDisk) : QueueDir → QueueDisk
  | .entries => { d with entries := d.entries.sync stepEntries }
  | .awaitDeletions => { d with awaitDeletions := d.awaitDeletions.sync stepMarkers }
  | .root => { d with root := d.root.sync stepRoot }

def step (d : QueueDisk) : DiskEvent → QueueDisk
  | .rename f bytes => d.change (.rename f bytes) f.parent
  | .remove f => d.change (.remove f) f.parent
  | .openLog => { d with history := some (d.history.getD []) }
  | .append bytes => { d with history := some (d.history.getD [] ++ bytes) }
  | .syncLog => d
  | .syncDir dir => d.sync dir

abbrev run (d : QueueDisk) (t : List DiskEvent) : QueueDisk := CrashTrace.run step d t

/-- `d.Lost fs`: a power failure may leave `fs` behind. -/
structure Lost (d : QueueDisk) (fs : QueueFs) : Prop where
  entries : d.entries.Survives stepEntries fs.entries
  awaitDeletions : d.awaitDeletions.Survives stepMarkers fs.awaitDeletions
  root : d.root.Survives stepRoot fs.rootDir

/-! ## The disk and the directory -/

variable {d : QueueDisk} {fs : QueueFs}

theorem current_settled (fs : QueueFs) : (settled fs).current = fs := rfl

theorem lost_current (d : QueueDisk) : d.Lost d.current :=
  ⟨Cached.survives_current, Cached.survives_current, Cached.survives_current⟩

/-- After a power failure only what survived can survive the next one. -/
theorem lost_settled {fs' : QueueFs} (h : (settled fs).Lost fs') :
    fs'.entries = fs.entries ∧ fs'.awaitDeletions = fs.awaitDeletions ∧ fs'.rootDir = fs.rootDir :=
  ⟨Cached.survives_settled.1 h.entries, Cached.survives_settled.1 h.awaitDeletions,
    Cached.survives_settled.1 h.root⟩

theorem current_sync (d : QueueDisk) (dir : QueueDir) : (d.sync dir).current = d.current := by
  cases dir <;> rfl

theorem current_change (d : QueueDisk) (ev : DiskEvent) (dir : QueueDir) :
    (d.change ev dir).current = d.current.change ev dir := by
  cases dir with
  | entries => simp only [change, current, Cached.current_perform, QueueFs.change]
  | awaitDeletions => simp only [change, current, Cached.current_perform, QueueFs.change]
  | root =>
    simp only [change, current, Cached.current_perform, QueueFs.change, QueueFs.withRoot,
      QueueFs.rootDir]

/-- Programs see the events of the store, whatever of them is durable. -/
theorem current_run_disk (d : QueueDisk) (ev : FsEvent) :
    (d.run ev.disk).current = d.current.step ev := by
  cases ev with
  | writeAtomic f bytes =>
    change (((d.sync f.parent).change (.rename f bytes) f.parent).sync f.parent).current = _
    rw [current_sync, current_change, current_sync]
    exact (d.current.write_eq_change bytes f).symm
  | removeFile f =>
    exact (d.current_change _ _).trans (d.current.remove_eq_change f).symm
  | syncDir dir => exact current_sync d dir
  | openHistory | appendHistory | syncHistory => rfl

theorem current_run_diskTrace (d : QueueDisk) (t : List FsEvent) :
    (d.run (diskTrace t)).current = d.current.run t := by
  induction t generalizing d with
  | nil => rfl
  | cons ev t ih =>
    have happ : d.run (diskTrace (ev :: t)) = (d.run ev.disk).run (diskTrace t) :=
      run_append d ev.disk (diskTrace t)
    rw [happ, ih, current_run_disk]
    rfl

/-! ## What one event may leave behind -/

/-- A directory that survives a sync survived before it. -/
theorem Lost.of_sync {dir : QueueDir} (h : (d.sync dir).Lost fs) : d.Lost fs := by
  obtain ⟨he, ha, hr⟩ := h
  cases dir with
  | entries => exact ⟨Cached.survives_of_sync he ▸ Cached.survives_current, ha, hr⟩
  | awaitDeletions => exact ⟨he, Cached.survives_of_sync ha ▸ Cached.survives_current, hr⟩
  | root => exact ⟨he, ha, Cached.survives_of_sync hr ▸ Cached.survives_current⟩

/-- A change may survive a power failure or not. -/
theorem Lost.of_change {ev : DiskEvent} {dir : QueueDir} (h : (d.change ev dir).Lost fs) :
    d.Lost fs ∨ ∃ fs₀, d.Lost fs₀ ∧ fs = fs₀.change ev dir := by
  obtain ⟨he, ha, hr⟩ := h
  cases dir with
  | entries =>
    rcases Cached.survives_perform.1 he with he | ⟨s, hs, he⟩
    · exact Or.inl ⟨he, ha, hr⟩
    · exact Or.inr ⟨{ fs with entries := s }, ⟨hs, ha, hr⟩, QueueFs.ext he rfl rfl rfl rfl rfl⟩
  | awaitDeletions =>
    rcases Cached.survives_perform.1 ha with ha | ⟨s, hs, ha⟩
    · exact Or.inl ⟨he, ha, hr⟩
    · exact Or.inr ⟨{ fs with awaitDeletions := s }, ⟨he, hs, hr⟩,
        QueueFs.ext rfl ha rfl rfl rfl rfl⟩
  | root =>
    rcases Cached.survives_perform.1 hr with hr | ⟨s, hs, hr⟩
    · exact Or.inl ⟨he, ha, hr⟩
    · exact Or.inr ⟨fs.withRoot s, ⟨he, ha, hs⟩, QueueFs.ext rfl rfl (congrArg RootDir.lastPost hr)
        (congrArg RootDir.lastAttempt hr) (congrArg RootDir.completion hr) rfl⟩

/-- What a power failure within an event may leave: a directory it could have left before, or one of
those after the event. The sync before a rename leaves only the entries that programs see. -/
theorem Lost.of_disk {ev : FsEvent} {q : List DiskEvent} (hq : Cut DiskTears q ev.disk)
    (h : (d.run q).Lost fs) :
    d.Lost fs ∨ ∃ fs₀, d.Lost fs₀ ∧ fs = fs₀.step ev ∧
      ∀ id bytes, ev = .writeAtomic (.entry id) bytes → fs₀.entries = d.current.entries := by
  cases ev with
  | writeAtomic f bytes =>
    have hrename : ((d.sync f.parent).change (.rename f bytes) f.parent).Lost fs →
        d.Lost fs ∨ ∃ fs₀, d.Lost fs₀ ∧ fs = fs₀.step (.writeAtomic f bytes) ∧
          ∀ id b, FsEvent.writeAtomic f bytes = .writeAtomic (.entry id) b →
            fs₀.entries = d.current.entries := by
      intro h
      rcases h.of_change with h | ⟨fs₀, h₀, rfl⟩
      · exact Or.inl h.of_sync
      · refine Or.inr ⟨fs₀, h₀.of_sync, (fs₀.write_eq_change bytes f).symm, ?_⟩
        intro id b heq
        obtain ⟨rfl, -⟩ := FsEvent.writeAtomic.inj heq
        exact Cached.survives_of_sync h₀.entries
    cases hq with
    | stop => exact Or.inl h
    | torn ht => cases ht
    | step _ hq =>
      cases hq with
      | stop => exact Or.inl h.of_sync
      | torn ht => cases ht
      | step _ hq =>
        cases hq with
        | stop => exact hrename h
        | torn ht => cases ht
        | step _ hq =>
          rw [cut_nil.1 hq] at h
          exact hrename h.of_sync
  | removeFile f =>
    cases hq with
    | stop => exact Or.inl h
    | torn ht => cases ht
    | step _ hq =>
      rw [cut_nil.1 hq] at h
      rcases Lost.of_change h with h | ⟨fs₀, h₀, rfl⟩
      · exact Or.inl h
      · exact Or.inr ⟨fs₀, h₀, (fs₀.remove_eq_change f).symm, fun id b heq => by cases heq⟩
  | syncDir dir =>
    cases hq with
    | stop => exact Or.inl h
    | torn ht => cases ht
    | step _ hq =>
      rw [cut_nil.1 hq] at h
      exact Or.inl (Lost.of_sync h)
  | openHistory | appendHistory | syncHistory =>
    -- the log is not part of what is kept
    left
    cases hq with
    | stop => exact h
    | torn ht => cases ht <;> exact ⟨h.entries, h.awaitDeletions, h.root⟩
    | step _ hq =>
      rw [cut_nil.1 hq] at h
      exact ⟨h.entries, h.awaitDeletions, h.root⟩

end QueueDisk

end Comenq
