import PaWebServer.LogDelivery

/-!
# The log over the life of the server

A server is started and stopped many times, and its processes append to the same file one after
another.  Each process is a run of the log threads in which `closeLogs` closes quietly; what the
threads append comes after what `initializeFile` has left of the file.  Over any such history the
file is the one that the processes leave which write their entries one after another and may then
close the log (`history_refines`), so that what holds of those restarts holds of the threads.
-/

namespace LogQueue

open LogsHandler Transition

/-- The life of one process: its calls of `logRequest`, the steps of its log threads up to its end,
and the state in which they stop. -/
structure Session where
  calls : List LogCall
  steps : List Action
  final : State
  run_eq : run (step (serverConfig calls)) State.init steps = some final
  quiet : Meets (step (serverConfig calls)) QuietClose State.init steps

namespace Session

/-- What the threads append to the file that the constructor leaves. -/
def appended (x : Session) : List Block := x.final.file.drop 1

/-- The file that the process leaves, from the one that it finds. -/
def leaves (x : Session) (file : Option Bytes) : Option Bytes :=
  some (initializeFile file ++ x.appended.flatMap Block.bytes)

/-- The file that the processes leave one after another. -/
def leaveAll (file : Option Bytes) (xs : List Session) : Option Bytes :=
  xs.foldl (fun file x => x.leaves file) file

/-- The process writes the entries that the threads have written, each no more often than it has
been logged, and it closes the log when `closeLogs` has appended the trailer. -/
structure Matches (x : Session) (p : Process) : Prop where
  calls : ∀ c ∈ p.entries, c ∈ x.calls
  entries : p.entries.map logEntry = writtenEntries x.final.file
  logged : (p.entries.map logEntry).Subperm (x.calls.map logEntry)
  closes : p.closes = true ↔ Block.trailer ∈ x.final.file
  leaves : ∀ file, x.leaves file = p.run file

theorem writtenEntries_of_open (cs : List LogCall) :
    writtenEntries (.header :: cs.map fun c => .entry (logEntry c)) = cs.map logEntry := by
  induction cs with
  | nil => rfl
  | cons c cs ih => simp [writtenEntries]

/-- The bytes of the entries that a process writes. -/
theorem flatMap_bytes_of_open (cs : List LogCall) :
    (cs.map fun c => Block.entry (logEntry c)).flatMap Block.bytes = cs.flatMap entryBytes := by
  rw [List.flatMap_map]
  rfl

/-- The threads of one process do what one process does that writes its entries in a row. -/
theorem exists_matches (x : Session) : ∃ p, x.Matches p := by
  have hgrammar := (phase_of_run x.quiet x.run_eq).2.grammar
  have hlogged : (writtenEntries x.final.file).Subperm (x.calls.map logEntry) :=
    writtenEntries_subperm x.run_eq
  rcases hgrammar with ⟨cs, hcs, hfile⟩ | ⟨front, ⟨cs, hcs, hfront⟩, hfile⟩
  · have hwritten : writtenEntries x.final.file = cs.map logEntry := by
      rw [hfile, writtenEntries_of_open]
    refine ⟨⟨cs, false⟩, hcs, hwritten.symm, hwritten ▸ hlogged, ?_, fun file => ?_⟩
    · simp [hfile]
    · rw [leaves, appended, hfile, List.drop_one, List.tail_cons, flatMap_bytes_of_open,
        Process.run_eq]
      simp
  · rw [hfront] at hfile
    have hwritten : writtenEntries x.final.file = cs.map logEntry := by
      rw [hfile, writtenEntries_append_trailer, writtenEntries_of_open]
    refine ⟨⟨cs, true⟩, hcs, hwritten.symm, hwritten ▸ hlogged, ?_, fun file => ?_⟩
    · simp [hfile]
    · rw [leaves, appended, hfile, List.cons_append, List.drop_one, List.tail_cons,
        List.flatMap_append, flatMap_bytes_of_open, Process.run_eq]
      simp [Block.bytes]

theorem exists_forall₂_matches (xs : List Session) :
    ∃ ps : List Process, List.Forall₂ Matches xs ps := by
  induction xs with
  | nil => exact ⟨[], .nil⟩
  | cons x xs ih =>
    obtain ⟨p, hp⟩ := x.exists_matches
    obtain ⟨ps, hps⟩ := ih
    exact ⟨p :: ps, .cons hp hps⟩

theorem leaveAll_of_matches {xs : List Session} {ps : List Process}
    (h : List.Forall₂ Matches xs ps) (file : Option Bytes) :
    leaveAll file xs = runAll file ps := by
  induction h generalizing file with
  | nil => rfl
  | @cons x p xs ps hp _ ih =>
    show leaveAll (x.leaves file) xs = runAll (p.run file) ps
    rw [hp.leaves, ih]

theorem map_entries_of_matches {xs : List Session} {ps : List Process}
    (h : List.Forall₂ Matches xs ps) :
    (ps.map Process.entries).map (List.map logEntry) =
      xs.map fun x => writtenEntries x.final.file := by
  induction h with
  | nil => rfl
  | cons hp _ ih => rw [List.map_cons, List.map_cons, List.map_cons, ih, hp.entries]

theorem closing_of_matches {xs : List Session} {ps : List Process}
    (h : List.Forall₂ Matches xs ps) (htrailer : ∀ x ∈ xs, Block.trailer ∈ x.final.file) :
    ps = closing (ps.map Process.entries) := by
  induction h with
  | nil => rfl
  | @cons x p xs ps hp _ ih =>
    have hrest := ih fun y hy => htrailer y (List.mem_cons_of_mem x hy)
    have hcloses := hp.closes.2 (htrailer x List.mem_cons_self)
    obtain ⟨entries, closes⟩ := p
    obtain rfl : closes = true := hcloses
    exact congrArg _ hrest

/-- Over any number of processes, each with any calls of `logRequest` and any interleaving of its
threads and I/O failures in which `closeLogs` closes quietly, stopped at any moment, and from any
file: the log file is the one of a row of processes that write their entries one after another; and
these are processes that close the log when each `closeLogs` has appended its trailer. -/
theorem history_refines (xs : List Session) :
    ∃ ps : List Process, List.Forall₂ Matches xs ps ∧
      (∀ file, leaveAll file xs = runAll file ps) ∧
      ((∀ x ∈ xs, Block.trailer ∈ x.final.file) → ps = closing (ps.map Process.entries)) := by
  obtain ⟨ps, hps⟩ := exists_forall₂_matches xs
  exact ⟨ps, hps, leaveAll_of_matches hps, closing_of_matches hps⟩

/-- The life of a process that logs one request and closes the log. -/
def quietSession : Session := ⟨[sampleCall], quietRun, _, rfl, by decide⟩

example : leaveAll none [quietSession, quietSession] =
    runAll none (closing [[sampleCall], [sampleCall]]) := by decide +kernel

end Session

end LogQueue
