import AttentionMask.RunTable

/-! Building a table of runs in two passes over the rows. The first counts the runs of each row, the
sums of the counts give the starts, and the second writes each row into its slots. Rows may be
shared out among workers in any order: a worker loads a row into a buffer of its own, whatever that
buffer held, and each pass writes to places that belong to the row alone. -/

namespace AttentionMask.RunTable

/-- One row given to one worker. -/
structure Task (workers : Nat) where
  row : Int64
  worker : Fin workers

/-- The buffer of each worker. -/
abbrev Buffers (workers : Nat) := Vector (Array KeyRun) workers

/-- Both passes, as lists of tasks in the order in which they are carried out. -/
structure Schedule (workers : Nat) where
  counting : List (Task workers)
  placing : List (Task workers)

variable {workers : Nat} {Out : Type}

/-- Load a row into its worker's buffer and hand the buffer on. -/
def perform (rule : RowRule) (use : UInt64 → Array KeyRun → Out → Out)
    (state : Buffers workers × Out) (task : Task workers) : Buffers workers × Out :=
  let buffer := rule.load task.row state.1[task.worker]
  (state.1.set task.worker.val buffer task.worker.isLt, use task.row.toUInt64 buffer state.2)

/-- Note the number of runs of row `i` at the place after the row. -/
def note (i : UInt64) (buffer : Array KeyRun) (counts : Array UInt64) : Array UInt64 :=
  counts.setIfInBounds (i + 1).toNat (UInt64.ofNat buffer.size)

/-- Running sums, in place: each entry after the first is increased by the one before it. -/
def accumulate (n : UInt64) (counts : Array UInt64) : Array UInt64 :=
  (Walk.below n).foldl
    (fun sums i =>
      sums.setIfInBounds (i + 1).toNat (sums.getD (i + 1).toNat 0 + sums.getD i.toNat 0))
    counts

/-- The slots of the runs of row `i`. -/
def slots (starts : Array UInt64) (i : UInt64) (buffer : Array KeyRun) : List Nat :=
  (List.range buffer.size).map fun k => (starts.getD i.toNat 0).toNat + k

/-- Write the runs of row `i` into its slots. -/
def place (starts : Array UInt64) (i : UInt64) (buffer : Array KeyRun) (runs : Array KeyRun) :
    Array KeyRun :=
  ((slots starts i buffer).zip buffer.toList).foldl
    (fun runs entry => runs.setIfInBounds entry.1 entry.2) runs

/-- Carry out a schedule with buffers as they were left by earlier work. -/
def assemble (rule : RowRule) (schedule : Schedule workers) (buffers : Buffers workers) :
    RunTable :=
  let n := rule.length.toUInt64
  let counted := schedule.counting.foldl (perform rule note)
    (buffers, Array.replicate (n.toNat + 1) 0)
  let starts := accumulate n counted.2
  let blank := Array.replicate (starts.getD n.toNat 0).toNat ⟨0, 0⟩
  let placed := schedule.placing.foldl (perform rule (place starts)) (counted.1, blank)
  ⟨starts, placed.2⟩

/-- One worker that takes the rows from the first to the last. -/
def sequential (rule : RowRule) : Schedule 1 :=
  let tasks := rule.rows.map fun i => ⟨i, 0⟩
  ⟨tasks, tasks⟩

/-- Refused parameters are faults. Any schedule that takes each row once in each pass would do. -/
def build (p : Pattern) : Except Fault RunTable :=
  match p.check with
  | .error fault => .error fault
  | .ok () => .ok (assemble p.rule (sequential p.rule) #v[#[]])

end AttentionMask.RunTable
