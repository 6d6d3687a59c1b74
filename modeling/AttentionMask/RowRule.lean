import AttentionMask.KeyRun.Union
import AttentionMask.Pattern

/-! What decides a row of the mask: parameters reduced to the part that can matter. Offsets are
those inside the sequence, in order and once each; the band is at most twice the length, since no
centre is farther than that from a key. The reduction asks for no checked parameters. A row as runs
is the window and one clamped range around the centre of each offset, united. -/

namespace AttentionMask

structure RowRule where
  length : Int64
  window : Int64
  band : Int64
  causality : Causality
  offsets : List Int64

/-- Drop repetitions from a sorted list. -/
def RowRule.distinct : List Int64 → List Int64
  | a :: b :: rest => if a = b then distinct (b :: rest) else a :: distinct (b :: rest)
  | offsets => offsets

/-- The offset links two positions of a sequence. -/
def RowRule.inside (length offset : Int64) : Bool :=
  decide (1 ≤ offset ∧ offset < length)

def RowRule.ordered (offsets : List Int64) : List Int64 :=
  offsets.mergeSort fun a b => decide (a ≤ b)

def Pattern.rule (p : Pattern) : RowRule where
  length := p.length
  window := p.window
  band := min p.band (2 * p.length)
  causality := p.causality
  offsets := RowRule.distinct (RowRule.ordered (p.links.filter (RowRule.inside p.length)))

namespace RowRule

/-- The rows of the sequence, first to last. -/
def rows (r : RowRule) : List Int64 :=
  Walk.upTo 0 (r.length - 1)

/-- Runs that a row can need: its window and one per offset. -/
def capacity (r : RowRule) : Nat :=
  r.offsets.length + 1

/-- The last key that a band may reach from row `i`. -/
def ceiling (r : RowRule) (i : Int64) : Int64 :=
  match r.causality with
  | .unclamped => r.length - 1
  | .clamped => i

/-- The first key of the window of row `i`. -/
def windowFirst (r : RowRule) (i : Int64) : Int64 :=
  max 0 (i - r.window)

def windowRun (r : RowRule) (i : Int64) : KeyRun :=
  ⟨(r.windowFirst i).toUInt64, i.toUInt64⟩

/-- The keys near the centre `i - o` that lie in the sequence and under the ceiling, if any. The
centre itself need not be one of them. -/
def bandRun? (r : RowRule) (i o : Int64) : Option KeyRun :=
  let first := max 0 (i - o - r.band)
  let last := min (r.ceiling i) (i - o + r.band)
  if first ≤ last then some ⟨first.toUInt64, last.toUInt64⟩ else none

/-- The ranges of row `i` before they are united. -/
def ranges (r : RowRule) (i : Int64) : List KeyRun :=
  r.windowRun i :: r.offsets.filterMap (r.bandRun? i)

def runs (r : RowRule) (i : Int64) : List KeyRun :=
  KeyRun.union (r.ranges i)

/-- The runs of row `i` in a buffer that may hold those of another row. -/
def load (r : RowRule) (i : Int64) (buffer : Array KeyRun) : Array KeyRun :=
  buffer.shrink 0 ++ r.runs i

@[simp] theorem load_toList (r : RowRule) (i : Int64) (buffer : Array KeyRun) :
    (r.load i buffer).toList = r.runs i := by
  simp [load]

theorem length_runs_le (r : RowRule) (i : Int64) : (r.runs i).length ≤ r.capacity := by
  refine Nat.le_trans (KeyRun.length_union_le _) ?_
  simpa [ranges, capacity] using List.length_filterMap_le (r.bandRun? i) r.offsets

end RowRule
end AttentionMask
