import Cookbook.Lib.CText

/-!
# The entries of mlogc

mlogc queues the lines that it receives.  It writes the lines that are not done
to a file, and reads them from there when it starts.
-/

namespace Cookbook.ModSecurity.Mlogc

open Cookbook.Lib.CText

abbrev Bytes := List UInt8

def newline : UInt8 := 0x0a

/-- `entry_t`; the size of the line is its length. -/
structure Entry where
  id : Nat
  line : Bytes
  deriving DecidableEq

/-- `entry_counter` and `queue`. -/
structure EntryQueue where
  entryCounter : Nat
  queue : List Entry

/-- `add_entry`, without the worker that it may start. -/
def EntryQueue.addEntry (entries : EntryQueue) (data : Bytes) : EntryQueue where
  entryCounter := (entries.entryCounter + 1) % 2 ^ 64
  queue :=
    entries.queue ++ [{ id := entries.entryCounter, line := cString data }]

def EntryQueue.lines (entries : EntryQueue) : List Bytes :=
  entries.queue.map Entry.line

theorem lines_addEntry
    (entries : EntryQueue) {data : Bytes} (noNul : 0 ∉ data) :
    (entries.addEntry data).lines = entries.lines ++ [data] := by
  rw [EntryQueue.lines, EntryQueue.addEntry, List.map_append, cString_eq_self noNul]
  rfl

end Cookbook.ModSecurity.Mlogc
