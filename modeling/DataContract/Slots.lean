/-!
# Slots

The lists that fill a row of slots. Every slot has candidates, and `none` among them stands for the
slot being left out. The `i`-th list takes candidate `i` of every slot, starting over in slots with
fewer, and repetitions are dropped. If the slots that can be left out have `none` as their last
candidate, they are filled all together or not at all.
-/

namespace DataContract

namespace Slots

variable {α : Type}

/-- Candidate `i` of every slot, starting over in slots with fewer; what is left out is missing. -/
def row (slots : List (List (Option α))) (i : Nat) : List α :=
  slots.filterMap fun slot => (slot[i % slot.length]?).join

/-- The lists that fill the slots; slots without candidates do not count. -/
def fillings [BEq α] (slots : List (List (Option α))) : List (List α) :=
  let live := slots.filter fun slot => !slot.isEmpty
  let longest := (live.map List.length).foldl max 0
  if longest = 0 then [[]]
  else ((List.range longest).map (row live)).eraseDups

end Slots

end DataContract
