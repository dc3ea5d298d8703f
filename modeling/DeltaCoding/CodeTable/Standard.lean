import DeltaCoding.CodeTable.Basic

/-!
# The standard code table

The table that every delta uses unless it brings its own, for caches of four NEAR and three SAME
modes. It has, in this order: a RUN and an ADD of explicit size, ADDs of sizes 1 to 17, for each
mode a COPY of explicit size and COPYs of sizes 4 to 18, and the pairs of a short ADD and a short
COPY, in both orders.
-/

namespace DeltaCoding.CodeTable

namespace Standard

def maxMode : Nat := 8

/-- The modes that write a number, as opposed to one byte. Pairs with them allow longer COPYs. -/
def isNumberMode (mode : Nat) : Bool := mode < 6

def modes : List Nat := List.range (maxMode + 1)

def span (low high : Nat) : List Nat := List.range' low (high + 1 - low)

def copy (size mode : Nat) : Slot := .copy (.ofNat size) (.ofNat mode)

def add (size : Nat) : Slot := .add (.ofNat size)

def singles : List Entry :=
  [.one (.run 0), .one (.add 0)] ++
    (span 1 17).map (fun size => .one (add size)) ++
    modes.flatMap fun mode =>
      .one (copy 0 mode) :: (span 4 18).map fun size => .one (copy size mode)

def addCopies : List Entry :=
  modes.flatMap fun mode =>
    (span 1 4).flatMap fun addSize =>
      (span 4 (if isNumberMode mode then 6 else 4)).map fun copySize =>
        ⟨add addSize, copy copySize mode⟩

def copyAdds : List Entry :=
  modes.map fun mode => ⟨copy 4 mode, add 1⟩

def layout : List Entry :=
  singles ++ addCopies ++ copyAdds

theorem length_layout : layout.length = opcodeCount := by
  decide +kernel

end Standard

/-- The standard code table. -/
def standard : CodeTable :=
  ⟨⟨Standard.layout.toArray, Standard.length_layout⟩⟩

instance : Inhabited CodeTable := ⟨standard⟩

/-- The standard table's stored form, the dictionary for deltas that carry a table. -/
def standardBytes : Array UInt8 :=
  standard.toBytes

end DeltaCoding.CodeTable
