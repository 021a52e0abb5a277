/-!
# Words of storage

A `Location` says where a word lies: at an offset from the frame, at an offset from the globals,
or at an offset from the address that another location holds.

**The name of a location is for the reader alone;** where it lies depends on the rest.
-/

namespace DecafLang.Code

/-- What the offset of a location without a base counts from. -/
inductive Segment where
  /-- Parameters, locals and temporaries. -/
  | frame
  /-- Global variables. -/
  | globals
deriving DecidableEq, Repr, Inhabited

/-- A word of storage. -/
inductive Location where
  /-- A word at an offset from the start of a segment. -/
  | direct (segment : Segment) (offset : Int) (name : String)
  /-- A word at an offset from the address that the base holds. -/
  | based (base : Location) (offset : Int) (name : String)
deriving DecidableEq, Repr, Inhabited

namespace Location

/-- A word of the frame. -/
def frame (offset : Int) (name : String) : Location := direct .frame offset name

/-- A word of the globals. -/
def global (offset : Int) (name : String) : Location := direct .globals offset name

/-- The name of the location. -/
def name : Location → String
  | direct _ _ n => n
  | based _ _ n => n

/-- The offset of the location. -/
def offset : Location → Int
  | direct _ o _ => o
  | based _ o _ => o

/-- The segment that a location is written with; one with a base is written like the frame. -/
def segment : Location → Segment
  | direct s _ _ => s
  | based _ _ _ => .frame

/-- The location that holds the address to count from. -/
def base? : Location → Option Location
  | direct _ _ _ => none
  | based b _ _ => some b

end Location

end DecafLang.Code
