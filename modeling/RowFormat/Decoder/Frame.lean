import RowFormat.Decoder.Basic

namespace RowFormat

/-- An open tuple, and the index of the field that it is in the tuple around it. Its fields are null
until they are read. -/
structure Frame where
  index : Nat
  items : List Value

namespace Frame

/-- A tuple none of whose fields has been read. -/
def empty (index width : Nat) : Frame := ⟨index, List.replicate width .null⟩

/-- Sets a field of the innermost tuple. -/
def setField (frames : List Frame) (index : Nat) (value : Value) :
    Except FrameFault (List Frame) :=
  match frames with
  | [] => .error .noFrame
  | top :: rest =>
    if index < top.items.length then .ok ({ top with items := top.items.set index value } :: rest)
    else .error (.fieldOutOfRange index)

/-- Closes the innermost tuple into the one around it. -/
def close : List Frame → Except FrameFault (List Frame)
  | [] => .error .noFrame
  | [_] => .error .rootClosed
  | top :: parent :: rest =>
    if top.index < parent.items.length then
      .ok ({ parent with items := parent.items.set top.index (.tuple top.items) } :: rest)
    else .error (.tupleOutOfRange top.index)

/-- Closes as many tuples as said. -/
def closeMany : Nat → List Frame → Except FrameFault (List Frame)
  | 0, frames => .ok frames
  | n + 1, frames => do closeMany n (← close frames)

/-- Opens the tuples at `path`, one for each of the given lengths of its beginning, of the row
with schema `root` that lies inside `depth` containers. -/
def openMany (d : Decoder) (row : Span) (depth : Nat) (root : Schema) (path : Path) :
    List Nat → List Frame → Except Fault (List Frame)
  | [], frames => .ok frames
  | length :: lengths, frames =>
    match root.fieldAt? (path.take length) with
    | none => .error (.frame (.noTuple (path.take length)))
    | some schema => do
      d.checkDepth (depth + frames.length) row
      openMany d row depth root path lengths
        (empty ((path.take length).getLastD 0) schema.fields.length :: frames)

/-- The only tuple that is left open. -/
def root : List Frame → Except FrameFault Value
  | [] => .error .noFrame
  | frame :: _ => .ok (.tuple frame.items)

end Frame

end RowFormat
