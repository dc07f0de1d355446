import KcpGo.Core.Cells

/-!
# `RingBuffer` (`ringbuffer.go`)

The circular buffer behind `snd_queue`, `rcv_queue` and `snd_buf`. An index
out of range and a remainder by 0 are panics. A pointer to an element is used
at once, so `Peek` and `At` return the value there, and `setAt` is an
assignment through the pointer `At` returns.

`Call` are the operations of a user, `RingBuffer.step` what they do and
return, and `listStep` the same calls on a plain list.
-/
namespace KcpGo.L2

open KcpGo.Cells

/-- mirrors src/ringbuffer.go:26-27 -/
def RINGBUFFER_MIN : Nat := 8
def RINGBUFFER_EXP : Nat := 1024

/-- mirrors src/ringbuffer.go:32-36 (`RingBuffer`) -/
structure RingBuffer (α : Type) where
  head : Nat
  tail : Nat
  elements : List α
  deriving DecidableEq, Repr

namespace RingBuffer

variable {α : Type}

/-- mirrors src/ringbuffer.go:53-59 (`Len`) -/
def len (r : RingBuffer α) : Nat :=
  if r.head ≤ r.tail then r.tail - r.head else r.elements.length - r.head + r.tail

/-- mirrors src/ringbuffer.go:201-203 (`IsEmpty`) -/
def isEmpty (r : RingBuffer α) : Bool := r.head = r.tail

/-- mirrors src/ringbuffer.go:207-209 (`MaxLen`) -/
def maxLen (r : RingBuffer α) : Nat := r.elements.length - 1

/-- mirrors src/ringbuffer.go:213-215 (`IsFull`) -/
def isFull (r : RingBuffer α) : Go Bool := do
  let next ← mod (r.tail + 1) r.elements.length
  .ok (next = r.head)

/-- The growth policy.
mirrors src/ringbuffer.go:227-234 -/
def newSize (currentSize : Nat) : Nat :=
  if currentSize < RINGBUFFER_MIN then RINGBUFFER_MIN
  else if currentSize < RINGBUFFER_EXP then currentSize * 2
  else currentSize + (currentSize + 9) / 10

/-- mirrors src/ringbuffer.go:87-92 (`Peek`) -/
def peek (r : RingBuffer α) : Go (Option α) :=
  if r.len = 0 then .ok none
  else do
    let a ← load r.elements r.head
    .ok (some a)

/-- The slot of the `i`-th element; negative: no slot.
mirrors src/ringbuffer.go:256-259 -/
def slot (r : RingBuffer α) (i : Int) : Int :=
  let j := r.head + i
  if r.elements.length ≤ j then j - r.elements.length else j

/-- mirrors src/ringbuffer.go:255-261 (`At`) -/
def «at» (r : RingBuffer α) (i : Int) : Go α :=
  if r.slot i < 0 then .error .sliceBounds else load r.elements (r.slot i).toNat

/-- `*r.At(i) = v`. -/
def setAt (r : RingBuffer α) (i : Int) (v : α) : Go (RingBuffer α) :=
  if r.slot i < 0 then .error .sliceBounds
  else do
    let elements ← store r.elements (r.slot i).toNat v
    .ok { r with elements := elements }

/-- The ring after the callback, and the elements it was shown.
mirrors src/ringbuffer.go:125-149 (`ForEach`) -/
def forEach (r : RingBuffer α) (fn : Callback α) : Go (RingBuffer α × List α) :=
  if r.len = 0 then .ok (r, [])
  else if r.head < r.tail then do
    let (seen, elements, _) ← visitUp fn (r.tail - r.head) r.head [] r.elements
    .ok ({ r with elements := elements }, seen)
  else do
    let (seen, elements, cont) ← visitUp fn (r.elements.length - r.head) r.head [] r.elements
    if cont then do
      let (seen, elements, _) ← visitUp fn r.tail 0 seen elements
      .ok ({ r with elements := elements }, seen)
    else .ok ({ r with elements := elements }, seen)

/-- mirrors src/ringbuffer.go:154-178 (`ForEachReverse`) -/
def forEachReverse (r : RingBuffer α) (fn : Callback α) : Go (RingBuffer α × List α) :=
  if r.len = 0 then .ok (r, [])
  else if r.head < r.tail then do
    let (seen, elements, _) ← visitDown fn r.head (r.tail - r.head) [] r.elements
    .ok ({ r with elements := elements }, seen)
  else do
    let (seen, elements, cont) ← visitDown fn 0 r.tail [] r.elements
    if cont then do
      let (seen, elements, _) ← visitDown fn r.head (elements.length - r.head) seen elements
      .ok ({ r with elements := elements }, seen)
    else .ok ({ r with elements := elements }, seen)

variable [Inhabited α]

/-- `make` panics above the allocation limit, which is left out.
mirrors src/ringbuffer.go:41-50 (`NewRingBuffer`) -/
def new (size : Int) : RingBuffer α :=
  let size := if size ≤ RINGBUFFER_MIN then (RINGBUFFER_MIN : Int) else size
  ⟨0, 0, List.replicate size.toNat default⟩

/-- mirrors src/ringbuffer.go:222-251 (`grow`) -/
def grow (r : RingBuffer α) : Go (RingBuffer α) :=
  let newElements : List α := List.replicate (newSize r.elements.length) default
  if r.head < r.tail then do
    let live ← range r.elements r.head r.tail
    .ok ⟨0, r.len, (copy newElements live).1⟩
  else do
    let upper ← range r.elements r.head r.elements.length
    let (newElements, n) := copy newElements upper
    let lower ← range r.elements 0 r.tail
    let rest ← range newElements n newElements.length
    .ok ⟨0, r.len, newElements.take n ++ (copy rest lower).1⟩

/-- The write of `Push`, when there is room.
mirrors src/ringbuffer.go:67-68 -/
def put (r : RingBuffer α) (v : α) : Go (RingBuffer α) := do
  let elements ← store r.elements r.tail v
  let tail ← mod (r.tail + 1) elements.length
  .ok { r with elements := elements, tail := tail }

/-- mirrors src/ringbuffer.go:63-69 (`Push`) -/
def push (r : RingBuffer α) (v : α) : Go (RingBuffer α) := do
  let full ← r.isFull
  let r ← if full then r.grow else .ok r
  r.put v

/-- mirrors src/ringbuffer.go:73-83 (`Pop`) -/
def pop (r : RingBuffer α) : Go (RingBuffer α × α × Bool) :=
  if r.len = 0 then .ok (r, default, false)
  else do
    let value ← load r.elements r.head
    let elements ← store r.elements r.head default
    let head ← mod (r.head + 1) elements.length
    .ok ({ r with elements := elements, head := head }, value, true)

/-- mirrors src/ringbuffer.go:181-198 (`Clear`) -/
def clear (r : RingBuffer α) : Go (RingBuffer α) :=
  if r.head ≤ r.tail then do
    let elements ← zeroLoop (r.tail - r.head) r.head r.elements
    .ok ⟨0, 0, elements⟩
  else do
    let elements ← zeroLoop (r.elements.length - r.head) r.head r.elements
    let elements ← zeroLoop r.tail 0 elements
    .ok ⟨0, 0, elements⟩

/-- mirrors src/ringbuffer.go:97-120 (`Discard`) -/
def discard (r : RingBuffer α) (n : Int) : Go (RingBuffer α × Int) :=
  if n ≤ 0 then .ok (r, 0)
  else
    let n := min n.toNat r.len
    if n = r.len then do
      let r ← r.clear
      .ok (r, n)
    else
      let cap := r.elements.length
      let last := r.head + n
      if last < cap then do
        let elements ← Cells.clear r.elements r.head last
        .ok ({ r with elements := elements, head := last }, n)
      else do
        let elements ← Cells.clear r.elements r.head cap
        let elements ← Cells.clear elements 0 (last - cap)
        .ok ({ r with elements := elements, head := last - cap }, n)

end RingBuffer

/-! ## The calls of a user -/

inductive RingCall (α : Type) where
  | push (v : α)
  | pop
  | peek
  | discard (n : Int)
  | clear
  | at (i : Int)
  | setAt (i : Int) (v : α)
  | forEach (fn : Callback α)
  | forEachReverse (fn : Callback α)
  | len
  | isEmpty

/-- What a call returns. -/
inductive RingOut (α : Type) where
  | none
  | popped (v : α) (ok : Bool)
  | peeked (v : Option α)
  | count (n : Int)
  | elem (v : α)
  | shown (l : List α)
  | flag (b : Bool)
  deriving DecidableEq, Repr

variable {α : Type} [Inhabited α]

def RingBuffer.step (r : RingBuffer α) : RingCall α → Go (RingBuffer α × RingOut α)
  | .push v => do
    let r ← r.push v
    .ok (r, .none)
  | .pop => do
    let (r, v, ok) ← r.pop
    .ok (r, .popped v ok)
  | .peek => do
    let v ← r.peek
    .ok (r, .peeked v)
  | .discard n => do
    let (r, n) ← r.discard n
    .ok (r, .count n)
  | .clear => do
    let r ← r.clear
    .ok (r, .none)
  | .at i => do
    let v ← r.at i
    .ok (r, .elem v)
  | .setAt i v => do
    let r ← r.setAt i v
    .ok (r, .none)
  | .forEach fn => do
    let (r, seen) ← r.forEach fn
    .ok (r, .shown seen)
  | .forEachReverse fn => do
    let (r, seen) ← r.forEachReverse fn
    .ok (r, .shown seen)
  | .len => .ok (r, .count r.len)
  | .isEmpty => .ok (r, .flag r.isEmpty)

/-- The same calls on a plain list. -/
def listStep (l : List α) : RingCall α → List α × RingOut α
  | .push v => (l ++ [v], .none)
  | .pop => match l with
    | [] => ([], .popped default false)
    | v :: l => (l, .popped v true)
  | .peek => (l, .peeked l.head?)
  | .discard n => (l.drop n.toNat, .count (min n.toNat l.length : Nat))
  | .clear => ([], .none)
  | .at i => (l, .elem (l.getD i.toNat default))
  | .setAt i v => (l.set i.toNat v, .none)
  | .forEach fn => ((visit fn [] l).2.1, .shown (visit fn [] l).1)
  | .forEachReverse fn => ((visit fn [] l.reverse).2.1.reverse, .shown (visit fn [] l.reverse).1)
  | .len => (l, .count l.length)
  | .isEmpty => (l, .flag l.isEmpty)

/-- `At` is called with an index of the list. -/
def RingCall.Allowed (l : List α) : RingCall α → Prop
  | .at i => 0 ≤ i ∧ i < l.length
  | .setAt i _ => 0 ≤ i ∧ i < l.length
  | _ => True

end KcpGo.L2
