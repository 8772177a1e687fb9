import SlabHeap.Shape

namespace SlabHeap

/-! The shapes that every standard heap starts with: where their words lie, and their tags. -/

namespace Tag

def context : UInt8 := 1
def pair : UInt8 := 2
def vector : UInt8 := 3
def bytes : UInt8 := 4
def weakBox : UInt8 := 5
def ephemeron : UInt8 := 6

end Tag

namespace Layout

/-! Offsets from the start of an object, in bytes. The heap word and the saves word of a context
hold plain addresses; the length of a sequence is a fixnum; all other words are values. -/

namespace Context

def heap : Nat := 8
def saves : Nat := 16
def parent : Nat := 24
def environment : Nat := 32
def size : Nat := 40

end Context

namespace Pair

def car : Nat := 8
def cdr : Nat := 16
def size : Nat := 24

end Pair

namespace Sequence

def length : Nat := 8
def contents : Nat := 16

end Sequence

namespace WeakBox

def target : Nat := 8
def size : Nat := 16

end WeakBox

namespace Ephemeron

def key : Nat := 8
def value : Nat := 16
def size : Nat := 24

end Ephemeron

end Layout

namespace Shape

/-- An execution context: its parent and its environment are values. -/
def context : Shape :=
  { name := "context"
    size := { base := Layout.Context.size }
    strong := { offset := Layout.Context.parent, count := 2 } }

def pair : Shape :=
  { name := "pair"
    size := { base := Layout.Pair.size }
    strong := { offset := Layout.Pair.car, count := 2 } }

/-- A length and as many values. -/
def vector : Shape :=
  { name := "vector"
    size :=
      { base := Layout.Sequence.contents
        length := some { offset := Layout.Sequence.length, scale := wordBytes } }
    strong :=
      { offset := Layout.Sequence.contents
        count := 0
        length := some { offset := Layout.Sequence.length, scale := 1 } } }

/-- A length and as many bytes. -/
def bytes : Shape :=
  { name := "bytes"
    size :=
      { base := Layout.Sequence.contents
        length := some { offset := Layout.Sequence.length, scale := 1 } }
    strong := .none }

/-- One weak slot. -/
def weakBox : Shape :=
  { name := "weak-box"
    size := { base := Layout.WeakBox.size }
    strong := .none
    weak := some { offset := Layout.WeakBox.target, count := 1 } }

/-- A weak key and a strong value that is dropped with its key. -/
def ephemeron : Shape :=
  { name := "ephemeron"
    size := { base := Layout.Ephemeron.size }
    strong := { offset := Layout.Ephemeron.value, count := 1 }
    weak := some { offset := Layout.Ephemeron.key, count := 1 }
    dependent := 1 }

end Shape

end SlabHeap
