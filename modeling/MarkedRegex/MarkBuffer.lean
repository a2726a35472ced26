-- The text a mark has taken in so far, newest character first, so that one
-- more character costs one cell and buffers that fork share what they have.
import MarkedRegex.Text

namespace MarkedRegex

/-- The characters taken in so far, newest first. -/
structure MarkBuffer where
  newestFirst : List Char
  deriving DecidableEq

namespace MarkBuffer

def empty : MarkBuffer := ⟨[]⟩

instance : EmptyCollection MarkBuffer := ⟨empty⟩
instance : Inhabited MarkBuffer := ⟨empty⟩

/-- The buffer with one more character at the end of its text. -/
def push (b : MarkBuffer) (c : Char) : MarkBuffer := ⟨c :: b.newestFirst⟩

def pushAll (b : MarkBuffer) (cs : List Char) : MarkBuffer := cs.foldl push b

def size (b : MarkBuffer) : Nat := b.newestFirst.length

def isEmpty (b : MarkBuffer) : Bool := b.newestFirst.isEmpty

/-- The text in the order it was taken in. -/
def text (b : MarkBuffer) : List Char := b.newestFirst.reverse

/-- The text in quotes. -/
def inspect (b : MarkBuffer) : List Char := Text.quoted b.text

/-! ## Laws of the text -/

@[simp] theorem text_empty : (∅ : MarkBuffer).text = [] := rfl

@[simp] theorem text_push (b : MarkBuffer) (c : Char) : (b.push c).text = b.text ++ [c] := by
  simp [text, push]

@[simp] theorem text_pushAll (b : MarkBuffer) (cs : List Char) :
    (b.pushAll cs).text = b.text ++ cs := by
  induction cs generalizing b with
  | nil => simp [pushAll]
  | cons c cs ih =>
    have h : b.pushAll (c :: cs) = (b.push c).pushAll cs := rfl
    rw [h, ih, text_push, List.append_assoc]
    rfl

theorem text_inj {a b : MarkBuffer} : a.text = b.text ↔ a = b := by
  cases a
  cases b
  simp [text]

end MarkBuffer

end MarkedRegex
