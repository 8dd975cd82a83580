import LenientJson.Value
import LenientJson.Members

/-! Documents with a hole. A frame is one container around the hole, with what stands before and after it in
this container; a context is a list of frames, the outermost first. -/
namespace LenientJson.Value

inductive Frame
  | member (before : Members Tree) (key : Text) (after : Members Tree)
  | element (before after : List (Option Tree))

abbrev Context := List Frame

def Frame.fill : Frame → Tree → Tree
  | member before key after, v => .object (before ++ (key, v) :: after)
  | element before after, v => .array (before ++ some v :: after)

/-- The document with the hole filled. -/
def Context.fill (c : Context) (v : Tree) : Tree := c.foldr Frame.fill v

namespace Context

variable (f : Frame) (b c : Context) (v : Tree)

@[simp] theorem fill_nil : fill [] v = v := by simp [fill]

@[simp] theorem fill_cons : fill (f :: c) v = f.fill (fill c v) := by simp [fill]

end Context
end LenientJson.Value
