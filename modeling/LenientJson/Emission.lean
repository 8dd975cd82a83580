import LenientJson.Fault

/-! Text that is written piece by piece and may break off at a fault; what was written before the
fault stays written. -/
namespace LenientJson

structure Emission where
  text : Text
  fault : Option Fault
deriving DecidableEq

namespace Emission

def ofText (t : Text) : Emission := ⟨t, none⟩

def ofString (s : String) : Emission := ofText (Text.ofString s)

def ofExcept : Except Fault Text → Emission
  | .ok t => ofText t
  | .error fault => ⟨[], some fault⟩

def append (a b : Emission) : Emission :=
  match a.fault with
  | some _ => a
  | none => ⟨a.text ++ b.text, b.fault⟩

instance : Append Emission := ⟨append⟩

def complete (e : Emission) : Except Fault Text :=
  match e.fault with
  | some fault => .error fault
  | none => .ok e.text

theorem append_eq (a b : Emission) : a ++ b = a.append b := rfl

@[simp] theorem ofText_append_ofText (s t : Text) : ofText s ++ ofText t = ofText (s ++ t) := rfl

theorem append_assoc (a b c : Emission) : a ++ b ++ c = a ++ (b ++ c) := by
  obtain ⟨s, f⟩ := a
  obtain ⟨t, g⟩ := b
  cases f <;> cases g <;> simp [append_eq, append]

end Emission
end LenientJson
