/-!
Output that grows at its end, and the copy of an earlier stretch of it. A copy proceeds byte by
byte, so that a copy longer than its distance repeats the bytes that it has just written.
-/
namespace AdLibModule.Output

/-- Appends `count` bytes, each equal to the byte `distance` places before it. -/
def repeatBack (out : Array UInt8) (distance : Nat) : Nat → Array UInt8
  | 0 => out
  | count + 1 => repeatBack (out.push (out.getD (out.size - distance) 0)) distance count

theorem size_repeatBack (out : Array UInt8) (distance count : Nat) :
    (repeatBack out distance count).size = out.size + count := by
  induction count generalizing out with
  | zero => rfl
  | succ count ih => rw [repeatBack, ih, Array.size_push]; omega

/-- Appends zero bytes up to the given size. -/
def zeroFill (out : Array UInt8) (size : Nat) : Array UInt8 :=
  out ++ Array.replicate (size - out.size) 0

end AdLibModule.Output
