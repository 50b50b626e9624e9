/-!
# Configuration

The bounds of a machine. Every bound that a machine divides by or needs room under is positive.

## Main definitions

* `ScriptEngine.Config`: the bounds;
* `ScriptEngine.Config.standard`: the bounds unless a host chooses others;
* `ScriptEngine.Config.withFrameLimit` and the other setters, which raise a bound of 0 to 1 where
  it has to be positive.
-/

namespace ScriptEngine

/-- **The bounds of a machine**: the depth of its calls, the size of its operand stack, the number
of arguments of a call, and the number of instructions from one look at the clock to the next. -/
structure Config where
  frameLimit : Nat := 1024
  stackLimit : Nat := 65536
  argLimit : Nat := 255
  checkInterval : UInt32 := 256
  frameLimit_pos : 0 < frameLimit := by decide
  stackLimit_pos : 0 < stackLimit := by decide
  checkInterval_pos : 0 < checkInterval := by decide
deriving DecidableEq

namespace Config

/-- The bounds of a machine for which nobody chose others. -/
def standard : Config := {}

instance : Inhabited Config := ⟨standard⟩

def withFrameLimit (c : Config) (limit : Nat) : Config :=
  { c with frameLimit := max limit 1, frameLimit_pos := by omega }

def withStackLimit (c : Config) (limit : Nat) : Config :=
  { c with stackLimit := max limit 1, stackLimit_pos := by omega }

def withArgLimit (c : Config) (limit : Nat) : Config :=
  { c with argLimit := limit }

def withCheckInterval (c : Config) (interval : UInt32) : Config :=
  if h : 0 < interval then { c with checkInterval := interval, checkInterval_pos := h }
  else { c with checkInterval := 1, checkInterval_pos := by decide }

end Config

end ScriptEngine
