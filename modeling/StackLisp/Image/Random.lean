/-!
# Random numbers

What `random` chooses by. The numbers to be drawn first can be given, so that
nothing that is said of all settings depends on how the others are computed.
-/

namespace StackLisp

/-- The random numbers that are still to be drawn. -/
structure Draws where
  /-- Those drawn first. -/
  first : List UInt64 := []
  /-- What all others are computed from. -/
  seed : UInt64 := 0
deriving DecidableEq, Repr, Inhabited

namespace Draws

/-- Mixes the bits of a number. -/
def mix (n : UInt64) : UInt64 :=
  let n := (n ^^^ (n >>> 30)) * 0xbf58476d1ce4e5b9
  let n := (n ^^^ (n >>> 27)) * 0x94d049bb133111eb
  n ^^^ (n >>> 31)

/-- The next number, and those after it. -/
def next (d : Draws) : UInt64 × Draws :=
  match d.first with
  | n :: first => (n, { d with first })
  | [] =>
    let seed := d.seed + 0x9e3779b97f4a7c15
    (mix seed, { d with seed })

end Draws

end StackLisp
