import LiftedPomdp.Random.ChaCha
import LiftedPomdp.Random.Distribution

/-!
# Sampling

A sampler is a seeded random stream that counts its draws.  Point masses take no draw, a coin takes
one word of the stream, and a uniform real takes words until one falls below the upper bound.
-/

namespace LiftedPomdp

/-- A random stream with the seed that it came from and the number of draws since then. -/
structure Sampler where
  seed : UInt64
  /-- The place in the stream of the seed. -/
  stream : RandomStream
  /-- The number of draws. -/
  draws : Nat
  deriving DecidableEq, Repr

namespace Sampler

/-- The sampler at the start of the stream of a seed. -/
def ofSeed (seed : UInt64) : Sampler :=
  { seed, stream := RandomStream.ofSeed seed, draws := 0 }

/-- The real in `[0, 1)` whose 53 bits are the upper bits of a word. -/
def unitReal (w : UInt64) : Float :=
  (w >>> 11).toFloat * Float.ofBits 0x3CA0000000000000

/-- The real in `[0, 1)` whose 52 bits are the upper bits of a word, read as the fraction of a
number in `[1, 2)`. -/
def unitFraction (w : UInt64) : Float :=
  Float.ofBits ((0x3FF0000000000000 : UInt64) ||| (w >>> 12)) - 1.0

/-- The real of an interval that a word stands for. -/
def realAt (low scale : Float) (w : UInt64) : Float :=
  unitFraction w * scale + low

/-- The first real below the upper bound among those that the next words stand for, as many as
given; none when all of them are refused. -/
def trial (low high scale : Float) : Nat → RandomStream → Option (Float × RandomStream)
  | 0, _ => none
  | n + 1, r =>
    let (w, r) := r.next
    let x := realAt low scale w
    if x < high then some (x, r) else trial low high scale n r

/-- Draws one value.  An interval whose length is beyond the doubles cannot be drawn from.  A draw
that refuses a whole period of the stream meets the same words again and never ends. -/
def sample (s : Sampler) : Distribution → Except Abort Value × Sampler
  | .kronDelta v => (.ok v, s)
  | .diracDelta x => (.ok (.real x), s)
  | .bernoulli p =>
    let (w, r) := s.stream.next
    (.ok (.bool (decide (unitReal w < p))), { s with stream := r, draws := s.draws + 1 })
  | .uniform low high =>
    let scale := high - low
    if scale.isFinite && decide (low < high) then
      match trial low high scale RandomStream.period s.stream with
      | some (x, r) => (.ok (.real x), { s with stream := r, draws := s.draws + 1 })
      | none => (.error (.endlessDraw low high), { s with draws := s.draws + 1 })
    else
      (.error (.endlessInterval low high), { s with draws := s.draws + 1 })

end Sampler
end LiftedPomdp
